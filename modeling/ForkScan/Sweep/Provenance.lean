import ForkScan.Sweep.Ownership

/-!
# ForkScan — what is freed comes from the input

`Owned` needs the dataset's addresses strictly ascending. Without that, for any dataset, the
sweep still only ever passes to `free` the masked address of some candidate: `Provenance`
keeps, in every reachable state, that every entry of the array masks to a candidate's address,
that every frame runs on an index of the array and read that entry, that every thread's range
lies in the array, and that every freed block is a masked candidate address.

A repeated address is two entries of the array, so nothing here stops it from being freed
twice; `Owned.nodup` is what the ascending order adds.
-/

namespace ForkScan

/-- What a frame's locals say about the array, up to the collected bit: it runs on an index,
the `addr` it read is that entry, and a `loc` it holds is an index. -/
def FrameSource (h : Heap) (f : Frame) : Prop :=
  f.n < h.nAddrs ∧
    match f.pc with
    | .entry => True
    | .scan addr _ _ pc => ptrMask addr = ptrMask (h.addrs f.n) ∧
      match pc with
      | .dec _ loc | .reread _ loc | .cas _ loc => loc < h.nAddrs
      | _ => True

theorem FrameSource.stable {h h' : Heap} {g : Frame} (hg : FrameSource h g)
    (hn : h'.nAddrs = h.nAddrs) (hmask : ∀ k, ptrMask (h'.addrs k) = ptrMask (h.addrs k)) :
    FrameSource h' g := by
  unfold FrameSource at hg ⊢; rw [hn, hmask]; exact hg

/-- **A step of a thread keeps its range in the array and its frames on entries of it.** -/
theorem WorkerStep.source {h h' : Heap} {w w' : Worker} (hs : WorkerStep h w h' w')
    (hr : RangeOwned h.nAddrs w) (hfr : ∀ g ∈ w.frames, FrameSource h g) :
    RangeOwned h'.nAddrs w' ∧ ∀ g ∈ w'.frames, FrameSource h' g := by
  have hn := hs.nAddrs_eq
  have hmask := hs.mask_eq
  have old : ∀ g ∈ w.frames, FrameSource h' g := fun g hg => (hfr g hg).stable hn hmask
  -- a step that replaces the top frame `f` by `f'` keeps the frames below
  have top : ∀ {f : Frame} {rest : List Frame} (f' : Frame), w.frames = f :: rest →
      FrameSource h' f' → ∀ g ∈ f' :: rest, FrameSource h' g := fun f' hf hf' g hg => by
    rcases List.mem_cons.mp hg with rfl | hg
    · exact hf'
    · exact old g (hf ▸ List.mem_cons_of_mem _ hg)
  -- the facts of the top frame, in the new heap
  have topSrc : ∀ {f : Frame} {rest : List Frame}, w.frames = f :: rest → FrameSource h' f :=
    fun hf => old _ (hf ▸ List.mem_cons_self _ _)
  rw [hn]
  cases hs with
  | rangeRead _ _ hi => exact ⟨⟨hr.1, hr.2.1, fun _ => hi, fun _ h => by cases h⟩, old⟩
  | rangeAssert _ hpc =>
    exact ⟨⟨hr.1, hr.2.1, fun _ => hr.lt (by rw [hpc]; simp), fun _ h => by cases h⟩, old⟩
  | rangePass _ hpc hpass =>
    exact ⟨⟨hr.1, hr.2.1, fun _ => hr.lt (by rw [hpc]; simp),
      fun _ h => by cases h; exact hpass.1⟩, old⟩
  | rangeFail | rangeLose => exact ⟨hr.next, old⟩
  | rangeClaim _ hpc _ =>
    refine ⟨hr.next, fun g hg => ?_⟩
    rw [List.mem_singleton.mp hg]
    exact ⟨by rw [hn]; exact lt_of_lt_of_le (hr.lt (by rw [hpc]; simp)) hr.1, trivial⟩
  | frameEntry hf _ =>
    refine ⟨hr, top _ hf ?_⟩
    simpa [FrameSource] using (topSrc hf).1
  | frameFree hf _ _ => exact ⟨hr, fun g hg => old g (hf ▸ List.mem_cons_of_mem _ hg)⟩
  | frameFound hf hpc hloc =>
    have ho := topSrc hf
    simp only [FrameSource, hpc] at ho
    refine ⟨hr, top _ hf ?_⟩
    simp only [FrameSource]
    exact ⟨ho.1, ho.2.1, (searchLoc_some hloc (by rw [← hn]; omega)).1⟩
  | frameClaim hf hpc _ =>
    have ho := topSrc hf
    simp only [FrameSource, hpc] at ho
    refine ⟨hr, fun g hg => ?_⟩
    rcases List.mem_cons.mp hg with rfl | hg
    · simp only [FrameSource]; exact ⟨ho.2.2, trivial⟩
    · refine top _ hf ?_ g hg
      simp only [FrameSource]; exact ⟨ho.1, ho.2.1, trivial⟩
  | frameRead hf hpc _ _ | frameSkip hf hpc _ _ | frameMiss hf hpc _ | frameLose hf hpc _
  | frameZero hf hpc | frameDec hf hpc | frameGo hf hpc _ | frameStop hf hpc _ =>
    have ho := topSrc hf
    simp only [FrameSource, hpc] at ho
    refine ⟨hr, top _ hf ?_⟩
    simp only [FrameSource]
    first
    | exact ho
    | exact ⟨ho.1, ho.2.1, trivial⟩

/-! ## The invariant -/

/-- The provenance invariant of the sweep started from `D`. -/
structure Provenance (D : Dataset) (s : Sweep) : Prop where
  entries : ∀ k < s.heap.nAddrs, ∃ j < D.n, ptrMask (s.heap.addrs k) = ptrMask (D.addrs j)
  frames : ∀ w < s.nWorkers, ∀ g ∈ (s.workers w).frames, FrameSource s.heap g
  ranges : ∀ w < s.nWorkers, RangeOwned s.heap.nAddrs (s.workers w)
  freed : ∀ v ∈ s.heap.freed, ∃ j < D.n, ptrMask (D.addrs j) = v

namespace Provenance

variable {D : Dataset} {s : Sweep}

/-- **Every step of a thread keeps the provenance invariant.** -/
theorem step (hp : Provenance D s) {w : Nat} (hw : w < s.nWorkers) {h' : Heap} {wk' : Worker}
    (hstep : WorkerStep s.heap (s.workers w) h' wk') : Provenance D (s.setWorker h' w wk') := by
  have hn := hstep.nAddrs_eq
  have hmask := hstep.mask_eq
  obtain ⟨hr', hf'⟩ := hstep.source (hp.ranges w hw) (hp.frames w hw)
  refine ⟨fun k hk => ?_, fun w' hw' => ?_, fun w' hw' => ?_, fun v hv => ?_⟩
  · rw [Sweep.setWorker_heap, hmask]; exact hp.entries k (hn ▸ hk)
  · rw [Sweep.setWorker_workers]
    split_ifs
    · exact hf'
    · exact fun g hg => (hp.frames w' hw' g hg).stable hn hmask
  · rw [Sweep.setWorker_workers]
    split_ifs
    · exact hr'
    · exact hn ▸ hp.ranges w' hw'
  · rcases hstep.freed_cases with heq | ⟨f, rest, addr, e, i, hf, hpc, -, heq⟩
    · exact hp.freed v (heq ▸ hv)
    · rw [Sweep.setWorker_heap, heq] at hv
      rcases List.mem_append.mp hv with hv | hv
      · exact hp.freed v hv
      · have ho := hp.frames w hw f (hf ▸ List.mem_cons_self f rest)
        simp only [FrameSource, hpc] at ho
        obtain ⟨j, hj, hjm⟩ := hp.entries f.n ho.1
        refine ⟨j, hj, ?_⟩
        rw [List.mem_singleton.mp hv, ho.2.1, hjm]

/-- **The join keeps the provenance invariant.** -/
theorem afterJoin (hp : Provenance D s) : Provenance D s.afterJoin := by
  refine ⟨fun k hk => ?_, fun w hw g hg => ?_, fun w hw => ?_, fun v hv => ?_⟩
  · obtain ⟨hk', ha, -⟩ := s.afterJoin_slot hk
    rw [ha]; exact hp.entries _ (survivors_get_mem _ hk').1
  · rw [s.afterJoin_noFrames w hw] at hg; cases hg
  · simp only [Sweep.afterJoin] at hw ⊢
    split_ifs at hw ⊢
    · exact Owned.rangeWorker_owned _ w hw
    · exact absurd hw (Nat.not_lt_zero _)
  · exact hp.freed v (s.afterJoin_mem.2 ▸ hv)

theorem init (D : Dataset) : Provenance D (Sweep.init D) :=
  ⟨fun k hk => ⟨k, hk, rfl⟩, fun _ _ _ hg => (nomatch hg),
    fun w hw => Owned.rangeWorker_owned _ w hw, fun _ hv => (nomatch hv)⟩

theorem reachable (hr : Sweep.Reachable D s) : Provenance D s := by
  induction hr with
  | refl => exact init D
  | tail _ hstep ih =>
    cases hstep with
    | worker w hw _ hbusy =>
      rw [Sweep.runWorker_eq]; exact ih.step hw (stepWorker_spec _ _ hbusy)
    | join => exact ih.afterJoin

end Provenance

end ForkScan
