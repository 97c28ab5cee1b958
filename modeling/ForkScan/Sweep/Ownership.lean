import ForkScan.Sweep.Frames

/-!
# ForkScan — ownership: every candidate is claimed and freed at most once

The first invariant of the sweep, `Owned`, needs nothing of the counts in `refs` or of the
words of the blocks; it rests only on the addresses being ascending and free of the
collected bit when the sweep starts. It says:

* the masked addresses of the array stay ascending and are the dataset's addresses;
* every `unref_addr` frame holds a slot whose collected bit is set and whose block has not
  been freed, and no slot is held by two frames;
* a slot whose bit is clear is held by no frame and its block is not freed; a slot whose
  bit is set is held by a frame or its block is freed;
* `free` has been called on dataset addresses only, each at most once.

A step of a thread either changes none of this (`Owned.quiet`), claims a slot whose bit
was clear (`Owned.claim`), or frees the block of the innermost frame (`Owned.free`);
`Owned.runWorker` sorts every `WorkerStep` into one of the three. The join drops exactly the
slots with the bit set, all of which are freed by then (`Owned.afterJoin`).
-/

namespace ForkScan

/-! ## The invariant -/

/-- What a frame's locals say about the array, as far as ownership goes: the `addr` it read
is its own entry, the words it found are masked, and a `loc` it holds is an index. -/
def FrameOwned (addrs : Nat → Nat) (n : Nat) (f : Frame) : Prop :=
  match f.pc with
  | .entry => True
  | .scan addr _ _ pc => addr = addrs f.n ∧
    match pc with
    | .read => True
    | .zero deep | .search deep => deep % 2 = 0
    | .dec deep loc | .reread deep loc | .cas deep loc => deep % 2 = 0 ∧ loc < n

/-- A thread's range lies in the array, its cursor inside it while it works on an index, and
it only tries to claim an entry it read with the bit clear. -/
def RangeOwned (n : Nat) (w : Worker) : Prop :=
  w.rangeEnd ≤ n ∧ w.rangeBegin ≤ w.i ∧ (w.pc ≠ .read → w.i < w.rangeEnd) ∧
    ∀ addr, w.pc = .cas addr → addr % 2 = 0

/-- Slot `k` is held: an index of the array with its collected bit set and its block not
yet freed. -/
def SlotHeld (h : Heap) (k : Nat) : Prop :=
  k < h.nAddrs ∧ h.addrs k % 2 = 1 ∧ ptrMask (h.addrs k) ∉ h.freed

/-- The ownership invariant of the sweep started from `D`. -/
structure Owned (D : Dataset) (s : Sweep) : Prop where
  masks : ∀ k < s.heap.nAddrs, ∃ j < D.n, ptrMask (s.heap.addrs k) = D.addrs j
  ascending : ∀ k k', k < k' → k' < s.heap.nAddrs →
    ptrMask (s.heap.addrs k) < ptrMask (s.heap.addrs k')
  held : ∀ f, s.HasFrame f → SlotHeld s.heap f.n ∧ FrameOwned s.heap.addrs s.heap.nAddrs f
  owners_le : ∀ k, s.owners k ≤ 1
  even : ∀ k < s.heap.nAddrs, s.heap.addrs k % 2 = 0 →
    s.owners k = 0 ∧ s.heap.addrs k ∉ s.heap.freed
  odd : ∀ k < s.heap.nAddrs, s.heap.addrs k % 2 = 1 →
    s.owners k = 1 ∨ ptrMask (s.heap.addrs k) ∈ s.heap.freed
  cover : ∀ j < D.n, D.addrs j ∈ s.heap.freed ∨
    ∃ k < s.heap.nAddrs, ptrMask (s.heap.addrs k) = D.addrs j
  nodup : s.heap.freed.Nodup
  freed_sub : ∀ v ∈ s.heap.freed, ∃ j < D.n, D.addrs j = v
  ranges : ∀ w < s.nWorkers, RangeOwned s.heap.nAddrs (s.workers w)
  idle : s.running = false → s.nWorkers = 0

/-- The dataset's addresses are strictly ascending and carry no collected bit. -/
structure Dataset.Ascending (D : Dataset) : Prop where
  lt : ∀ j < D.n, ∀ i < j, D.addrs i < D.addrs j
  aligned : ∀ i < D.n, D.addrs i % 2 = 0

theorem RangeOwned.next {n : Nat} {w : Worker} (hr : RangeOwned n w) :
    RangeOwned n { w with i := w.i + 1, pc := .read } :=
  ⟨hr.1, by have := hr.2.1; dsimp only; omega, fun h => absurd rfl h, fun _ h => by cases h⟩

theorem RangeOwned.lt {n : Nat} {w : Worker} (hr : RangeOwned n w) (hpc : w.pc ≠ .read) :
    w.i < w.rangeEnd := hr.2.2.1 hpc

namespace Owned

variable {D : Dataset} {s : Sweep}

theorem countP_n_eq {l l' : List Frame} (h : l'.map Frame.n = l.map Frame.n) (k : Nat) :
    l'.countP (fun f => f.n = k) = l.countP (fun f => f.n = k) := by
  have := congrArg (List.countP (fun m => decide (m = k))) h
  simpa only [List.countP_map] using this

/-- Distinct slots have distinct masked addresses. -/
theorem mask_ne (hinv : Owned D s) {k k' : Nat} (hk : k < s.heap.nAddrs)
    (hk' : k' < s.heap.nAddrs) (hne : k ≠ k') :
    ptrMask (s.heap.addrs k) ≠ ptrMask (s.heap.addrs k') := by
  rcases Nat.lt_or_gt_of_ne hne with h | h
  · exact Nat.ne_of_lt (hinv.ascending k k' h hk')
  · exact Nat.ne_of_gt (hinv.ascending k' k h hk)

/-! ## The three kinds of step -/

theorem ranges_setWorker (hinv : Owned D s) {w : Nat} {h' : Heap} {wk' : Worker}
    (hn : h'.nAddrs = s.heap.nAddrs) (hrange : RangeOwned s.heap.nAddrs wk') :
    ∀ w' < (s.setWorker h' w wk').nWorkers,
      RangeOwned (s.setWorker h' w wk').heap.nAddrs ((s.setWorker h' w wk').workers w') := by
  intro w' hw'
  rw [Sweep.setWorker_workers, Sweep.setWorker_heap, hn]
  split_ifs
  · exact hrange
  · exact hinv.ranges w' hw'

/-- A step that writes neither `addrs` nor `freed` and keeps the slots of the thread's
frames keeps the invariant, given the new frames' locals. -/
theorem quiet (hinv : Owned D s) {w : Nat} (hw : w < s.nWorkers) {h' : Heap} {wk' : Worker}
    (haddrs : h'.addrs = s.heap.addrs) (hn : h'.nAddrs = s.heap.nAddrs)
    (hfreed : h'.freed = s.heap.freed)
    (hslots : wk'.frames.map Frame.n = (s.workers w).frames.map Frame.n)
    (hlocal : ∀ g ∈ wk'.frames, g ∈ (s.workers w).frames ∨
      FrameOwned s.heap.addrs s.heap.nAddrs g)
    (hrange : RangeOwned s.heap.nAddrs wk') :
    Owned D (s.setWorker h' w wk') := by
  have howners : ∀ k, (s.setWorker h' w wk').owners k = s.owners k := fun k => by
    have := Sweep.countFrames_update hw h' wk' fun f => f.n = k
    rw [countP_n_eq hslots] at this
    simp only [Sweep.owners]; omega
  refine ⟨?_, ?_, ?_, ?_, ?_, ?_, ?_, ?_, ?_, ?_, ?_⟩ <;>
    simp only [Sweep.setWorker_heap, Sweep.setWorker_nWorkers, Sweep.setWorker_running,
      SlotHeld, haddrs, hn, hfreed, howners]
  · exact hinv.masks
  · exact hinv.ascending
  · intro g hg
    rcases (Sweep.hasFrame_setWorker hw).mp hg with hg | ⟨w', hw', _, hg⟩
    · obtain ⟨f₀, hf₀, hn₀⟩ := List.mem_map.mp (hslots ▸ List.mem_map_of_mem Frame.n hg)
      refine ⟨hn₀ ▸ (hinv.held f₀ ⟨w, hw, hf₀⟩).1, ?_⟩
      rcases hlocal g hg with hg' | hg'
      · exact (hinv.held g ⟨w, hw, hg'⟩).2
      · exact hg'
    · exact hinv.held g ⟨w', hw', hg⟩
  · exact hinv.owners_le
  · exact hinv.even
  · exact hinv.odd
  · exact hinv.cover
  · exact hinv.nodup
  · exact hinv.freed_sub
  · exact ranges_setWorker hinv rfl hrange
  · exact hinv.idle

/-- A successful `BCAS` on slot `k`, whose bit was clear, pushes the one frame that holds it. -/
theorem claim (hinv : Owned D s) {w : Nat} (hw : w < s.nWorkers) {h' : Heap} {wk' : Worker}
    {k d : Nat} {rest' : List Frame} (hk : k < s.heap.nAddrs) (heven : s.heap.addrs k % 2 = 0)
    (haddrs : h'.addrs = Function.update s.heap.addrs k (setLowBit (s.heap.addrs k)))
    (hn : h'.nAddrs = s.heap.nAddrs) (hfreed : h'.freed = s.heap.freed)
    (hframes : wk'.frames = ⟨k, d, .entry⟩ :: rest')
    (hslots : rest'.map Frame.n = (s.workers w).frames.map Frame.n)
    (hlocal : ∀ g ∈ rest', g ∈ (s.workers w).frames ∨ FrameOwned s.heap.addrs s.heap.nAddrs g)
    (hrange : RangeOwned s.heap.nAddrs wk') :
    Owned D (s.setWorker h' w wk') := by
  have hk0 := (hinv.even k hk heven).1
  have howners : ∀ k', (s.setWorker h' w wk').owners k' = s.owners k' + if k' = k then 1 else 0 :=
    fun k' => by
      have := Sweep.countFrames_update hw h' wk' fun f => f.n = k'
      rw [hframes, List.countP_cons, countP_n_eq hslots] at this
      simp only [Sweep.owners]
      rcases eq_or_ne k' k with rfl | hkk
      · simp only [decide_True, ite_true, if_pos] at this ⊢; omega
      · simp only [Ne.symm hkk, hkk, decide_False, Bool.false_eq_true, ite_false, if_neg,
          not_false_eq_true] at this ⊢; omega
  -- a slot held by an old frame is not `k`, so the write leaves its entry alone
  have hold : ∀ g, s.HasFrame g → g.n ≠ k := fun g hg hgk => by
    have := (hinv.held g hg).1.2.1; rw [hgk] at this; omega
  have hupd : ∀ k', k' ≠ k → h'.addrs k' = s.heap.addrs k' := fun k' hne => by
    rw [haddrs, Function.update_noteq hne]
  have hmask : ∀ k', ptrMask (h'.addrs k') = ptrMask (s.heap.addrs k') := fun k' => by
    rw [haddrs, Function.update_apply]; split_ifs with h <;> simp [h]
  have hkodd : h'.addrs k % 2 = 1 := by rw [haddrs, Function.update_same]; simp
  have hlocal' : ∀ g, s.HasFrame g → FrameOwned h'.addrs s.heap.nAddrs g := fun g hg => by
    have := (hinv.held g hg).2
    unfold FrameOwned at this ⊢
    rw [hupd g.n (hold g hg)]; exact this
  refine ⟨?_, ?_, ?_, ?_, ?_, ?_, ?_, ?_, ?_, ?_, hinv.idle⟩
  · simp only [Sweep.setWorker_heap, hn, hmask]; exact hinv.masks
  · simp only [Sweep.setWorker_heap, hn, hmask]; exact hinv.ascending
  · intro g hg
    simp only [Sweep.setWorker_heap, SlotHeld, hn, hfreed, hmask]
    rcases (Sweep.hasFrame_setWorker hw).mp hg with hg | ⟨w', hw', _, hg⟩
    · rw [hframes] at hg
      rcases List.mem_cons.mp hg with rfl | hg
      · refine ⟨⟨hk, hkodd, ?_⟩, trivial⟩
        show ptrMask (s.heap.addrs k) ∉ s.heap.freed
        rw [ptrMask_of_even heven]; exact (hinv.even k hk heven).2
      · obtain ⟨f₀, hf₀, hn₀⟩ := List.mem_map.mp (hslots ▸ List.mem_map_of_mem Frame.n hg)
        have hheld := hinv.held f₀ ⟨w, hw, hf₀⟩
        have hne : g.n ≠ k := hn₀ ▸ hold f₀ ⟨w, hw, hf₀⟩
        refine ⟨⟨hn₀ ▸ hheld.1.1, by rw [hupd _ hne, ← hn₀]; exact hheld.1.2.1,
          hn₀ ▸ hheld.1.2.2⟩, ?_⟩
        rcases hlocal g hg with hg' | hg'
        · exact hlocal' g ⟨w, hw, hg'⟩
        · unfold FrameOwned at hg' ⊢; rw [hupd g.n hne]; exact hg'
    · have hheld := hinv.held g ⟨w', hw', hg⟩
      exact ⟨⟨hheld.1.1, by rw [hupd _ (hold g ⟨w', hw', hg⟩)]; exact hheld.1.2.1, hheld.1.2.2⟩,
        hlocal' g ⟨w', hw', hg⟩⟩
  · intro k'
    rw [howners]; split_ifs with h
    · rw [h, hk0]
    · simpa using hinv.owners_le k'
  · intro k' hk' hev
    simp only [Sweep.setWorker_heap, hn, hfreed] at hk' hev ⊢
    have hne : k' ≠ k := fun h => by rw [h] at hev; omega
    rw [howners, if_neg hne, hupd k' hne]
    exact hinv.even k' hk' (by rwa [hupd k' hne] at hev)
  · intro k' hk' hodd
    simp only [Sweep.setWorker_heap, hn, hfreed, hmask] at hk' hodd ⊢
    rw [howners]
    by_cases hne : k' = k
    · subst hne; left; rw [hk0]; simp
    · rw [if_neg hne, Nat.add_zero]; exact hinv.odd k' hk' (by rwa [hupd k' hne] at hodd)
  · simp only [Sweep.setWorker_heap, hn, hfreed, hmask]; exact hinv.cover
  · simp only [Sweep.setWorker_heap, hfreed]; exact hinv.nodup
  · simp only [Sweep.setWorker_heap, hfreed]; exact hinv.freed_sub
  · exact ranges_setWorker hinv hn hrange

/-- The `free(p)` at the end of the innermost frame of thread `w`. -/
theorem free (hinv : Owned D s) {w : Nat} (hw : w < s.nWorkers) {h' : Heap} {wk' : Worker}
    {f : Frame} {rest : List Frame} (hf : (s.workers w).frames = f :: rest)
    (haddrs : h'.addrs = s.heap.addrs) (hn : h'.nAddrs = s.heap.nAddrs)
    (hfreed : h'.freed = s.heap.freed ++ [ptrMask (s.heap.addrs f.n)])
    (hframes : wk'.frames = rest) (hrange : RangeOwned s.heap.nAddrs wk') :
    Owned D (s.setWorker h' w wk') := by
  have hfheld := (hinv.held f ⟨w, hw, hf ▸ List.mem_cons_self f rest⟩).1
  have howners : ∀ k, (s.setWorker h' w wk').owners k + (if f.n = k then 1 else 0) =
      s.owners k := fun k => by
    have := Sweep.countFrames_update hw h' wk' fun f => f.n = k
    rw [hf, hframes, List.countP_cons] at this
    simp only [Sweep.owners]
    rcases eq_or_ne f.n k with hkk | hkk
    · simp only [hkk, decide_True, ite_true, if_pos] at this ⊢; omega
    · simp only [hkk, decide_False, Bool.false_eq_true, ite_false, if_neg,
        not_false_eq_true] at this ⊢; omega
  have hother : ∀ g, (s.setWorker h' w wk').HasFrame g → s.HasFrame g ∧ g.n ≠ f.n :=
    fun g hg => by
      have hg' : g ∈ rest ∨ ∃ w' < s.nWorkers, w' ≠ w ∧ g ∈ (s.workers w').frames := by
        rw [← hframes]; exact (Sweep.hasFrame_setWorker hw).mp hg
      refine ⟨?_, Sweep.ne_of_other hw hf (hinv.owners_le f.n) hg'⟩
      rcases hg' with hg' | ⟨w', hw', _, hg'⟩
      · exact ⟨w, hw, by rw [hf]; exact List.mem_cons_of_mem f hg'⟩
      · exact ⟨w', hw', hg'⟩
  refine ⟨?_, ?_, ?_, ?_, ?_, ?_, ?_, ?_, ?_, ?_, hinv.idle⟩
  · simp only [Sweep.setWorker_heap, haddrs, hn]; exact hinv.masks
  · simp only [Sweep.setWorker_heap, haddrs, hn]; exact hinv.ascending
  · intro g hg
    simp only [Sweep.setWorker_heap, SlotHeld, haddrs, hn, hfreed]
    obtain ⟨hg', hne⟩ := hother g hg
    have hheld := hinv.held g hg'
    refine ⟨⟨hheld.1.1, hheld.1.2.1, ?_⟩, hheld.2⟩
    simp only [List.mem_append, List.mem_singleton, not_or]
    exact ⟨hheld.1.2.2, hinv.mask_ne hheld.1.1 hfheld.1 hne⟩
  · intro k; have := howners k; have := hinv.owners_le k; omega
  · intro k hk hev
    simp only [Sweep.setWorker_heap, haddrs, hn, hfreed] at hk hev ⊢
    have hne : k ≠ f.n := fun h => by rw [h] at hev; have := hfheld.2.1; omega
    have := howners k
    obtain ⟨h0, hnot⟩ := hinv.even k hk hev
    refine ⟨by rw [if_neg (Ne.symm hne)] at this; omega, ?_⟩
    simp only [List.mem_append, List.mem_singleton, not_or]
    refine ⟨hnot, fun h => hinv.mask_ne hk hfheld.1 hne ?_⟩
    rw [ptrMask_of_even hev]; exact h
  · intro k hk hodd
    simp only [Sweep.setWorker_heap, haddrs, hn, hfreed] at hk hodd ⊢
    by_cases hkf : k = f.n
    · subst hkf; right; simp
    · have := howners k
      rcases hinv.odd k hk hodd with h1 | h1
      · left; rw [if_neg (Ne.symm hkf)] at this; omega
      · right; exact List.mem_append_left _ h1
  · intro j hj
    simp only [Sweep.setWorker_heap, haddrs, hn, hfreed]
    rcases hinv.cover j hj with h1 | h1
    · exact Or.inl (List.mem_append_left _ h1)
    · exact Or.inr h1
  · simp only [Sweep.setWorker_heap, hfreed]
    exact List.nodup_append.mpr ⟨hinv.nodup, List.nodup_singleton _,
      List.disjoint_singleton.mpr hfheld.2.2⟩
  · intro v hv
    simp only [Sweep.setWorker_heap, hfreed] at hv
    rcases List.mem_append.mp hv with hv | hv
    · exact hinv.freed_sub v hv
    · obtain ⟨j, hj, hjv⟩ := hinv.masks f.n hfheld.1
      exact ⟨j, hj, by rw [List.mem_singleton.mp hv, hjv]⟩
  · exact ranges_setWorker hinv hn hrange

/-! ## Every step of a thread -/

/-- A step of thread `w` that only rewrites the `pc` of its top frame. -/
theorem quietTop (hinv : Owned D s) {w : Nat} (hw : w < s.nWorkers) {f : Frame}
    {rest : List Frame} (hf : (s.workers w).frames = f :: rest) {r : Nat → Int} {m : Nat → Nat}
    {b : Bool} (pc : FramePc)
    (hown : FrameOwned s.heap.addrs s.heap.nAddrs { f with pc := pc }) :
    Owned D (s.setWorker { s.heap with refs := r, mem := m, assertFailed := b } w
      { s.workers w with frames := { f with pc := pc } :: rest }) :=
  hinv.quiet hw rfl rfl rfl (by rw [hf]; rfl)
    (fun g hg => by
      rcases List.mem_cons.mp hg with rfl | hg
      · exact Or.inr hown
      · exact Or.inl (by rw [hf]; exact List.mem_cons_of_mem f hg))
    (hinv.ranges w hw)

/-- A step of thread `w` outside any frame that writes at most `assertFailed`. -/
theorem quietRange (hinv : Owned D s) {w : Nat} (hw : w < s.nWorkers) {b : Bool}
    {wk' : Worker} (hframes : wk'.frames = (s.workers w).frames)
    (hrange : RangeOwned s.heap.nAddrs wk') :
    Owned D (s.setWorker { s.heap with assertFailed := b } w wk') :=
  hinv.quiet hw rfl rfl rfl (by rw [hframes]) (fun g hg => Or.inl (hframes ▸ hg)) hrange

theorem top_held (hinv : Owned D s) {w : Nat} (hw : w < s.nWorkers) {f : Frame}
    {rest : List Frame} (hf : (s.workers w).frames = f :: rest) :
    SlotHeld s.heap f.n ∧ FrameOwned s.heap.addrs s.heap.nAddrs f :=
  hinv.held f ⟨w, hw, hf ▸ List.mem_cons_self f rest⟩

/-- **Every step of a thread keeps the ownership invariant.** -/
theorem step (hinv : Owned D s) {w : Nat} (hw : w < s.nWorkers) {h' : Heap} {wk' : Worker}
    (hstep : WorkerStep s.heap (s.workers w) h' wk') : Owned D (s.setWorker h' w wk') := by
  have hr := hinv.ranges w hw
  cases hstep with
  | rangeRead hf hpc hi =>
    exact hinv.quietRange hw rfl ⟨hr.1, hr.2.1, fun _ => hi, fun _ h => by cases h⟩
  | rangeAssert hf hpc =>
    exact hinv.quietRange hw rfl
      ⟨hr.1, hr.2.1, fun _ => hr.lt (by rw [hpc]; simp), fun _ h => by cases h⟩
  | rangePass hf hpc hpass =>
    exact hinv.quietRange (b := s.heap.assertFailed) hw rfl
      ⟨hr.1, hr.2.1, fun _ => hr.lt (by rw [hpc]; simp), fun _ h => by cases h; exact hpass.1⟩
  | rangeFail hf hpc _ | rangeLose hf hpc _ =>
    exact hinv.quietRange (b := s.heap.assertFailed) hw rfl hr.next
  | @rangeClaim addr hf hpc heq =>
    have hi := hr.lt (by rw [hpc]; simp)
    have heven := hr.2.2.2 addr hpc
    subst heq
    refine hinv.claim hw (lt_of_lt_of_le hi hr.1) heven ?_ ?_ ?_ rfl ?_ ?_ hr.next
    exacts [rfl, rfl, rfl, by rw [hf], fun _ h => nomatch h]
  | frameEntry hf hpc =>
    refine hinv.quietTop (r := s.heap.refs) (m := s.heap.mem) hw hf _ ?_
    exact ⟨rfl, trivial⟩
  | frameRead hf hpc _ _ | frameSkip hf hpc _ _ | frameMiss hf hpc _ | frameLose hf hpc _
  | frameZero hf hpc | frameDec hf hpc | frameGo hf hpc _ | frameStop hf hpc _ =>
    have ho := (hinv.top_held hw hf).2
    simp only [FrameOwned, hpc] at ho
    refine hinv.quietTop hw hf _ ?_
    simp only [FrameOwned]
    first
    | exact ho
    | exact ⟨ho.1, trivial⟩
    | exact ⟨ho.1, ptrMask_mod_two _⟩
  | frameFound hf hpc hloc =>
    have hh := hinv.top_held hw hf
    have ho := hh.2
    simp only [FrameOwned, hpc] at ho
    refine hinv.quietTop (r := s.heap.refs) (m := s.heap.mem) (b := s.heap.assertFailed)
      hw hf _ ?_
    exact ⟨ho.1, ho.2, (searchLoc_some hloc (Nat.le_of_lt hh.1.1)).1⟩
  | frameFree hf hpc _ =>
    have ho := (hinv.top_held hw hf).2
    simp only [FrameOwned, hpc] at ho
    obtain ⟨rfl, -⟩ := ho
    refine hinv.free hw hf ?_ ?_ ?_ ?_ hr
    exacts [rfl, rfl, rfl, rfl]
  | @frameClaim f rest addr e deep loc i hf hpc heq =>
    have ho := (hinv.top_held hw hf).2
    simp only [FrameOwned, hpc] at ho
    subst heq
    refine hinv.claim hw ho.2.2 ho.2.1 ?_ ?_ ?_ rfl ?_ ?_ hr
    · rfl
    · rfl
    · rfl
    · rw [hf]; rfl
    · intro g hg
      rcases List.mem_cons.mp hg with rfl | hg
      · exact Or.inr ⟨ho.1, trivial⟩
      · exact Or.inl (by rw [hf]; exact List.mem_cons_of_mem f hg)

/-! ## The start of a pass and the join -/

/-- The ranges a pass hands its threads. -/
theorem rangeWorker_owned (n w : Nat) (hw : w < threadCount n) :
    RangeOwned n (rangeWorker n w) :=
  ⟨(rangeOf_le n w hw).2, le_rfl, fun h => absurd rfl h, fun _ h => by cases h⟩

/-- After the join, any state whose array is the compacted one and whose threads hold no
frames satisfies the invariant. -/
theorem of_compact (hinv : Owned D s) (hdone : ∀ w < s.nWorkers, (s.workers w).Finished)
    {t : Sweep} (haddrs : t.heap.addrs = (compact s.heap).1.addrs)
    (hn : t.heap.nAddrs = (compact s.heap).1.nAddrs) (hfreed : t.heap.freed = s.heap.freed)
    (hnf : t.NoFrames) (hranges : ∀ w < t.nWorkers, RangeOwned t.heap.nAddrs (t.workers w))
    (hidle : t.running = false → t.nWorkers = 0) : Owned D t := by
  have hs := compact_spec s.heap
  have hget : ∀ k < t.heap.nAddrs, ∃ hk : k < (survivors s.heap).length,
      t.heap.addrs k = s.heap.addrs (survivors s.heap)[k] := fun k hk => by
    rw [haddrs]; rw [hn] at hk; exact eq_getElem_of_map_range hs.addrs_eq hk
  have hidle₀ : ∀ k, s.owners k = 0 :=
    fun k => Sweep.countFrames_eq_zero (Sweep.noFrames_of_done hdone) _
  refine ⟨?_, ?_, fun f hf => absurd hf (Sweep.not_hasFrame hnf f), fun k => ?_, ?_, ?_, ?_,
    hfreed ▸ hinv.nodup, hfreed ▸ hinv.freed_sub, hranges, hidle⟩
  · intro k hk
    obtain ⟨hk', he⟩ := hget k hk
    rw [he]; exact hinv.masks _ (survivors_get_mem _ hk').1
  · intro k k' hkk hk'
    obtain ⟨hk₁, he₁⟩ := hget k (by omega)
    obtain ⟨hk₂, he₂⟩ := hget k' hk'
    rw [he₁, he₂]
    exact hinv.ascending _ _ (survivors_lt _ hk₁ hk₂ hkk) (survivors_get_mem _ hk₂).1
  · simp only [Sweep.owners, Sweep.countFrames_eq_zero hnf]; omega
  · intro k hk _
    obtain ⟨hk', he⟩ := hget k hk
    have hj := survivors_get_mem _ hk'
    refine ⟨Sweep.countFrames_eq_zero hnf _, ?_⟩
    rw [he, hfreed]; exact (hinv.even _ hj.1 hj.2).2
  · intro k hk hodd
    obtain ⟨hk', he⟩ := hget k hk
    have := (survivors_get_mem _ hk').2
    rw [he] at hodd; omega
  · intro j hj
    rw [hfreed]
    rcases hinv.cover j hj with hfr | ⟨k, hk, hm⟩
    · exact Or.inl hfr
    · rcases Nat.mod_two_eq_zero_or_one (s.heap.addrs k) with hev | hodd
      · obtain ⟨a, ha, hak⟩ := List.mem_iff_getElem.mp (mem_survivors.mpr ⟨hk, hev⟩)
        have han : a < t.heap.nAddrs := by rw [hn, hs.nAddrs_eq]; exact ha
        obtain ⟨_, he⟩ := hget a han
        exact Or.inr ⟨a, han, by rw [he, hak, hm]⟩
      · rcases hinv.odd k hk hodd with h1 | h1
        · rw [hidle₀] at h1; exact absurd h1 (by decide)
        · exact Or.inl (hm ▸ h1)

/-- **The join keeps the ownership invariant.** -/
theorem afterJoin (hinv : Owned D s) (hdone : ∀ w < s.nWorkers, (s.workers w).Finished) :
    Owned D s.afterJoin := by
  have hfreed := (compact_spec s.heap).others.2.1
  simp only [Sweep.afterJoin]
  split_ifs
  · exact hinv.of_compact hdone rfl rfl hfreed (fun _ _ => rfl)
      (fun w hw => rangeWorker_owned _ w hw) (fun h => nomatch h)
  · exact hinv.of_compact hdone rfl rfl hfreed (fun _ h => absurd h (Nat.not_lt_zero _))
      (fun _ h => absurd h (Nat.not_lt_zero _)) (fun _ => rfl)

/-- **The first pass starts in the invariant.** -/
theorem init (hasc : D.Ascending) : Owned D (Sweep.init D) := by
  have hnf : (Sweep.init D).NoFrames := fun _ _ => rfl
  refine ⟨fun k hk => ⟨k, hk, ptrMask_of_even (hasc.aligned k hk)⟩, fun k k' hkk hk' => ?_,
    fun f hf => absurd hf (Sweep.not_hasFrame hnf f), fun k => ?_,
    fun k _ _ => ⟨Sweep.countFrames_eq_zero hnf _, List.not_mem_nil _⟩, fun k hk hodd => ?_,
    fun j hj => Or.inr ⟨j, hj, ptrMask_of_even (hasc.aligned j hj)⟩, List.nodup_nil,
    fun v hv => absurd hv (List.not_mem_nil v), fun w hw => rangeWorker_owned _ w hw,
    fun h => nomatch h⟩
  · change k' < D.n at hk'
    show ptrMask (D.addrs k) < ptrMask (D.addrs k')
    rw [ptrMask_of_even (hasc.aligned k (by omega)), ptrMask_of_even (hasc.aligned k' hk')]
    exact hasc.lt k' hk' k hkk
  · simp only [Sweep.owners, Sweep.countFrames_eq_zero hnf]; omega
  · have := hasc.aligned k hk
    exact absurd hodd (by simp only [Sweep.init, startPass, Dataset.toHeap] at this ⊢; omega)

/-- **Every reachable state of the sweep satisfies the ownership invariant.** -/
theorem reachable (hasc : D.Ascending) (hr : Sweep.Reachable D s) : Owned D s := by
  induction hr with
  | refl => exact init hasc
  | tail _ hstep ih =>
    cases hstep with
    | worker w hw _ hbusy =>
      rw [Sweep.runWorker_eq]; exact ih.step hw (stepWorker_spec _ _ hbusy)
    | join _ hdone => exact ih.afterJoin hdone

end Owned

end ForkScan
