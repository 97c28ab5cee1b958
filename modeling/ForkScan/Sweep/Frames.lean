import ForkScan.Sweep.Compact

/-!
# ForkScan — the frames of a pass and the ranges of its threads

Two kinds of bookkeeping every invariant of the sweep needs:

* the frames on all threads' stacks: membership (`Sweep.HasFrame`), counts of frames with
  a property (`Sweep.countFrames`), and how both change when one thread steps
  (`countFrames_update`, `hasFrame_update`);
* the ranges `find_unreferenced_nodes` hands its threads: each lies inside `[0, n_addrs)`
  and together they cover it (`rangeOf_le`, `rangeOf_cover`).
-/

namespace ForkScan

/-! ## Frames on the threads' stacks -/

/-- Frame `f` is on the stack of a thread of the pass. -/
def Sweep.HasFrame (s : Sweep) (f : Frame) : Prop :=
  ∃ w < s.nWorkers, f ∈ (s.workers w).frames

/-- The number of frames of the pass satisfying `p`. -/
def Sweep.countFrames (s : Sweep) (p : Frame → Bool) : Nat :=
  ∑ w ∈ Finset.range s.nWorkers, (s.workers w).frames.countP p

/-- The number of frames running `unref_addr(k, _)`. -/
def Sweep.owners (s : Sweep) (k : Nat) : Nat :=
  s.countFrames fun f => f.n = k

/-- The state after thread `w` has become `wk` and the shared state `h`. -/
def Sweep.setWorker (s : Sweep) (h : Heap) (w : Nat) (wk : Worker) : Sweep :=
  { s with heap := h, workers := Function.update s.workers w wk }

@[simp] theorem Sweep.setWorker_heap (s : Sweep) (h : Heap) (w : Nat) (wk : Worker) :
    (s.setWorker h w wk).heap = h := rfl

@[simp] theorem Sweep.setWorker_nWorkers (s : Sweep) (h : Heap) (w : Nat) (wk : Worker) :
    (s.setWorker h w wk).nWorkers = s.nWorkers := rfl

@[simp] theorem Sweep.setWorker_running (s : Sweep) (h : Heap) (w : Nat) (wk : Worker) :
    (s.setWorker h w wk).running = s.running := rfl

theorem Sweep.setWorker_workers (s : Sweep) (h : Heap) (w : Nat) (wk : Worker) (w' : Nat) :
    (s.setWorker h w wk).workers w' = if w' = w then wk else s.workers w' := by
  simp only [setWorker, Function.update_apply]

theorem Sweep.runWorker_eq (s : Sweep) (w : Nat) :
    s.runWorker w = s.setWorker (stepWorker s.heap (s.workers w)).1 w
      (stepWorker s.heap (s.workers w)).2 := rfl

/-- Replacing one thread changes a count by that thread's share only. -/
theorem Sweep.countFrames_update {s : Sweep} {w : Nat} (hw : w < s.nWorkers) (h : Heap)
    (wk : Worker) (p : Frame → Bool) :
    (s.setWorker h w wk).countFrames p + (s.workers w).frames.countP p =
      s.countFrames p + wk.frames.countP p := by
  have hmem : w ∈ Finset.range s.nWorkers := Finset.mem_range.mpr hw
  simp only [countFrames, setWorker_nWorkers]
  rw [← Finset.add_sum_erase _ _ hmem, ← Finset.add_sum_erase _ _ hmem,
    Finset.sum_congr rfl fun x hx => by
      rw [setWorker_workers, if_neg (Finset.ne_of_mem_erase hx)]]
  rw [setWorker_workers, if_pos rfl]
  omega

theorem Sweep.hasFrame_setWorker {s : Sweep} {w : Nat} (hw : w < s.nWorkers) {h : Heap}
    {wk : Worker} {g : Frame} :
    (s.setWorker h w wk).HasFrame g ↔
      g ∈ wk.frames ∨ ∃ w' < s.nWorkers, w' ≠ w ∧ g ∈ (s.workers w').frames := by
  constructor
  · rintro ⟨w', hw', hg⟩
    rw [setWorker_workers] at hg
    split_ifs at hg with he
    · exact Or.inl hg
    · exact Or.inr ⟨w', hw', he, hg⟩
  · rintro (hg | ⟨w', hw', hne, hg⟩)
    · exact ⟨w, hw, by rw [setWorker_workers, if_pos rfl]; exact hg⟩
    · exact ⟨w', hw', by rw [setWorker_workers, if_neg hne]; exact hg⟩

/-- A frame below the top of thread `w`, or on another thread, is a frame of another slot
than the top one when every slot has at most one frame. -/
theorem Sweep.ne_of_other {s : Sweep} {w : Nat} (hw : w < s.nWorkers) {f : Frame}
    {rest : List Frame} (hf : (s.workers w).frames = f :: rest) (hle : s.owners f.n ≤ 1)
    {g : Frame} (hg : g ∈ rest ∨ ∃ w' < s.nWorkers, w' ≠ w ∧ g ∈ (s.workers w').frames) :
    g.n ≠ f.n := by
  intro heq
  have hmem : w ∈ Finset.range s.nWorkers := Finset.mem_range.mpr hw
  have hsplit := Finset.add_sum_erase (Finset.range s.nWorkers)
    (fun x => (s.workers x).frames.countP fun f' => decide (f'.n = f.n)) hmem
  simp only [owners, countFrames, ← hsplit] at hle
  rw [hf] at hle
  simp only [List.countP_cons, decide_True, ite_true] at hle
  rcases hg with hg | ⟨w', hw', hne, hg⟩
  · have : 0 < rest.countP fun f' => decide (f'.n = f.n) :=
      List.countP_pos_iff.mpr ⟨g, hg, by simp [heq]⟩
    omega
  · have : 0 < (s.workers w').frames.countP fun f' => decide (f'.n = f.n) :=
      List.countP_pos_iff.mpr ⟨g, hg, by simp [heq]⟩
    have : (s.workers w').frames.countP (fun f' => decide (f'.n = f.n)) ≤
        ∑ x ∈ (Finset.range s.nWorkers).erase w,
          (s.workers x).frames.countP fun f' => decide (f'.n = f.n) :=
      Finset.single_le_sum (f := fun x => (s.workers x).frames.countP fun f' => decide (f'.n = f.n))
        (fun _ _ => Nat.zero_le _) (Finset.mem_erase.mpr ⟨hne, Finset.mem_range.mpr hw'⟩)
    omega

/-- After a step of thread `w` that replaced its top frame `f` by `fs`, a frame is one of `fs`
or a frame of another slot that was there before. -/
theorem Sweep.hasFrame_top {s : Sweep} {w : Nat} (hw : w < s.nWorkers) {f : Frame}
    {rest : List Frame} (hf : (s.workers w).frames = f :: rest) (hle : s.owners f.n ≤ 1)
    {h : Heap} {wk : Worker} {fs : List Frame} (hwk : wk.frames = fs ++ rest) {g : Frame}
    (hg : (s.setWorker h w wk).HasFrame g) : g ∈ fs ∨ (s.HasFrame g ∧ g.n ≠ f.n) := by
  rcases (hasFrame_setWorker hw).mp hg with hg | hg
  · rw [hwk, List.mem_append] at hg
    rcases hg with hg | hg
    · exact Or.inl hg
    · exact Or.inr ⟨⟨w, hw, by rw [hf]; exact List.mem_cons_of_mem f hg⟩,
        ne_of_other hw hf hle (Or.inl hg)⟩
  · obtain ⟨w', hw', _, hg'⟩ := id hg
    exact Or.inr ⟨⟨w', hw', hg'⟩, ne_of_other hw hf hle (Or.inr hg)⟩

/-- After a step of thread `w`, a frame is one of its new frames or was there before. -/
theorem Sweep.hasFrame_range {s : Sweep} {w : Nat} (hw : w < s.nWorkers) {h : Heap}
    {wk : Worker} {g : Frame}
    (hg : (s.setWorker h w wk).HasFrame g) : g ∈ wk.frames ∨ s.HasFrame g := by
  rcases (hasFrame_setWorker hw).mp hg with hg | ⟨w', hw', _, hg'⟩
  · exact Or.inl hg
  · exact Or.inr ⟨w', hw', hg'⟩

/-- Between passes, and when a pass starts, no thread has a frame. -/
def Sweep.NoFrames (s : Sweep) : Prop := ∀ w < s.nWorkers, (s.workers w).frames = []

theorem Sweep.countFrames_eq_zero {s : Sweep} (h : s.NoFrames) (p : Frame → Bool) :
    s.countFrames p = 0 :=
  Finset.sum_eq_zero fun w hw => by rw [h w (Finset.mem_range.mp hw)]; rfl

theorem Sweep.not_hasFrame {s : Sweep} (h : s.NoFrames) (f : Frame) : ¬ s.HasFrame f :=
  fun ⟨w, hw, hf⟩ => by rw [h w hw] at hf; exact List.not_mem_nil f hf

theorem Sweep.noFrames_of_done {s : Sweep} (h : ∀ w < s.nWorkers, (s.workers w).Finished) :
    s.NoFrames := fun w hw => (h w hw).1

/-! ## The state after the join -/

/-- After the join, the arrays read the old ones at the survivors of the compaction. -/
theorem Sweep.afterJoin_slot (s : Sweep) {k : Nat} (hk : k < s.afterJoin.heap.nAddrs) :
    ∃ hk' : k < (survivors s.heap).length,
      s.afterJoin.heap.addrs k = s.heap.addrs (survivors s.heap)[k] ∧
      s.afterJoin.heap.refs k = s.heap.refs (survivors s.heap)[k] ∧
      s.afterJoin.heap.allocSz k = s.heap.allocSz (survivors s.heap)[k] := by
  have hs := compact_spec s.heap
  have hsame : s.afterJoin.heap.addrs = (compact s.heap).1.addrs ∧
      s.afterJoin.heap.refs = (compact s.heap).1.refs ∧
      s.afterJoin.heap.allocSz = (compact s.heap).1.allocSz ∧
      s.afterJoin.heap.nAddrs = (compact s.heap).1.nAddrs := by
    simp only [afterJoin]; split_ifs <;> exact ⟨rfl, rfl, rfl, rfl⟩
  rw [hsame.2.2.2] at hk
  obtain ⟨hk', ha⟩ := eq_getElem_of_map_range hs.addrs_eq hk
  obtain ⟨_, hr⟩ := eq_getElem_of_map_range hs.refs_eq hk
  obtain ⟨_, hz⟩ := eq_getElem_of_map_range hs.allocSz_eq hk
  exact ⟨hk', by rw [hsame.1, ha], by rw [hsame.2.1, hr], by rw [hsame.2.2.1, hz]⟩

/-- The join writes neither memory nor the freed blocks. -/
theorem Sweep.afterJoin_mem (s : Sweep) :
    s.afterJoin.heap.mem = s.heap.mem ∧ s.afterJoin.heap.freed = s.heap.freed := by
  have hs := (compact_spec s.heap).others
  simp only [afterJoin]; split_ifs <;> exact ⟨hs.1, hs.2.1⟩

/-- A pass starts with no frames. -/
theorem Sweep.afterJoin_noFrames (s : Sweep) : s.afterJoin.NoFrames := by
  simp only [afterJoin]; split_ifs
  · exact fun _ _ => rfl
  · exact fun _ h => absurd h (Nat.not_lt_zero _)

/-! ## The ranges of a pass -/

theorem threadCount_pos (n : Nat) : 0 < threadCount n := by
  unfold threadCount; split_ifs <;> simp [MAX_THREADS]

theorem threadCount_le (n : Nat) (hn : 0 < n) : threadCount n ≤ n := by
  unfold threadCount ADDRS_PER_THREAD MAX_THREADS
  split_ifs <;> omega

/-- Every range lies inside `[0, n_addrs)` and starts at or before it ends. -/
theorem rangeOf_le (n w : Nat) (hw : w < threadCount n) :
    (rangeOf n w).1 ≤ (rangeOf n w).2 ∧ (rangeOf n w).2 ≤ n := by
  have hmul : threadCount n * addrsPerThread n ≤ n := Nat.mul_div_le n (threadCount n)
  have hle : (w + 1) * addrsPerThread n ≤ threadCount n * addrsPerThread n :=
    Nat.mul_le_mul_right _ hw
  have hle' : w * addrsPerThread n ≤ (w + 1) * addrsPerThread n :=
    Nat.mul_le_mul_right _ (Nat.le_succ w)
  unfold rangeOf
  split_ifs <;> simp only <;> omega

/-- The ranges cover `[0, n_addrs)`. -/
theorem rangeOf_cover (n k : Nat) (hk : k < n) :
    ∃ w < threadCount n, (rangeOf n w).1 ≤ k ∧ k < (rangeOf n w).2 := by
  have htc := threadCount_pos n
  have hapt : 0 < addrsPerThread n := Nat.div_pos (threadCount_le n (by omega)) htc
  by_cases hw : k / addrsPerThread n < threadCount n - 1
  · refine ⟨k / addrsPerThread n, by omega, ?_, ?_⟩
    · exact Nat.div_mul_le_self k _
    · simp only [rangeOf, if_neg (Nat.ne_of_lt hw)]
      rw [Nat.add_mul, Nat.one_mul]
      exact Nat.lt_div_mul_add hapt
  · refine ⟨threadCount n - 1, by omega, ?_, ?_⟩
    · calc (threadCount n - 1) * addrsPerThread n ≤ k / addrsPerThread n * addrsPerThread n :=
            Nat.mul_le_mul_right _ (by omega)
        _ ≤ k := Nat.div_mul_le_self k _
    · simp only [rangeOf, if_pos rfl]; exact hk

end ForkScan
