import ForkScan.Sweep.Accounting

/-!
# ForkScan — what the claims of a pass establish

The last invariant of the sweep, `PassInv`, carries what the threads' range scans and claims
establish:

* every claim is sound: an entry is claimed only after its count was read as zero, and then
  its count is used up by references from blocks already claimed, so every claimed candidate
  lies in every closed set (`claim_mem_closed`, field `least`);
* a claimed entry keeps a zero count, and no assertion of `address_range` or `unref_addr`
  fails;
* a thread scanning its range leaves behind indices whose entry is claimed or whose count is
  positive, unless some entry of the pass is claimed. A pass that claims nothing therefore ends
  with every count positive, and this is the state the loop stops in (field `exit`).
-/

namespace ForkScan

open Finset

/-! ## Sound claims -/

/-- Some entry of the array has its collected bit set. -/
def Heap.AnyClaimed (h : Heap) : Prop := ∃ k < h.nAddrs, h.addrs k % 2 = 1

theorem Dataset.refsIn_le (D : Dataset) (G : Finset Nat) (j : Nat) :
    D.refsIn G j ≤ D.refsIn (range D.n) j :=
  sum_le_sum_of_subset (erase_subset_erase j fun x hx => by
    simp only [mem_filter] at hx ⊢; exact ⟨hx.1, hx.1⟩)

/-- The block of a candidate nobody has claimed still points where it did. -/
theorem MemInv.wordsTo_eq {D : Dataset} {s : Sweep} (hmi : MemInv D s) {b : Nat} (hb : b < D.n)
    (hnc : ¬ s.Claimed D b) (j : Nat) : D.wordsTo s.heap.mem b j = D.refsFrom b j := by
  unfold Dataset.wordsTo Dataset.refsFrom
  congr 1
  exact filter_congr fun m hm => by rw [hmi.untouched b hb hnc m (mem_range.mp hm)]

/-- **A claim is sound**: if every claimed candidate lies in the closed set `G`, so does a
candidate whose count is at most zero. Its count is the initial one less the references
zeroed in claimed blocks, so the references from `G` use it up. -/
theorem claim_mem_closed {D : Dataset} {s : Sweep} (hD : SweepReady D) (hmi : MemInv D s)
    (hacct : Acct D s) {G : Finset Nat} (hG : D.Closed G)
    (hleast : ∀ j < D.n, s.Claimed D j → j ∈ G) {k : Nat} (hk : k < s.heap.nAddrs)
    (hrefs : s.heap.refs k ≤ 0) {j : Nat} (hj : j < D.n)
    (hjk : D.addrs j = ptrMask (s.heap.addrs k)) : j ∈ G := by
  have hle := processed_le_refsIn_of D s.heap.mem j G fun b hb hbG =>
    hmi.wordsTo_eq hb (fun hc => hbG (hleast b hb hc)) j
  have hG' := D.refsIn_le G j
  have hcount := hD.counted j hj
  have hacc := hacct k hk j hj hjk
  have howes := Acct.owes_le_refs hD hacct hk hj hjk
  exact hG j hj (by omega)

/-! ## What a thread has seen of its range -/

/-- What a thread in `address_range` has seen: the entry it works on keeps the mask it read
(and its bit, if it was set), a `BCAS` is tried only after a zero count was read, and every
index it has passed is claimed or has a positive count, unless the pass has claimed something. -/
def RangeSeen (h : Heap) (w : Worker) : Prop :=
  (match w.pc with
    | .read => True
    | .assertRefs addr | .test addr =>
      ptrMask (h.addrs w.i) = ptrMask addr ∧ addr % 2 ≤ h.addrs w.i % 2
    | .cas addr =>
      ptrMask (h.addrs w.i) = ptrMask addr ∧ addr % 2 ≤ h.addrs w.i % 2 ∧ h.refs w.i ≤ 0) ∧
  ∀ k, w.rangeBegin ≤ k → k < w.i → h.addrs k % 2 = 1 ∨ 0 < h.refs k ∨ h.AnyClaimed

/-- What a thread has seen survives a step that keeps masks, only sets bits, and lowers a count
only once something is claimed. -/
theorem RangeSeen.stable {h h' : Heap} {wk : Worker} (hr : RangeSeen h wk)
    (hn : h'.nAddrs = h.nAddrs) (hmask : ∀ k, ptrMask (h'.addrs k) = ptrMask (h.addrs k))
    (hpar : ∀ k, h.addrs k % 2 ≤ h'.addrs k % 2) (hrefs : ∀ k, h'.refs k ≤ h.refs k)
    (hdrop : ∀ k, h'.refs k < h.refs k → h'.AnyClaimed) : RangeSeen h' wk := by
  obtain ⟨hat, hvis⟩ := hr
  refine ⟨?_, fun k hb hi => ?_⟩
  · rcases hpc : wk.pc with _ | addr | addr | addr <;> simp only [hpc] at hat ⊢
    · exact ⟨by rw [hmask]; exact hat.1, le_trans hat.2 (hpar _)⟩
    · exact ⟨by rw [hmask]; exact hat.1, le_trans hat.2 (hpar _)⟩
    · exact ⟨by rw [hmask]; exact hat.1, le_trans hat.2.1 (hpar _), le_trans (hrefs _) hat.2.2⟩
  · rcases hvis k hb hi with h1 | h1 | ⟨k', hk', h1⟩
    · left; have := hpar k; omega
    · by_cases hlt : h'.refs k < h.refs k
      · exact Or.inr (Or.inr (hdrop k hlt))
      · right; left; omega
    · exact Or.inr (Or.inr ⟨k', hn ▸ hk', by have := hpar k'; omega⟩)

/-- A thread that is done with index `i` has seen it. -/
theorem RangeSeen.next {h : Heap} {wk : Worker} (hr : RangeSeen h wk)
    (hi : h.addrs wk.i % 2 = 1 ∨ 0 < h.refs wk.i ∨ h.AnyClaimed) :
    RangeSeen h { wk with i := wk.i + 1, pc := .read } := by
  refine ⟨trivial, fun k hb hk => ?_⟩
  rcases Nat.lt_succ_iff_lt_or_eq.mp hk with hk | rfl
  · exact hr.2 k hb hk
  · exact hi

/-! ## The invariant -/

/-- What the passes of the sweep started from `D` establish. -/
structure PassInv (D : Dataset) (s : Sweep) : Prop where
  ranges : ∀ w < s.nWorkers, RangeSeen s.heap (s.workers w)
  pass : s.running = true → s.nWorkers = threadCount s.heap.nAddrs ∧ ∀ w < s.nWorkers,
    (s.workers w).rangeBegin = (rangeOf s.heap.nAddrs w).1 ∧
      (s.workers w).rangeEnd = (rangeOf s.heap.nAddrs w).2
  exit : s.running = false → ∀ k < s.heap.nAddrs, s.heap.addrs k % 2 = 0 ∧ 0 < s.heap.refs k
  odd_zero : ∀ k < s.heap.nAddrs, s.heap.addrs k % 2 = 1 → s.heap.refs k = 0
  no_fail : s.heap.assertFailed = false
  least : ∀ G, D.Closed G → ∀ j < D.n, s.Claimed D j → j ∈ G

namespace PassInv

variable {D : Dataset} {s : Sweep} (hD : SweepReady D) (hown : Owned D s) (hmi : MemInv D s)
  (hacct : Acct D s) (hpi : PassInv D s)
include hD hown hmi hacct hpi

omit hD hmi hacct hpi in
/-- A step lowers a count only under a frame, whose slot is claimed; so whatever a thread has
seen of its range stays true. -/
theorem rangeSeen_step {w : Nat} (hw : w < s.nWorkers) {h' : Heap} {wk' : Worker}
    (hstep : WorkerStep s.heap (s.workers w) h' wk') {wk : Worker} (hr : RangeSeen s.heap wk) :
    RangeSeen h' wk :=
  hr.stable hstep.nAddrs_eq hstep.mask_eq hstep.parity_le hstep.refs_le fun k hk => by
    obtain ⟨f, rest, hf⟩ := hstep.frame_of_refs_lt hk
    obtain ⟨⟨hfn, hodd, -⟩, -⟩ := hown.top_held hw hf
    exact ⟨f.n, by rw [hstep.nAddrs_eq]; exact hfn, by have := hstep.parity_le f.n; omega⟩

omit hD hown hacct in
/-- An entry a step claims had its count read as zero: by the range thread at its test, or by a
frame after its decrement. -/
theorem refs_le_of_claimed {w : Nat} (hw : w < s.nWorkers) {h' : Heap} {wk' : Worker}
    (hstep : WorkerStep s.heap (s.workers w) h' wk') {k : Nat} (hev : s.heap.addrs k % 2 = 0)
    (hodd : h'.addrs k % 2 = 1) : s.heap.refs k ≤ 0 := by
  rcases hstep.newly_odd hev hodd with ⟨-, addr, hpc, rfl⟩ | ⟨f, rest, addr, e, deep, i, hf, hpc⟩
  · have := (hpi.ranges w hw).1; simp only [hpc] at this; exact this.2.2
  · have := hmi.top_counted hw hf; unfold FrameCounted at this; rw [hpc] at this
    exact this.2.2.2.1

omit hmi in
/-- The thread that steps keeps what it has seen, and has seen its index once it is done with
it: the entry is claimed, its count is positive, or something is claimed. -/
theorem rangeSeen_self {w : Nat} (hw : w < s.nWorkers) {h' : Heap} {wk' : Worker}
    (hstep : WorkerStep s.heap (s.workers w) h' wk') : RangeSeen h' wk' := by
  have hr' := rangeSeen_step hown hw hstep (hpi.ranges w hw)
  have hs := hstep
  cases hs with
  | rangeRead hf hpc hi => exact ⟨⟨rfl, le_rfl⟩, hr'.2⟩
  | rangeAssert hf hpc =>
    have := hr'.1; simp only [hpc] at this; exact ⟨this, hr'.2⟩
  | rangePass hf hpc hpass =>
    have := hr'.1; simp only [hpc] at this; exact ⟨⟨this.1, this.2, le_of_eq hpass.2⟩, hr'.2⟩
  | @rangeFail addr hf hpc hfail =>
    have hat := hr'.1; simp only [hpc] at hat
    refine hr'.next ?_
    by_cases hodd : addr % 2 = 0
    · right; left
      have hne : s.heap.refs (s.workers w).i ≠ 0 := fun h0 => hfail ⟨hodd, h0⟩
      have := hacct.refs_nonneg hD hown (lt_of_lt_of_le ((hown.ranges w hw).lt (by rw [hpc]; simp))
        (hown.ranges w hw).1)
      omega
    · left; omega
  | rangeLose hf hpc hne =>
    have hat := hr'.1; simp only [hpc] at hat
    refine hr'.next (Or.inl ?_)
    simp only [ptrMask] at hat
    omega
  | rangeClaim hf hpc heq => exact hr'.next (Or.inl (by simp))
  | _ => exact hr'

omit hmi in
/-- No step fails an assertion: a range thread reads a nonzero address and a non-negative count,
and a frame's slot is claimed and its count non-negative. -/
theorem noFail_step {w : Nat} (hw : w < s.nWorkers) {h' : Heap} {wk' : Worker}
    (hstep : WorkerStep s.heap (s.workers w) h' wk') : h'.assertFailed = false := by
  have hnonneg₀ : ∀ k < s.heap.nAddrs, 0 ≤ s.heap.refs k := fun k hk => hacct.refs_nonneg hD hown hk
  have hs := hstep
  cases hs with
  | rangeRead hf hpc hi =>
    have hk := lt_of_lt_of_le hi (hown.ranges w hw).1
    have := MemInv.slot_mask_pos hD hown hk
    simp only [hpi.no_fail, Bool.false_or, decide_eq_false_iff_not]
    intro h0; rw [h0, ptrMask_zero] at this; omega
  | rangeAssert hf hpc =>
    have hk := lt_of_lt_of_le ((hown.ranges w hw).lt (by rw [hpc]; simp)) (hown.ranges w hw).1
    simp only [hpi.no_fail, Bool.false_or, decide_eq_false_iff_not, not_lt]
    exact hnonneg₀ _ hk
  | frameEntry hf hpc =>
    have := (hown.top_held hw hf).1.2.1
    simp only [hpi.no_fail, Bool.false_or, decide_eq_false_iff_not]; omega
  | frameGo hf hpc _ | frameStop hf hpc _ =>
    have ho := (hown.top_held hw hf).2
    unfold FrameOwned at ho; rw [hpc] at ho
    simp only [hpi.no_fail, Bool.false_or, decide_eq_false_iff_not, not_lt]
    exact hnonneg₀ _ ho.2.2
  | _ => exact hpi.no_fail

/-- What a step claims lies in every closed set: a block freed now had its slot claimed, and a
newly claimed entry had no count left, so all its references come from claimed blocks. -/
theorem least_step {w : Nat} (hw : w < s.nWorkers) {h' : Heap} {wk' : Worker}
    (hstep : WorkerStep s.heap (s.workers w) h' wk') :
    ∀ G, D.Closed G → ∀ j < D.n, (s.setWorker h' w wk').Claimed D j → j ∈ G := by
  have hn := hstep.nAddrs_eq
  intro G hG j hj hc
  rcases hc with hfr | ⟨k, hk, hm, hodd⟩
  · simp only [Sweep.setWorker_heap] at hfr
    rcases hstep.freed_cases with heq | ⟨f, rest, addr, e, i, hf, hpc, -, heq⟩
    · exact hpi.least G hG j hj (Or.inl (heq ▸ hfr))
    · rw [heq, List.mem_append, List.mem_singleton] at hfr
      rcases hfr with hfr | hfr
      · exact hpi.least G hG j hj (Or.inl hfr)
      · -- the block freed now is the one of a slot held by the frame
        obtain ⟨⟨hfn, hodd, -⟩, ho⟩ := hown.top_held hw hf
        unfold FrameOwned at ho; rw [hpc] at ho
        exact hpi.least G hG j hj (Or.inr ⟨f.n, hfn, by rw [hfr, ho.1], hodd⟩)
  · simp only [Sweep.setWorker_heap, hn, hstep.mask_eq] at hk hm hodd
    by_cases hold : s.heap.addrs k % 2 = 1
    · exact hpi.least G hG j hj (Or.inr ⟨k, hk, hm, hold⟩)
    · exact claim_mem_closed hD hmi hacct hG (hpi.least G hG) hk
        (refs_le_of_claimed hmi hpi hw hstep (by omega) hodd) hj hm.symm

/-- **Every step of a thread keeps the invariant.** -/
theorem step (hrun : s.running = true) {w : Nat} (hw : w < s.nWorkers) {h' : Heap}
    {wk' : Worker} (hstep : WorkerStep s.heap (s.workers w) h' wk') :
    PassInv D (s.setWorker h' w wk') := by
  have hn := hstep.nAddrs_eq
  refine ⟨fun w' hw' => ?_, fun hr => ?_, fun hr => ?_, fun k hk hodd => ?_,
    noFail_step hD hown hacct hpi hw hstep, least_step hD hown hmi hacct hpi hw hstep⟩
  · simp only [Sweep.setWorker_nWorkers] at hw'
    rw [Sweep.setWorker_workers, Sweep.setWorker_heap]
    split_ifs with hww
    · exact rangeSeen_self hD hown hacct hpi hw hstep
    · exact rangeSeen_step hown hw hstep (hpi.ranges w' hw')
  · simp only [Sweep.setWorker_running] at hr
    obtain ⟨hnw, hrg⟩ := hpi.pass hr
    refine ⟨by simp only [Sweep.setWorker_nWorkers, Sweep.setWorker_heap, hn, hnw],
      fun w' hw' => ?_⟩
    simp only [Sweep.setWorker_nWorkers] at hw'
    rw [Sweep.setWorker_workers, Sweep.setWorker_heap, hn]
    split_ifs with hww
    · subst hww; rw [hstep.range_eq.1, hstep.range_eq.2]; exact hrg _ hw
    · exact hrg w' hw'
  · simp only [Sweep.setWorker_running, hrun] at hr; cases hr
  · -- a claimed entry keeps a zero count: it was zero already, or read as zero when claimed
    simp only [Sweep.setWorker_heap, hn] at hk hodd ⊢
    have hle : s.heap.refs k ≤ 0 := by
      by_cases hold : s.heap.addrs k % 2 = 1
      · exact le_of_eq (hpi.odd_zero k hk hold)
      · exact refs_le_of_claimed hmi hpi hw hstep (by omega) hodd
    have hnonneg := (hacct.step hD hown hmi hw hstep).refs_nonneg hD (hown.step hw hstep)
      (k := k) (by simp only [Sweep.setWorker_heap, hn]; exact hk)
    exact le_antisymm (le_trans (hstep.refs_le k) hle) hnonneg

omit hD hown hmi hacct in
/-- **The join keeps the invariant.** A pass that claimed nothing left every count positive:
each index lies in the range of a thread that has passed it. -/
theorem afterJoin (hrun : s.running = true) (hdone : ∀ w < s.nWorkers, (s.workers w).Finished) :
    PassInv D s.afterJoin := by
  have hs := compact_spec s.heap
  have heven : ∀ k < s.afterJoin.heap.nAddrs, s.afterJoin.heap.addrs k % 2 = 0 := fun k hk => by
    obtain ⟨hk', ha, -⟩ := s.afterJoin_slot hk
    rw [ha]; exact (survivors_get_mem _ hk').2
  refine ⟨fun w hw => ?_, fun hr => ?_, fun hr k hk => ⟨heven k hk, ?_⟩,
    fun k hk hodd => absurd hodd (by rw [heven k hk]; decide), ?_, fun G hG j hj hc => ?_⟩
  · simp only [Sweep.afterJoin] at hw ⊢
    split_ifs at hw ⊢
    · exact ⟨trivial, fun k hb hk => absurd hk (Nat.not_lt.mpr hb)⟩
    · exact absurd hw (Nat.not_lt_zero w)
  · simp only [Sweep.afterJoin] at hr ⊢
    split_ifs at hr ⊢
    exact ⟨rfl, fun _ _ => ⟨rfl, rfl⟩⟩
  · -- the loop stops: the pass dropped nothing, or nothing is left
    obtain ⟨hk', -, hr', -⟩ := s.afterJoin_slot hk
    rw [hr']
    simp only [Sweep.afterJoin] at hr hk
    split_ifs at hr hk with hc
    · simp [startPass] at hr
    dsimp only at hk
    have hsv : (compact s.heap).2 = 0 := by
      by_contra h0; exact hc ⟨Nat.pos_of_ne_zero h0, by omega⟩
    have hall : ∀ k < s.heap.nAddrs, s.heap.addrs k % 2 = 0 :=
      fun k hk => even_of_survivors_length (by have := hs.savings_eq; rw [← hs.nAddrs_eq]; omega) hk
    obtain ⟨hk₀, -⟩ := survivors_get_mem _ hk'
    obtain ⟨hnw, hrg⟩ := hpi.pass hrun
    obtain ⟨w, hw, hb, he⟩ := rangeOf_cover _ _ hk₀
    have hw' : w < s.nWorkers := by rw [hnw]; exact hw
    obtain ⟨-, -, hfin⟩ := hdone w hw'
    rw [← (hrg w hw').1] at hb; rw [← (hrg w hw').2] at he
    rcases (hpi.ranges w hw').2 _ hb (by omega) with h1 | h1 | ⟨k', hk'', h1⟩
    · rw [hall _ hk₀] at h1; cases h1
    · exact h1
    · rw [hall k' hk''] at h1; cases h1
  · have : s.afterJoin.heap.assertFailed = s.heap.assertFailed := by
      simp only [Sweep.afterJoin]; split_ifs <;> exact hs.others.2.2.2.2
    rw [this]; exact hpi.no_fail
  · refine hpi.least G hG j hj ?_
    rcases hc with hfr | ⟨k, hk, -, hodd⟩
    · exact Or.inl (s.afterJoin_mem.2 ▸ hfr)
    · rw [heven k hk] at hodd; cases hodd

end PassInv

/-- **The first pass starts in the invariant.** -/
theorem PassInv.init {D : Dataset} (hD : SweepReady D) : PassInv D (Sweep.init D) := by
  have heven := hD.ascending.aligned
  refine ⟨fun w _ => ⟨trivial, fun k hb hk => absurd hk (Nat.not_lt.mpr hb)⟩,
    fun _ => ⟨rfl, fun _ _ => ⟨rfl, rfl⟩⟩, fun hr => (nomatch hr), fun k hk hodd => ?_, rfl,
    fun G _ j _ hc => ?_⟩
  · change D.addrs k % 2 = 1 at hodd
    rw [heven k hk] at hodd; cases hodd
  · rcases hc with hfr | ⟨k, hk, -, hodd⟩
    · exact absurd hfr (List.not_mem_nil _)
    · change D.addrs k % 2 = 1 at hodd
      rw [heven k hk] at hodd; cases hodd

/-- **Every reachable state of the sweep satisfies the invariant.** -/
theorem PassInv.reachable {D : Dataset} (hD : SweepReady D) {s : Sweep}
    (hr : Sweep.Reachable D s) : PassInv D s := by
  induction hr with
  | refl => exact PassInv.init hD
  | tail hab hstep ih =>
    have hown := Owned.reachable hD.ascending hab
    cases hstep with
    | worker w hw hrun hbusy =>
      rw [Sweep.runWorker_eq]
      exact ih.step hD hown (MemInv.reachable hD hab) (Acct.reachable hD hab) hrun hw
        (stepWorker_spec _ _ hbusy)
    | join hrun hdone => exact ih.afterJoin hrun hdone

end ForkScan
