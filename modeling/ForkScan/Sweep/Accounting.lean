import ForkScan.Sweep.Memory

/-!
# ForkScan — the accounting of `refs`

The third invariant of the sweep is one equation per slot: for the slot `k` of candidate `j`,

  `refs[k] = refs₀[j] - processed j + owes k`,

where `processed j` counts the references to `j` the sweep has zeroed in other blocks
(`Dataset.processed`) and `owes k` the frames that have zeroed one and not yet decremented
`refs[k]` (`Sweep.owes`). A zeroed word moves a reference from the count into `owes`; the
search hands the debt to the slot it finds; `__sync_fetch_and_sub` pays it. The equation
holds at every step of every interleaving (`Acct.step`) and across the join (`Acct.afterJoin`).

With `MemInv` it bounds every count from below: `refs[k] ≥ owes k ≥ 0` (`Acct.refs_nonneg`).
-/

namespace ForkScan

open Finset

/-! ## The binary search of `unref_addr` -/

section Search

variable {D : Dataset} {s : Sweep} (hown : Owned D s)
include hown

omit hown in
/-- The search of a frame at slot `n`, whose entry `addr` has its bit set, finds the slot of
the word it searches for, which is not `n`. -/
theorem searchLoc_found {n deep loc : Nat} (hn : n < s.heap.nAddrs)
    (hodd : s.heap.addrs n % 2 = 1)
    (hs : searchLoc s.heap n (s.heap.addrs n) deep = some loc) :
    loc < s.heap.nAddrs ∧ ptrMask (s.heap.addrs loc) = deep ∧ loc ≠ n := by
  obtain ⟨hloc, hm⟩ := searchLoc_some hs (Nat.le_of_lt hn)
  refine ⟨hloc, hm, fun h => ?_⟩
  subst h
  unfold searchLoc at hs
  split_ifs at hs with hlt
  · exact absurd (binarySearch_some hs).2.1 (lt_irrefl _)
  · rw [← hm] at hlt; simp only [ptrMask] at hlt; omega

/-- A search that finds nothing means no other slot holds the word. -/
theorem Owned.searchLoc_missing {n deep : Nat} (hn : n < s.heap.nAddrs)
    (hodd : s.heap.addrs n % 2 = 1)
    (hs : searchLoc s.heap n (s.heap.addrs n) deep = none) {k : Nat} (hk : k < s.heap.nAddrs)
    (hkd : ptrMask (s.heap.addrs k) = deep) : k = n := by
  by_contra hne
  unfold searchLoc at hs
  split_ifs at hs with hlt
  · have hkn : k < n := by
      by_contra hge
      have := hown.ascending n k (by omega) hk
      simp only [ptrMask] at this hlt hkd; omega
    exact binarySearch_none hs k (Nat.zero_le k) hkn hkd
  · have hkn : n < k := by
      by_contra hle
      rcases Nat.lt_or_eq_of_le (Nat.le_of_not_lt hle) with h | h
      · have := hown.ascending k n h hn
        simp only [ptrMask] at this hlt hkd; omega
      · exact hne h
    exact binarySearch_none hs k (Nat.le_of_lt hkn) hk hkd

end Search

/-! ## The invariant -/

/-- The accounting equation of every slot. -/
def Acct (D : Dataset) (s : Sweep) : Prop :=
  ∀ k < s.heap.nAddrs, ∀ j < D.n, D.addrs j = ptrMask (s.heap.addrs k) →
    s.heap.refs k = D.refs j - D.processed s.heap.mem j + s.owes k

/-- How a step of thread `w` that replaces its top frame `f` by `l` changes `owes`. -/
theorem Sweep.owes_top {s : Sweep} {w : Nat} (hw : w < s.nWorkers) {h' : Heap} {wk' : Worker}
    (hstep : WorkerStep s.heap (s.workers w) h' wk') {f : Frame} {rest : List Frame}
    (hf : (s.workers w).frames = f :: rest) {l : List Frame} (hwk : wk'.frames = l ++ rest)
    (k : Nat) :
    (s.setWorker h' w wk').owes k + (if owesTo (ptrMask (s.heap.addrs k)) k f then 1 else 0) =
      s.owes k + l.countP (owesTo (ptrMask (s.heap.addrs k)) k) := by
  simp only [Sweep.owes, Sweep.setWorker_heap, hstep.mask_eq]
  exact Sweep.countFrames_top hw hf h' hwk _

/-- A step outside the frames owes nothing: the frames it pushes are at their entry. -/
theorem Sweep.owes_range {s : Sweep} {w : Nat} (hw : w < s.nWorkers) {h' : Heap}
    {wk' : Worker} (hstep : WorkerStep s.heap (s.workers w) h' wk')
    (hf : (s.workers w).frames = []) (hwk : ∀ g ∈ wk'.frames, g.pc = .entry) (k : Nat) :
    (s.setWorker h' w wk').owes k = s.owes k := by
  have := Sweep.countFrames_update hw h' wk' (owesTo (ptrMask (s.heap.addrs k)) k)
  rw [hf, List.countP_nil, List.countP_eq_zero.mpr fun g hg => by simp [owesTo, hwk g hg]] at this
  simp only [Sweep.owes, Sweep.setWorker_heap, hstep.mask_eq]
  omega

/-- A step that changes the top frame's phase without changing its debt to `k`. -/
theorem Sweep.owes_eq_of_top {s : Sweep} {w : Nat} (hw : w < s.nWorkers) {h' : Heap}
    {wk' : Worker} (hstep : WorkerStep s.heap (s.workers w) h' wk') {f f' : Frame}
    {rest : List Frame} (hf : (s.workers w).frames = f :: rest) (hwk : wk'.frames = f' :: rest)
    (k : Nat)
    (h : owesTo (ptrMask (s.heap.addrs k)) k f = owesTo (ptrMask (s.heap.addrs k)) k f') :
    (s.setWorker h' w wk').owes k = s.owes k := by
  have := Sweep.owes_top hw hstep hf (l := [f']) hwk k
  simp only [List.countP_cons, List.countP_nil, h] at this
  omega

namespace Acct

variable {D : Dataset} {s : Sweep} (hD : SweepReady D) (hown : Owned D s) (hmi : MemInv D s)
  (hacct : Acct D s)
include hD hown hmi hacct

omit hD hown hmi in
/-- A step that writes neither `refs` nor memory and changes no debt keeps the equations. -/
theorem of_owes {w : Nat} {h' : Heap} {wk' : Worker}
    (hstep : WorkerStep s.heap (s.workers w) h' wk') (hrefs : h'.refs = s.heap.refs)
    (hmem : h'.mem = s.heap.mem)
    (howes : ∀ k < s.heap.nAddrs, (s.setWorker h' w wk').owes k = s.owes k) :
    Acct D (s.setWorker h' w wk') := by
  intro k hk j hj hjk
  simp only [Sweep.setWorker_heap, hstep.nAddrs_eq, hstep.mask_eq] at hk hjk
  simp only [Sweep.setWorker_heap, hrefs, hmem, howes k hk]
  exact hacct k hk j hj hjk

omit hD hmi in
/-- The search finds the word: the debt moves from the word searched for to the slot found. -/
theorem frameFound_step {w : Nat} (hw : w < s.nWorkers) {f : Frame} {rest : List Frame}
    {addr : Nat} {e : Int} {deep loc i : Nat} (hf : (s.workers w).frames = f :: rest)
    (hpc : f.pc = .scan addr e i (.search deep)) (hloc : searchLoc s.heap f.n addr deep = some loc) :
    Acct D (s.setWorker s.heap w
      { s.workers w with frames := { f with pc := .scan addr e i (.dec deep loc) } :: rest }) := by
  have hstep := WorkerStep.frameFound hf hpc hloc
  have hfm : s.HasFrame f := ⟨w, hw, hf ▸ List.mem_cons_self f rest⟩
  obtain ⟨⟨hfn, hodd, -⟩, hfo⟩ := hown.held f hfm
  unfold FrameOwned at hfo; rw [hpc] at hfo
  rw [hfo.1] at hloc
  obtain ⟨hlocn, hlocm, hlocf⟩ := searchLoc_found hfn hodd hloc
  refine hacct.of_owes hstep rfl rfl fun k hk => Sweep.owes_eq_of_top hw hstep hf rfl k ?_
  simp only [owesTo, hpc]
  rw [Bool.eq_iff_iff]
  simp only [Bool.and_eq_true, beq_iff_eq, bne_iff_ne, ne_eq]
  constructor
  · rintro ⟨hd, -⟩
    by_contra hne
    exact hown.mask_ne hlocn hk hne (hlocm.trans hd)
  · rintro rfl; exact ⟨hlocm.symm, Ne.symm hlocf⟩

omit hD hmi in
/-- The search misses the word: nothing else holds it, so nothing was owed. -/
theorem frameMiss_step {w : Nat} (hw : w < s.nWorkers) {f : Frame} {rest : List Frame}
    {addr : Nat} {e : Int} {deep i : Nat} (hf : (s.workers w).frames = f :: rest)
    (hpc : f.pc = .scan addr e i (.search deep)) (hloc : searchLoc s.heap f.n addr deep = none) :
    Acct D (s.setWorker s.heap w
      { s.workers w with frames := { f with pc := .scan addr e (i + 1) .read } :: rest }) := by
  have hstep := WorkerStep.frameMiss hf hpc hloc
  have hfm : s.HasFrame f := ⟨w, hw, hf ▸ List.mem_cons_self f rest⟩
  obtain ⟨⟨hfn, hodd, -⟩, hfo⟩ := hown.held f hfm
  unfold FrameOwned at hfo; rw [hpc] at hfo
  rw [hfo.1] at hloc
  refine hacct.of_owes hstep rfl rfl fun k hk => Sweep.owes_eq_of_top hw hstep hf rfl k ?_
  simp only [owesTo, hpc, Bool.and_eq_false_iff, beq_eq_false_iff_ne, bne_eq_false_iff_eq]
  by_cases hd : deep = ptrMask (s.heap.addrs k)
  · exact Or.inr (hown.searchLoc_missing hfn hodd hloc hk hd.symm).symm
  · exact Or.inl hd

omit hD hown hmi in
/-- The decrement pays the debt of the slot found. -/
theorem frameDec_step {w : Nat} (hw : w < s.nWorkers) {f : Frame} {rest : List Frame}
    {addr : Nat} {e : Int} {deep loc i : Nat} (hf : (s.workers w).frames = f :: rest)
    (hpc : f.pc = .scan addr e i (.dec deep loc)) :
    Acct D (s.setWorker { s.heap with refs := Function.update s.heap.refs loc (s.heap.refs loc - 1) }
      w { s.workers w with frames := { f with pc := .scan addr e i (.reread deep loc) } :: rest }) := by
  have hstep := WorkerStep.frameDec (h := s.heap) hf hpc
  intro k hk j hj hjk
  simp only [Sweep.setWorker_heap, hstep.nAddrs_eq, hstep.mask_eq] at hk hjk ⊢
  have := Sweep.owes_top hw hstep hf (l := [_]) rfl k
  have h1 : owesTo (ptrMask (s.heap.addrs k)) k f = (loc == k) := by simp only [owesTo, hpc]
  have h2 : owesTo (ptrMask (s.heap.addrs k)) k
      { f with pc := .scan addr e i (.reread deep loc) } = false := rfl
  simp only [List.countP_cons, List.countP_nil, h1, h2] at this
  have hold := hacct k hk j hj hjk
  by_cases hx : loc = k
  · subst hx
    simp only [beq_self_eq_true, if_true, Bool.false_eq_true, if_false] at this
    rw [Function.update_same]; omega
  · simp only [beq_false_of_ne hx, Bool.false_eq_true, if_false] at this
    rw [Function.update_noteq (Ne.symm hx)]; omega

/-- Zeroing a word moves a reference from the count into the debt: the word pointed at `k` from
another block, and now the frame searching for it owes `k` instead. -/
theorem frameZero_step {w : Nat} (hw : w < s.nWorkers) {f : Frame} {rest : List Frame}
    {addr : Nat} {e : Int} {deep i : Nat} (hf : (s.workers w).frames = f :: rest)
    (hpc : f.pc = .scan addr e i (.zero deep)) :
    Acct D (s.setWorker
      { s.heap with mem := Function.update s.heap.mem (blockWord (ptrMask addr) i) 0 } w
      { s.workers w with frames := { f with pc := .scan addr e i (.search deep) } :: rest }) := by
  have hstep := WorkerStep.frameZero (h := s.heap) hf hpc
  have hfm : s.HasFrame f := ⟨w, hw, hf ▸ List.mem_cons_self f rest⟩
  obtain ⟨jf, hjf, hmf, haf, hef, -⟩ := hmi.scan_block hD hown hfm hpc
  have hold := hmi.top_counted hw hf
  unfold FrameCounted at hold; rw [hpc] at hold
  have hlt : (i : Int) < e := hold.2.2.1 (by simp)
  have hdeep : deep = ptrMask (s.heap.mem (blockWord (ptrMask addr) i)) := hold.2.2.2.1
  have hi : i < D.elems jf := by simp only [Dataset.elems]; rw [← hef]; omega
  intro k hk j hj hjk
  simp only [Sweep.setWorker_heap, hstep.nAddrs_eq, hstep.mask_eq] at hk hjk ⊢
  have := Sweep.owes_top hw hstep hf (l := [_]) rfl k
  have h1 : owesTo (ptrMask (s.heap.addrs k)) k f = false := by simp only [owesTo, hpc]
  have h2 : owesTo (ptrMask (s.heap.addrs k)) k
      { f with pc := .scan addr e i (.search deep) } =
        (deep == ptrMask (s.heap.addrs k) && f.n != k) := rfl
  simp only [List.countP_cons, List.countP_nil, h1, h2, Bool.false_eq_true, if_false,
    Bool.and_eq_true, beq_iff_eq, bne_iff_ne, ne_eq] at this
  have hacc := hacct k hk j hj hjk
  rw [haf, processed_update_zero hD _ hjf hi hj, ← haf, ← hdeep, hjk, hacc]
  -- the two indicators agree: another block's word pointing at `k`
  have hiff : (jf ≠ j ∧ deep = ptrMask (s.heap.addrs k)) ↔
      (deep = ptrMask (s.heap.addrs k) ∧ ¬ f.n = k) := by
    rw [and_comm]
    refine and_congr_right fun _ => ⟨fun hne hfk => hne ?_, fun hne hjj => hne ?_⟩
    · subst hfk; exact hD.addrs_inj hjf hj (hmf.symm.trans hjk.symm)
    · subst hjj; by_contra hfk
      exact hown.mask_ne (hown.held f hfm).1.1 hk hfk (hmf.trans hjk)
  by_cases hx : deep = ptrMask (s.heap.addrs k) ∧ ¬ f.n = k
  · rw [if_pos (hiff.mpr hx)]; rw [if_pos hx] at this; omega
  · rw [if_neg (mt hiff.mp hx)]; rw [if_neg hx] at this; omega

/-- **Every step of a thread keeps the accounting equations.** -/
theorem step {w : Nat} (hw : w < s.nWorkers) {h' : Heap} {wk' : Worker}
    (hstep : WorkerStep s.heap (s.workers w) h' wk') : Acct D (s.setWorker h' w wk') := by
  have hs := hstep
  cases hs with
  | rangeRead hf _ _ | rangeAssert hf _ | rangePass hf _ _ | rangeFail hf _ _
  | rangeLose hf _ _ =>
    exact hacct.of_owes hstep rfl rfl fun k _ =>
      Sweep.owes_range hw hstep hf (fun g hg => by simp [hf] at hg) k
  | rangeClaim hf _ _ =>
    exact hacct.of_owes hstep rfl rfl fun k _ =>
      Sweep.owes_range hw hstep hf (fun g hg => by rw [List.mem_singleton.mp hg]) k
  | frameEntry hf hpc | frameRead hf hpc _ _ | frameSkip hf hpc _ _ | frameGo hf hpc _
  | frameStop hf hpc _ | frameLose hf hpc _ =>
    exact hacct.of_owes hstep rfl rfl fun k _ =>
      Sweep.owes_eq_of_top hw hstep hf rfl k (by simp only [owesTo, hpc])
  | frameClaim hf hpc _ =>
    refine hacct.of_owes hstep rfl rfl fun k _ => ?_
    have := Sweep.owes_top hw hstep hf (l := [_, _]) rfl k
    simpa [owesTo, hpc] using this
  | frameFree hf hpc _ =>
    refine hacct.of_owes hstep rfl rfl fun k _ => ?_
    have := Sweep.owes_top hw hstep hf (l := []) rfl k
    simpa [owesTo, hpc] using this
  | frameFound hf hpc hloc => exact frameFound_step hown hacct hw hf hpc hloc
  | frameMiss hf hpc hloc => exact frameMiss_step hown hacct hw hf hpc hloc
  | frameDec hf hpc => exact frameDec_step hacct hw hf hpc
  | frameZero hf hpc => exact frameZero_step hD hown hmi hacct hw hf hpc

omit hD hown hmi in
/-- **The join keeps the accounting equations**: the compaction moves each count with its
entry, and no frame owes anything between passes. -/
theorem afterJoin (hdone : ∀ w < s.nWorkers, (s.workers w).Finished) :
    Acct D s.afterJoin := by
  intro k hk j hj hjk
  obtain ⟨hk', ha, hr, -⟩ := s.afterJoin_slot hk
  rw [ha] at hjk
  rw [hr, s.afterJoin_mem.1, hacct _ (survivors_get_mem _ hk').1 j hj hjk]
  simp only [Sweep.owes, Sweep.countFrames_eq_zero s.afterJoin_noFrames,
    Sweep.countFrames_eq_zero (Sweep.noFrames_of_done hdone)]

omit hown hmi in
/-- **A count never falls below what is still owed to it**, so it never becomes negative. -/
theorem owes_le_refs {k : Nat} (hk : k < s.heap.nAddrs) {j : Nat} (hj : j < D.n)
    (hjk : D.addrs j = ptrMask (s.heap.addrs k)) : (s.owes k : Int) ≤ s.heap.refs k := by
  have hle := processed_le_refsIn D s.heap.mem j
  have := hD.counted j hj
  rw [hacct k hk j hj hjk]; omega

omit hmi in
/-- **No count is ever negative.** -/
theorem refs_nonneg {k : Nat} (hk : k < s.heap.nAddrs) : 0 ≤ s.heap.refs k := by
  obtain ⟨j, hj, hjk⟩ := hown.masks k hk
  have := owes_le_refs hD hacct hk hj hjk.symm
  omega

end Acct

/-- **The first pass starts with the counts of the dataset**: nothing processed, nothing owed. -/
theorem Acct.init {D : Dataset} (hD : SweepReady D) : Acct D (Sweep.init D) := by
  intro k hk j hj hjk
  change k < D.n at hk
  change D.addrs j = ptrMask (D.addrs k) at hjk
  rw [ptrMask_of_even (hD.ascending.aligned k hk)] at hjk
  obtain rfl := hD.addrs_inj hj hk hjk
  have hp : D.processed D.mem j = 0 := by simp [Dataset.processed, Dataset.refsFrom]
  have ho : (Sweep.init D).owes j = 0 := Sweep.countFrames_eq_zero (fun _ _ => rfl) _
  show D.refs j = D.refs j - D.processed D.mem j + ((Sweep.init D).owes j : Int)
  rw [hp, ho]; simp

/-- **Every reachable state of the sweep satisfies the accounting equations.** -/
theorem Acct.reachable {D : Dataset} (hD : SweepReady D) {s : Sweep}
    (hr : Sweep.Reachable D s) : Acct D s := by
  induction hr with
  | refl => exact Acct.init hD
  | tail hab hstep ih =>
    have hown := Owned.reachable hD.ascending hab
    have hmi := MemInv.reachable hD hab
    cases hstep with
    | worker w hw _ hbusy =>
      rw [Sweep.runWorker_eq]; exact ih.step hD hown hmi hw (stepWorker_spec _ _ hbusy)
    | join _ hdone => exact ih.afterJoin hdone

end ForkScan
