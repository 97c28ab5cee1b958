import ForkScan.Sweep.Ownership

/-!
# ForkScan — what the counts in `refs` count

The child scanner leaves in `refs[j]` a count of the words that point at candidate `j`: the
words on the threads' stacks and the words of the other candidate blocks. The sweep takes
back, for every block it frees, the words of that block that point at a candidate. This
module names the quantities that bookkeeping is about:

* **`Dataset.wordsTo D mem b j`** — the words of block `b` (its first `alloc_sz[b] / 8`
  words, as `unref_addr` scans them) whose masked value is `addrs[j]`, in memory `mem`;
  `refsFrom` is that count in the memory the sweep starts from.
* **`Dataset.Closed D G`** — `G` holds every candidate whose count falls to zero once the
  references from the blocks of `G` are taken away. The sweep frees the least closed set.
* **`SweepReady D`** — what the sweep may assume of the dataset it starts from.
* **`Dataset.processed D mem j`** — how many of the references to `j` from other blocks the
  sweep has taken out of memory so far, and **`Sweep.owes s k`** — how many of those it has
  not yet taken out of `refs[k]`.

The memory lemmas say how a zeroed word changes the counts (`processed_update_zero`), and
the frame lemmas how a thread's step changes `owes` (`countFrames_top`).
-/

namespace ForkScan

open Finset

/-! ## Blocks and the references between them -/

/-- `elements` for candidate `j`: the number of words `unref_addr` scans in its block. -/
def Dataset.elems (D : Dataset) (j : Nat) : Nat := (elementsOf (D.allocSz j)).toNat

/-- The scanned words of block `b` in memory `mem` whose masked value is `addrs[j]`. -/
def Dataset.wordsTo (D : Dataset) (mem : Nat → Nat) (b j : Nat) : Nat :=
  ((range (D.elems b)).filter fun m => ptrMask (mem (blockWord (D.addrs b) m)) = D.addrs j).card

/-- The references from block `b` to candidate `j` when the sweep starts. -/
def Dataset.refsFrom (D : Dataset) (b j : Nat) : Nat := D.wordsTo D.mem b j

/-- The references to `j` from the candidate blocks of `G` other than `j` itself. -/
def Dataset.refsIn (D : Dataset) (G : Finset Nat) (j : Nat) : Nat :=
  ∑ i ∈ ((range D.n).filter (· ∈ G)).erase j, D.refsFrom i j

/-- `G` is closed: every candidate whose count is used up by the references from the blocks
of `G` is itself in `G`. -/
def Dataset.Closed (D : Dataset) (G : Finset Nat) : Prop :=
  ∀ j < D.n, D.refs j - D.refsIn G j = 0 → j ∈ G

/-- The preconditions of the sweep: the candidates are `n ≥ 1` ascending nonzero addresses
with the collected bit clear, their blocks have a positive `int` size and do not overlap,
and `refs` holds at least the references from the other candidate blocks (the child adds
the words on the stacks). -/
structure SweepReady (D : Dataset) : Prop where
  pos : 0 < D.n
  ascending : D.Ascending
  nonzero : ∀ j < D.n, 0 < D.addrs j
  size_pos : ∀ j < D.n, 0 < D.allocSz j
  size_lt : ∀ j < D.n, D.allocSz j < 2 ^ 31
  disjoint : ∀ j < D.n, ∀ i < j, D.addrs i + (D.allocSz i).toNat ≤ D.addrs j
  counted : ∀ j < D.n, (D.refsIn (range D.n) j : Int) ≤ D.refs j

/-! ## The state of the bookkeeping -/

/-- The references to `j` from other blocks that the sweep has zeroed in memory. -/
def Dataset.processed (D : Dataset) (mem : Nat → Nat) (j : Nat) : Int :=
  ∑ b ∈ (range D.n).erase j, ((D.refsFrom b j : Int) - D.wordsTo mem b j)

/-- Frame `f` owes slot `k`, whose masked entry is `d`, a decrement: it has zeroed a word
pointing at `k` (not in its own block) and not yet decremented `refs[k]`. -/
def owesTo (d k : Nat) (f : Frame) : Bool :=
  match f.pc with
  | .scan _ _ _ (.search deep) => deep == d && f.n != k
  | .scan _ _ _ (.dec _ loc) => loc == k
  | _ => false

/-- The decrements of `refs[k]` the threads owe. -/
def Sweep.owes (s : Sweep) (k : Nat) : Nat :=
  s.countFrames (owesTo (ptrMask (s.heap.addrs k)) k)

/-- Candidate `j` has been claimed: its block is freed, or its entry has the collected bit. -/
def Sweep.Claimed (D : Dataset) (s : Sweep) (j : Nat) : Prop :=
  D.addrs j ∈ s.heap.freed ∨
    ∃ k < s.heap.nAddrs, ptrMask (s.heap.addrs k) = D.addrs j ∧ s.heap.addrs k % 2 = 1

section Ready

variable {D : Dataset} (hD : SweepReady D)
include hD

theorem SweepReady.elementsOf_eq {j : Nat} (hj : j < D.n) :
    elementsOf (D.allocSz j) = D.allocSz j / 8 :=
  elementsOf_of_nonneg (le_of_lt (hD.size_pos j hj)) (hD.size_lt j hj)

/-- A scanned word lies inside its block. -/
theorem SweepReady.word_lt {j m : Nat} (hj : j < D.n) (hm : m < D.elems j) :
    WORD_SIZE * m < (D.allocSz j).toNat := by
  have := hD.elementsOf_eq hj
  simp only [Dataset.elems, this] at hm
  simp only [WORD_SIZE]; omega

/-- The scanned words of two different candidates are different words. -/
theorem SweepReady.blockWord_ne {j j' m m' : Nat} (hj : j < D.n) (hj' : j' < D.n)
    (hne : j ≠ j') (hm : m < D.elems j) (hm' : m' < D.elems j') :
    blockWord (D.addrs j) m ≠ blockWord (D.addrs j') m' := by
  have h₁ := hD.word_lt hj hm
  have h₂ := hD.word_lt hj' hm'
  simp only [blockWord]
  rcases Nat.lt_or_gt_of_ne hne with h | h
  · have := hD.disjoint j' hj' j h; omega
  · have := hD.disjoint j hj j' h; omega

theorem SweepReady.addrs_inj {j j' : Nat} (hj : j < D.n) (hj' : j' < D.n)
    (h : D.addrs j = D.addrs j') : j = j' := by
  by_contra hne
  rcases Nat.lt_or_gt_of_ne hne with hlt | hlt
  · exact absurd h (Nat.ne_of_lt (hD.ascending.lt j' hj' j hlt))
  · exact absurd h (Nat.ne_of_gt (hD.ascending.lt j hj j' hlt))

end Ready

/-! ## Counting words -/

/-- Zeroing one word of block `b₀` takes it out of the count of the candidate it pointed at,
and changes no other count. -/
theorem wordsTo_update_zero {D : Dataset} (hD : SweepReady D) (mem : Nat → Nat) {b₀ i b j : Nat}
    (hb₀ : b₀ < D.n) (hi : i < D.elems b₀) (hb : b < D.n) (hj : j < D.n) :
    (D.wordsTo (Function.update mem (blockWord (D.addrs b₀) i) 0) b j : Int) =
      D.wordsTo mem b j -
        if b = b₀ ∧ ptrMask (mem (blockWord (D.addrs b₀) i)) = D.addrs j then 1 else 0 := by
  have hz : D.addrs j ≠ 0 := Nat.pos_iff_ne_zero.mp (hD.nonzero j hj)
  by_cases hbb : b = b₀
  · subst hbb
    have hfilter : ((range (D.elems b)).filter fun m =>
          ptrMask (Function.update mem (blockWord (D.addrs b) i) 0
            (blockWord (D.addrs b) m)) = D.addrs j) =
        ((range (D.elems b)).filter fun m =>
          ptrMask (mem (blockWord (D.addrs b) m)) = D.addrs j).erase i := by
      ext m
      simp only [mem_filter, mem_erase, mem_range, Function.update_apply, blockWord,
        WORD_SIZE]
      by_cases hm : m = i
      · subst hm; simp [hz.symm]
      · have : D.addrs b + 8 * m ≠ D.addrs b + 8 * i := by omega
        simp [hm, this]
    simp only [Dataset.wordsTo, hfilter, true_and]
    split_ifs with hp
    · rw [card_erase_of_mem (by simp [hi, hp])]
      have : 0 < ((range (D.elems b)).filter fun m =>
          ptrMask (mem (blockWord (D.addrs b) m)) = D.addrs j).card :=
        card_pos.mpr ⟨i, by simp [hi, hp]⟩
      omega
    · rw [erase_eq_of_not_mem (by simp [hp]), Int.sub_zero]
  · simp only [hbb, false_and, if_false, Int.sub_zero, Dataset.wordsTo]
    congr 2
    refine filter_congr fun m hm => ?_
    rw [Function.update_noteq (hD.blockWord_ne hb hb₀ hbb (mem_range.mp hm) hi)]

/-- Zeroing a word of block `b₀` that pointed at `j` counts as one more processed reference
to `j` when `b₀` is another block. -/
theorem processed_update_zero {D : Dataset} (hD : SweepReady D) (mem : Nat → Nat)
    {b₀ i j : Nat} (hb₀ : b₀ < D.n) (hi : i < D.elems b₀) (hj : j < D.n) :
    D.processed (Function.update mem (blockWord (D.addrs b₀) i) 0) j =
      D.processed mem j +
        if b₀ ≠ j ∧ ptrMask (mem (blockWord (D.addrs b₀) i)) = D.addrs j then 1 else 0 := by
  simp only [Dataset.processed]
  rw [sum_congr rfl fun b hb => by
    rw [wordsTo_update_zero hD mem hb₀ hi (mem_range.mp (mem_of_mem_erase hb)) hj]]
  simp only [sub_sub_eq_add_sub, add_sub_right_comm, sum_add_distrib]
  congr 1
  simp only [ite_and, sum_ite_eq', mem_erase, mem_range, ne_eq]
  by_cases h : b₀ = j <;> simp [h, hb₀]

/-- The processed references to `j` split over the blocks in `G` and the others. -/
theorem processed_split (D : Dataset) (mem : Nat → Nat) (j : Nat) (G : Finset Nat)
    (hout : ∀ b < D.n, b ∉ G → D.wordsTo mem b j = D.refsFrom b j) :
    D.processed mem j =
      ∑ b ∈ ((range D.n).filter (· ∈ G)).erase j, ((D.refsFrom b j : Int) - D.wordsTo mem b j) := by
  rw [Dataset.processed, ← sum_filter_add_sum_filter_not _ (· ∈ G), filter_erase]
  rw [sum_eq_zero (s := ((range D.n).erase j).filter (· ∉ G)) fun b hb => by
    simp only [mem_filter, mem_erase, mem_range] at hb
    rw [hout b hb.1.2 hb.2, sub_self], add_zero]

/-- When the blocks outside `G` are untouched, the processed references to `j` are at most the
references from `G`. -/
theorem processed_le_refsIn_of (D : Dataset) (mem : Nat → Nat) (j : Nat) (G : Finset Nat)
    (hout : ∀ b < D.n, b ∉ G → D.wordsTo mem b j = D.refsFrom b j) :
    D.processed mem j ≤ D.refsIn G j := by
  rw [processed_split D mem j G hout, Dataset.refsIn, sum_sub_distrib, ← Nat.cast_sum,
    ← Nat.cast_sum]
  omega

/-- The sweep never processes more references to `j` than the other blocks held. -/
theorem processed_le_refsIn (D : Dataset) (mem : Nat → Nat) (j : Nat) :
    D.processed mem j ≤ D.refsIn (range D.n) j :=
  processed_le_refsIn_of D mem j _ fun _ hb hnot => absurd (mem_range.mpr hb) hnot

/-! ## The bookkeeping of `owes` -/

/-- How a step of thread `w`, which replaces its top frame `f` by the frames `fs`, changes a
count over all frames. -/
theorem Sweep.countFrames_top {s : Sweep} {w : Nat} (hw : w < s.nWorkers) {f : Frame}
    {rest : List Frame} (hf : (s.workers w).frames = f :: rest) (h : Heap) {wk : Worker}
    {fs : List Frame} (hwk : wk.frames = fs ++ rest) (p : Frame → Bool) :
    (s.setWorker h w wk).countFrames p + (if p f then 1 else 0) =
      s.countFrames p + fs.countP p := by
  have := s.countFrames_update hw h wk p
  rw [hf, hwk, List.countP_cons, List.countP_append] at this
  omega

@[simp] theorem owesTo_entry (d k n m : Nat) : owesTo d k ⟨n, m, .entry⟩ = false := rfl

@[simp] theorem owesTo_read (d k : Nat) (f : Frame) {addr i : Nat} {e : Int}
    (h : f.pc = .scan addr e i .read) : owesTo d k f = false := by
  simp [owesTo, h]

end ForkScan
