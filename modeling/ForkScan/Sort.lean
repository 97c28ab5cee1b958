import Mathlib

/-!
# ForkScan — the in-place hybrid quicksort of `util.c`

`forkgc_util_sort` sorts the aggregated address array in place. `quicksort` works on the
closed index range `[min, max]`: while the range holds more than `SORT_THRESHOLD + 1`
elements it partitions around the element at the midpoint index (Lomuto scheme, ties to
the left) and recurses on both sides; below that it falls back to `insertion_sort`. The
array is a `size_t *` indexed by `int`, modelled as a function `Int → Nat`; every C loop is
a recursion on its loop variable.

* **`PermOn lo hi a b`** — `b` is `a` with its entries permuted inside `[lo, hi]` only: a
  permutation of `Int` fixing every other index carries `b` to `a`. Swaps, composition and
  widening the range preserve it, and it carries bounds on values from `a` to `b`.
* **`partition_spec`** — one `partition` call returns `mid ∈ [min, max]` with everything
  left of `mid` at most the pivot and everything right of it strictly greater.
* **`insertionSort_spec`** — `insertion_sort` sorts `[min, max]` *provided* every element
  below `min` is at most every element of the range. Its inner loop runs while `j > 0`,
  not `j > min`; only that ordering stops it at `min`.
* **`quicksort_spec`** — each call the recursion makes satisfies that proviso, so
  `quicksort a 0 (n - 1)` sorts `a[0..n)` and leaves every other index alone.
-/

namespace ForkScan

/-! ## The sort, as `util.c` writes it -/

/-- `swap(addrs, n, m)`: exchange `addrs[n]` and `addrs[m]` through a temporary. -/
def swap (a : Int → Nat) (n m : Int) : Int → Nat :=
  Function.update (Function.update a n (a m)) m (a n)

/-- The loop of `partition`: `i` runs over `[min, max)`, and every element at most the
pivot value is swapped down to `mid`, which then advances. Returns the array and `mid`. -/
def partitionLoop (pivotVal : Nat) (max : Int) (a : Int → Nat) (i mid : Int) :
    (Int → Nat) × Int :=
  if i < max then
    if a i ≤ pivotVal then partitionLoop pivotVal max (swap a i mid) (i + 1) (mid + 1)
    else partitionLoop pivotVal max a (i + 1) mid
  else (a, mid)
termination_by (max - i).toNat

/-- `partition(addrs, min, max)`: the pivot is the element at index `(max + min) / 2`
(C division, truncating); it is parked at `max` during the loop and swapped into `mid`
at the end. -/
def partition (a : Int → Nat) (min max : Int) : (Int → Nat) × Int :=
  let pivot := (max + min).tdiv 2
  let pivotVal := a pivot
  let r := partitionLoop pivotVal max (swap a pivot max) min min
  (swap r.1 r.2 max, r.2)

/-- The inner loop of `insertion_sort`: move `addrs[j]` down while `j > 0` and its left
neighbour is larger. The bound is `j > 0`, not `j > min`. -/
def insertionInner (a : Int → Nat) (j : Int) : Int → Nat :=
  if 0 < j ∧ a (j - 1) > a j then insertionInner (swap a j (j - 1)) (j - 1) else a
termination_by j.toNat

/-- The outer loop of `insertion_sort`: `i` runs over `[min + 1, max]`. -/
def insertionOuter (max : Int) (a : Int → Nat) (i : Int) : Int → Nat :=
  if i ≤ max then insertionOuter max (insertionInner a i) (i + 1) else a
termination_by (max + 1 - i).toNat

/-- `insertion_sort(addrs, min, max)`. -/
def insertionSort (a : Int → Nat) (min max : Int) : Int → Nat :=
  insertionOuter max a (min + 1)

/-- The indices `j` of the calls `swap(addrs, j, j - 1)` the inner loop makes from `j`, in
order: a ghost trace of `insertionInner`. -/
def insertionInnerSwaps (a : Int → Nat) (j : Int) : List Int :=
  if 0 < j ∧ a (j - 1) > a j then j :: insertionInnerSwaps (swap a j (j - 1)) (j - 1) else []
termination_by j.toNat

/-- The swaps of the outer loop from `i`, in order. -/
def insertionOuterSwaps (max : Int) (a : Int → Nat) (i : Int) : List Int :=
  if i ≤ max then insertionInnerSwaps a i ++ insertionOuterSwaps max (insertionInner a i) (i + 1)
  else []
termination_by (max + 1 - i).toNat

/-- The swaps `insertion_sort(addrs, min, max)` makes. -/
def insertionSortSwaps (a : Int → Nat) (min max : Int) : List Int :=
  insertionOuterSwaps max a (min + 1)

/-- `SORT_THRESHOLD`. -/
def SORT_THRESHOLD : Int := 16

/-! ## Permutations confined to an index range -/

/-- `b` is `a` with its entries permuted within `[lo, hi]`: some permutation of the
indices that moves only indices of the range carries `b` to `a`. -/
def PermOn (lo hi : Int) (a b : Int → Nat) : Prop :=
  ∃ σ : Equiv.Perm Int, (∀ k, σ k ≠ k → lo ≤ k ∧ k ≤ hi) ∧ b = a ∘ σ

/-- `a` is ascending on `[lo, hi]`. -/
def SortedOn (a : Int → Nat) (lo hi : Int) : Prop :=
  ∀ k l, lo ≤ k → k ≤ l → l ≤ hi → a k ≤ a l

theorem swap_eq_comp (a : Int → Nat) (n m : Int) : swap a n m = a ∘ Equiv.swap m n :=
  (Equiv.comp_swap_eq_update m n a).symm

@[simp] theorem swap_apply_left (a : Int → Nat) (n m : Int) : swap a n m n = a m := by
  by_cases h : n = m <;> simp [swap, Function.update_apply, h]

@[simp] theorem swap_apply_right (a : Int → Nat) (n m : Int) : swap a n m m = a n := by
  simp [swap]

theorem swap_apply_of_ne (a : Int → Nat) {n m k : Int} (hn : k ≠ n) (hm : k ≠ m) :
    swap a n m k = a k := by
  simp [swap, Function.update_apply, hn, hm]

theorem swap_apply (a : Int → Nat) (n m k : Int) :
    swap a n m k = if k = m then a n else if k = n then a m else a k := by
  simp only [swap, Function.update_apply]

namespace PermOn

variable {lo hi : Int} {a b c : Int → Nat}

theorem refl (lo hi : Int) (a : Int → Nat) : PermOn lo hi a a :=
  ⟨1, fun _ hk => absurd rfl hk, rfl⟩

theorem trans (h₁ : PermOn lo hi a b) (h₂ : PermOn lo hi b c) : PermOn lo hi a c := by
  obtain ⟨σ, hσ, rfl⟩ := h₁
  obtain ⟨τ, hτ, rfl⟩ := h₂
  refine ⟨τ.trans σ, fun k hk => ?_, rfl⟩
  by_cases h : τ k = k
  · exact hσ k (by simpa [h] using hk)
  · exact hτ k h

theorem mono {lo' hi' : Int} (h : PermOn lo hi a b) (hlo : lo' ≤ lo) (hhi : hi ≤ hi') :
    PermOn lo' hi' a b := by
  obtain ⟨σ, hσ, rfl⟩ := h
  exact ⟨σ, fun k hk => ⟨hlo.trans (hσ k hk).1, (hσ k hk).2.trans hhi⟩, rfl⟩

theorem swap {n m : Int} (hn : lo ≤ n ∧ n ≤ hi) (hm : lo ≤ m ∧ m ≤ hi) :
    PermOn lo hi a (ForkScan.swap a n m) := by
  refine ⟨Equiv.swap m n, fun k hk => ?_, swap_eq_comp a n m⟩
  by_cases h₁ : k = m
  · exact h₁ ▸ hm
  by_cases h₂ : k = n
  · exact h₂ ▸ hn
  exact absurd (Equiv.swap_apply_of_ne_of_ne h₁ h₂) hk

/-- Indices outside the range keep their entries. -/
theorem frame (h : PermOn lo hi a b) {k : Int} (hk : k < lo ∨ hi < k) : b k = a k := by
  obtain ⟨σ, hσ, rfl⟩ := h
  by_cases h : σ k = k
  · simp [h]
  · have := hσ k h; omega

/-- A permutation that moves only indices of the range maps the range into itself. -/
theorem mapsTo_range {σ : Equiv.Perm Int} (hσ : ∀ k, σ k ≠ k → lo ≤ k ∧ k ≤ hi) {k : Int}
    (hk₁ : lo ≤ k) (hk₂ : k ≤ hi) : lo ≤ σ k ∧ σ k ≤ hi := by
  by_contra hout
  -- `σ k` lies outside the range, so `σ` fixes it; injectivity then fixes `k` too
  have hfix : σ (σ k) = σ k := by
    by_contra hne
    exact hout (hσ _ hne)
  rw [σ.injective hfix] at hout
  exact hout ⟨hk₁, hk₂⟩

/-- Every entry of `b` inside the range is an entry of `a` inside the range. -/
theorem exists_eq (h : PermOn lo hi a b) {k : Int} (hk₁ : lo ≤ k) (hk₂ : k ≤ hi) :
    ∃ k', lo ≤ k' ∧ k' ≤ hi ∧ b k = a k' := by
  obtain ⟨σ, hσ, rfl⟩ := h
  obtain ⟨h₁, h₂⟩ := mapsTo_range hσ hk₁ hk₂
  exact ⟨σ k, h₁, h₂, rfl⟩

/-- **The entries `b[0..n)` are those of `a[0..n)`, counted with multiplicity.** -/
theorem map_range_perm {n : Nat} (h : PermOn 0 (n - 1) a b) :
    ((List.range n).map fun i : Nat => b i).Perm ((List.range n).map fun i : Nat => a i) := by
  obtain ⟨σ, hσ, rfl⟩ := h
  have hin : ∀ i ∈ List.range n, 0 ≤ σ i ∧ σ i < n := fun i hi => by
    have := mapsTo_range hσ (k := i) (by omega) (by simp at hi; omega); omega
  -- `σ` permutes the indices `[0, n)`
  have hperm : ((List.range n).map fun i : Nat => (σ i).toNat).Perm (List.range n) := by
    refine (List.subperm_of_subset ((List.nodup_range n).map_on fun i hi j hj hij => ?_)
      fun x hx => ?_).perm_of_length_le (by simp)
    · have := hin i hi; have := hin j hj
      exact_mod_cast σ.injective (by omega : σ i = σ j)
    · obtain ⟨i, hi, rfl⟩ := List.mem_map.mp hx
      have := hin i hi; simp; omega
  have heq : ((List.range n).map fun i : Nat => (a ∘ σ) i) =
      ((List.range n).map fun i : Nat => (σ i).toNat).map fun i : Nat => a i := by
    rw [List.map_map]
    exact List.map_congr_left fun i hi => by simp [Int.toNat_of_nonneg (hin i hi).1]
  exact heq ▸ hperm.map _

/-- A bound on every entry of `a` in the range holds of every entry of `b` there. -/
theorem forall_range (h : PermOn lo hi a b) {P : Nat → Prop}
    (hP : ∀ k, lo ≤ k → k ≤ hi → P (a k)) : ∀ k, lo ≤ k → k ≤ hi → P (b k) := by
  intro k hk₁ hk₂
  obtain ⟨k', h₁, h₂, hk⟩ := h.exists_eq hk₁ hk₂
  exact hk ▸ hP k' h₁ h₂

end PermOn

/-! ## `partition` -/

/-- The invariant of the `partition` loop at `(i, mid)`: `[min, mid)` holds elements at most
the pivot value and `[mid, i)` elements above it. -/
structure PartitionInv (pivotVal : Nat) (min : Int) (a : Int → Nat) (i mid : Int) : Prop where
  mid_ge : min ≤ mid
  mid_le : mid ≤ i
  low : ∀ k, min ≤ k → k < mid → a k ≤ pivotVal
  high : ∀ k, mid ≤ k → k < i → pivotVal < a k

/-- The loop only moves `mid` forward and never past `max`. -/
theorem partitionLoop_mid_bounds (pivotVal : Nat) (max : Int) (a : Int → Nat) (i mid : Int)
    (h₁ : mid ≤ i) (h₂ : i ≤ max) :
    mid ≤ (partitionLoop pivotVal max a i mid).2 ∧ (partitionLoop pivotVal max a i mid).2 ≤ max := by
  induction a, i, mid using partitionLoop.induct pivotVal max with
  | case1 a i mid hi _ ih =>
    rw [partitionLoop, if_pos hi, if_pos ‹_›]
    have := ih (by omega) (by omega); omega
  | case2 a i mid hi _ ih =>
    rw [partitionLoop, if_pos hi, if_neg ‹_›]
    have := ih (by omega) (by omega); omega
  | case3 a i mid hi =>
    rw [partitionLoop, if_neg hi]; omega

/-- One iteration keeps the invariant; at `i = max` it describes the whole of `[min, max)`. -/
theorem partitionLoop_spec (pivotVal : Nat) (min max : Int) (a : Int → Nat) (i mid : Int)
    (hi : i ≤ max) (hinv : PartitionInv pivotVal min a i mid) :
    PermOn min (max - 1) a (partitionLoop pivotVal max a i mid).1 ∧
      PartitionInv pivotVal min (partitionLoop pivotVal max a i mid).1 max
        (partitionLoop pivotVal max a i mid).2 := by
  induction a, i, mid using partitionLoop.induct pivotVal max with
  | case1 a i mid hlt hle ih =>
    rw [partitionLoop, if_pos hlt, if_pos hle]
    obtain ⟨h₁, h₂, hlow, hhigh⟩ := hinv
    have hinv' : PartitionInv pivotVal min (swap a i mid) (i + 1) (mid + 1) := by
      refine ⟨by omega, by omega, fun k hk₁ hk₂ => ?_, fun k hk₁ hk₂ => ?_⟩
      · rw [swap_apply]
        split_ifs with hm hn
        · exact hle
        · omega
        · exact hlow k hk₁ (by omega)
      · rw [swap_apply]
        split_ifs with hm hn
        · omega
        · exact hhigh mid le_rfl (by omega)
        · exact hhigh k (by omega) (by omega)
    obtain ⟨hp, hinv''⟩ := ih (by omega) hinv'
    exact ⟨(PermOn.swap ⟨by omega, by omega⟩ ⟨by omega, by omega⟩).trans hp, hinv''⟩
  | case2 a i mid hlt hle ih =>
    rw [partitionLoop, if_pos hlt, if_neg hle]
    obtain ⟨h₁, h₂, hlow, hhigh⟩ := hinv
    refine ih (by omega) ⟨h₁, by omega, hlow, fun k hk₁ hk₂ => ?_⟩
    rcases lt_or_eq_of_le (Int.lt_add_one_iff.mp hk₂) with hk | rfl
    · exact hhigh k hk₁ hk
    · exact lt_of_not_le hle
  | case3 a i mid hlt =>
    rw [partitionLoop, if_neg hlt]
    exact ⟨PermOn.refl _ _ _, (show i = max by omega) ▸ hinv⟩

/-- The postcondition of `partition(addrs, min, max)`. -/
structure PartitionSpec (min max : Int) (a b : Int → Nat) (mid : Int) : Prop where
  perm : PermOn min max a b
  mid_ge : min ≤ mid
  mid_le : mid ≤ max
  left : ∀ k, min ≤ k → k < mid → b k ≤ b mid
  right : ∀ k, mid < k → k ≤ max → b mid < b k

theorem partition_mid_bounds (a : Int → Nat) (min max : Int) (h : min ≤ max) :
    min ≤ (partition a min max).2 ∧ (partition a min max).2 ≤ max :=
  partitionLoop_mid_bounds _ max _ min min le_rfl h

theorem partition_spec (a : Int → Nat) {min max : Int} (h₀ : 0 ≤ min) (h : min ≤ max) :
    PartitionSpec min max a (partition a min max).1 (partition a min max).2 := by
  have hp : min ≤ (max + min).tdiv 2 ∧ (max + min).tdiv 2 ≤ max := by
    rw [Int.tdiv_eq_ediv (by omega) (by omega)]; omega
  simp only [partition]
  generalize (max + min).tdiv 2 = p at hp ⊢
  obtain ⟨hperm, ⟨hmid₁, hmid₂, hlow, hhigh⟩⟩ :=
    partitionLoop_spec (a p) min max (swap a p max) min min h
      ⟨le_rfl, le_rfl, fun _ _ _ => by omega, fun _ _ _ => by omega⟩
  generalize partitionLoop (a p) max (swap a p max) min min = r at hperm hmid₁ hmid₂ hlow hhigh ⊢
  obtain ⟨b, mid⟩ := r
  simp only at hperm hmid₁ hmid₂ hlow hhigh ⊢
  -- the loop never touches `max`, where the pivot value is parked
  have hpark : b max = a p := by
    rw [hperm.frame (by omega)]; simp
  have hperm' : PermOn min max a b :=
    (PermOn.swap hp ⟨h, le_rfl⟩).trans (hperm.mono le_rfl (by omega))
  refine ⟨hperm'.trans (PermOn.swap ⟨hmid₁, hmid₂⟩ ⟨h, le_rfl⟩), hmid₁, hmid₂,
    fun k hk₁ hk₂ => ?_, fun k hk₁ hk₂ => ?_⟩
  · rw [swap_apply_left, hpark, swap_apply_of_ne _ (by omega) (by omega)]
    exact hlow k hk₁ hk₂
  · rw [swap_apply_left, hpark, swap_apply]
    split_ifs with hm hn
    · exact hhigh mid le_rfl (by omega)
    · omega
    · exact hhigh k (by omega) (by omega)

/-! ## `insertion_sort` -/

/-- Every element at a non-negative index below `lo` is at most every element of
`[lo, hi]`: the precondition under which the `j > 0` bound of the inner loop stops at `lo`. -/
def BelowLe (a : Int → Nat) (lo hi : Int) : Prop :=
  ∀ k m, 0 ≤ k → k < lo → lo ≤ m → m ≤ hi → a k ≤ a m

theorem SortedOn.mono {a : Int → Nat} {lo hi lo' hi' : Int} (h : SortedOn a lo hi)
    (hlo : lo ≤ lo') (hhi : hi' ≤ hi) : SortedOn a lo' hi' :=
  fun k l hk hkl hl => h k l (hlo.trans hk) hkl (hl.trans hhi)

/-- Two ascending ranges that meet in order make one. -/
theorem SortedOn.join {a : Int → Nat} {lo m hi : Int} (h₁ : SortedOn a lo (m - 1))
    (h₂ : SortedOn a m hi) (h : lo ≤ m - 1 → m ≤ hi → a (m - 1) ≤ a m) :
    SortedOn a lo hi := by
  intro k l hk hkl hl
  by_cases hl' : l ≤ m - 1
  · exact h₁ k l hk hkl hl'
  by_cases hk' : m ≤ k
  · exact h₂ k l hk' hkl hl
  calc a k ≤ a (m - 1) := h₁ k (m - 1) hk (by omega) le_rfl
    _ ≤ a m := h (by omega) (by omega)
    _ ≤ a l := h₂ m l le_rfl (by omega) hl

theorem SortedOn.single (a : Int → Nat) (k : Int) : SortedOn a k k :=
  fun k' l _ hkl hl => by rw [show k' = l by omega]

/-- **An array ascending on `[0, n)` lists `a[0..n)` in ascending order.** -/
theorem SortedOn.sorted_map_range {a : Int → Nat} {n : Nat} (h : SortedOn a 0 (n - 1)) :
    ((List.range n).map fun i : Nat => a i).Sorted (· ≤ ·) := by
  rw [List.Sorted, List.pairwise_map]
  exact (List.pairwise_lt_range n).imp_of_mem fun _ hj hij =>
    h _ _ (by omega) (by omega) (by simp at hj; omega)

theorem BelowLe.perm {a b : Int → Nat} {lo hi : Int} (h : BelowLe a lo hi)
    (hp : PermOn lo hi a b) : BelowLe b lo hi := by
  intro k m hk hklo hm₁ hm₂
  rw [hp.frame (Or.inl hklo)]
  exact hp.forall_range (fun m' h₁ h₂ => h k m' hk hklo h₁ h₂) m hm₁ hm₂

theorem BelowLe.mono {a : Int → Nat} {lo hi hi' : Int} (h : BelowLe a lo hi) (hhi : hi' ≤ hi) :
    BelowLe a lo hi' :=
  fun k m hk hklo hm₁ hm₂ => h k m hk hklo hm₁ (hm₂.trans hhi)

/-- The inner loop inserts `a[j]` into the ascending `[lo, j)` in front of the ascending
`[j, i]`. When `j` reaches `lo` the `BelowLe` precondition makes the test
`addrs[j - 1] > addrs[j]` fail, so the loop never swaps across `lo`: every swap it makes is at
an index in `(lo, j]`. -/
theorem insertionInner_spec (a : Int → Nat) {lo i j : Int} (h₀ : 0 ≤ lo) (hj : lo ≤ j)
    (hji : j ≤ i) (hs₁ : SortedOn a lo (j - 1)) (hs₂ : SortedOn a j i)
    (hgap : lo ≤ j - 1 → j + 1 ≤ i → a (j - 1) ≤ a (j + 1)) (hbelow : BelowLe a lo i) :
    PermOn lo i a (insertionInner a j) ∧ SortedOn (insertionInner a j) lo i ∧
      ∀ j' ∈ insertionInnerSwaps a j, lo < j' ∧ j' ≤ j := by
  induction a, j using insertionInner.induct with
  | case1 a j hswap ih =>
    rw [insertionInner, insertionInnerSwaps, if_pos hswap, if_pos hswap]
    obtain ⟨hj₀, hgt⟩ := hswap
    have hlt : lo < j := by
      rcases lt_or_eq_of_le hj with h | rfl
      · exact h
      · exact absurd (hbelow (lo - 1) lo (by omega) (by omega) le_rfl hji) (not_le.mpr hgt)
    set b := swap a j (j - 1)
    have hpb : PermOn lo i a b := PermOn.swap ⟨by omega, hji⟩ ⟨by omega, by omega⟩
    have hb_lo : ∀ k, k < j - 1 → b k = a k := fun k hk =>
      swap_apply_of_ne a (by omega) (by omega)
    have hb_hi : ∀ k, j < k → b k = a k := fun k hk =>
      swap_apply_of_ne a (by omega) (by omega)
    -- the ranges `[j + 1, i]`, then `[j, i]`, then `[j - 1, i]` are ascending in `b`
    have hs₃ : SortedOn b (j + 1) i := fun k l hk hkl hl => by
      rw [hb_hi k (by omega), hb_hi l (by omega)]; exact hs₂ k l (by omega) hkl hl
    have hs₄ : SortedOn b j i := by
      refine SortedOn.join (m := j + 1) (by simpa using SortedOn.single b j) hs₃ fun _ h => ?_
      rw [show j + 1 - 1 = j by omega, hb_hi (j + 1) (by omega)]
      simp only [b, swap_apply_left]
      exact hgap (by omega) h
    have hs₅ : SortedOn b (j - 1) i := by
      refine SortedOn.join (m := j) (SortedOn.single b (j - 1)) hs₄ fun _ _ => ?_
      simp only [b, swap_apply_left, swap_apply_right]
      exact le_of_lt hgt
    obtain ⟨hp, hs, hsw⟩ := ih (by omega) (by omega)
      (fun k l hk hkl hl => by
        rw [hb_lo k (by omega), hb_lo l (by omega)]; exact hs₁ k l hk hkl (by omega))
      hs₅
      (fun _ _ => by
        rw [hb_lo (j - 1 - 1) (by omega), show j - 1 + 1 = j by omega]
        simp only [b, swap_apply_left]
        exact hs₁ _ _ (by omega) (by omega) le_rfl)
      (hbelow.perm hpb)
    refine ⟨hpb.trans hp, hs, fun j' hj' => ?_⟩
    rcases List.mem_cons.mp hj' with rfl | hj'
    · exact ⟨hlt, le_rfl⟩
    · have := hsw j' hj'; omega
  | case2 a j hstop =>
    rw [insertionInner, insertionInnerSwaps, if_neg hstop, if_neg hstop]
    refine ⟨PermOn.refl _ _ _, SortedOn.join hs₁ hs₂ fun h _ => ?_, nofun⟩
    exact not_lt.mp fun hgt => hstop ⟨by omega, hgt⟩

/-- The outer loop extends the ascending prefix `[lo, i)` by one element per iteration. -/
theorem insertionOuter_spec (a : Int → Nat) {lo max i : Int} (h₀ : 0 ≤ lo) (hi : lo + 1 ≤ i)
    (hs : SortedOn a lo (i - 1)) (hbelow : BelowLe a lo max) :
    PermOn lo max a (insertionOuter max a i) ∧ SortedOn (insertionOuter max a i) lo max ∧
      ∀ j ∈ insertionOuterSwaps max a i, lo < j ∧ j ≤ max := by
  induction a, i using insertionOuter.induct max with
  | case1 a i hle ih =>
    rw [insertionOuter, insertionOuterSwaps, if_pos hle, if_pos hle]
    obtain ⟨hp, hs', hsw⟩ := insertionInner_spec a h₀ (by omega) le_rfl hs (SortedOn.single a i)
      (fun _ h => absurd h (by omega)) (hbelow.mono hle)
    obtain ⟨hp', hs'', hsw'⟩ :=
      ih (by omega) (by simpa using hs') (hbelow.perm (hp.mono le_rfl hle))
    refine ⟨(hp.mono le_rfl hle).trans hp', hs'', fun j hj => ?_⟩
    rcases List.mem_append.mp hj with hj | hj
    · have := hsw j hj; omega
    · exact hsw' j hj
  | case2 a i hgt =>
    rw [insertionOuter, insertionOuterSwaps, if_neg hgt, if_neg hgt]
    exact ⟨PermOn.refl _ _ _, hs.mono le_rfl (by omega), nofun⟩

theorem insertionSort_spec (a : Int → Nat) {min max : Int} (h₀ : 0 ≤ min)
    (hbelow : BelowLe a min max) :
    PermOn min max a (insertionSort a min max) ∧ SortedOn (insertionSort a min max) min max ∧
      ∀ j ∈ insertionSortSwaps a min max, min < j ∧ j ≤ max :=
  insertionOuter_spec a h₀ le_rfl (by simpa using SortedOn.single a min) hbelow

/-! ## `quicksort` -/

/-- `quicksort(addrs, min, max)`: partition and recurse while the range holds more than
`SORT_THRESHOLD + 1` elements, insertion sort below. -/
def quicksort (a : Int → Nat) (min max : Int) : Int → Nat :=
  if max - min > SORT_THRESHOLD then
    let r := partition a min max
    quicksort (quicksort r.1 min (r.2 - 1)) (r.2 + 1) max
  else insertionSort a min max
termination_by (max - min + 1).toNat
decreasing_by
  all_goals
    have := partition_mid_bounds a min max (by simp only [SORT_THRESHOLD] at *; omega)
    simp only [SORT_THRESHOLD] at *
    omega

/-- An ascending range left of a pivot, the pivot, and an ascending range right of it make
one ascending range when the pivot separates them. -/
theorem SortedOn.around {d : Int → Nat} {lo m hi : Int} (h₁ : SortedOn d lo (m - 1))
    (h₂ : SortedOn d (m + 1) hi) (hl : ∀ k, lo ≤ k → k ≤ m - 1 → d k ≤ d m)
    (hr : ∀ k, m + 1 ≤ k → k ≤ hi → d m ≤ d k) : SortedOn d lo hi := by
  have hmid : SortedOn d lo m :=
    SortedOn.join h₁ (SortedOn.single d m) fun h _ => hl (m - 1) h le_rfl
  exact SortedOn.join (m := m + 1) (by simpa using hmid) h₂
    fun _ h => by simpa using hr (m + 1) le_rfl h

/-- The precondition of the right recursive call. The partition leaves the pivot at `mid` with
everything of `[min, mid)` at most it and everything of `(mid, max]` above it; the left call
only permutes `[min, mid)`. So everything below `mid + 1` is at most everything of
`[mid + 1, max]`. -/
theorem BelowLe.right_call {a b c : Int → Nat} {min max mid : Int} (hbelow : BelowLe a min max)
    (ps : PartitionSpec min max a b mid) (hp : PermOn min (mid - 1) b c) :
    BelowLe c (mid + 1) max := by
  have hbelow_b : BelowLe b min max := hbelow.perm ps.perm
  have hc_right : ∀ k, mid - 1 < k → c k = b k := fun k hk => hp.frame (Or.inr hk)
  intro k m hk hkm hm₁ hm₂
  have hm : b mid < b m := ps.right m (by omega) hm₂
  have := ps.mid_ge
  rw [hc_right m (by omega)]
  rcases lt_or_le k min with hk' | hk'
  · rw [hp.frame (Or.inl hk')]; exact hbelow_b k m hk hk' (by omega) hm₂
  by_cases hkmid : k = mid
  · rw [hkmid, hc_right mid (by omega)]; exact le_of_lt hm
  obtain ⟨k', h₁, h₂, hk''⟩ := hp.exists_eq (k := k) hk' (by omega)
  rw [hk'']
  exact (ps.left k' h₁ (by omega)).trans (le_of_lt hm)

/-- **The recursion of `quicksort`.** A call whose range has only smaller-or-equal elements
below it returns the range ascending and permuted within itself. Both recursive calls
inherit that precondition: the left one from its caller, the right one because the
partition leaves the pivot and everything at most it below `mid + 1`. -/
theorem quicksort_spec (a : Int → Nat) {min max : Int} (h₀ : 0 ≤ min)
    (hbelow : BelowLe a min max) :
    PermOn min max a (quicksort a min max) ∧ SortedOn (quicksort a min max) min max := by
  induction a, min, max using quicksort.induct with
  | case1 a min max hgt r ih₁ _ ih₂ =>
    have hr : r = partition a min max := rfl
    clear_value r
    subst hr
    rw [quicksort, if_pos hgt]
    simp only [SORT_THRESHOLD] at hgt
    have ps := partition_spec a h₀ (show min ≤ max by omega)
    generalize partition a min max = r at ps ih₁ ih₂ ⊢
    obtain ⟨b, mid⟩ := r
    simp only at ih₁ ih₂ ⊢
    obtain ⟨hpb, hmid₁, hmid₂, hleft, hright⟩ := ps
    obtain ⟨hp₁, hs₁⟩ := ih₁ h₀ ((hbelow.perm hpb).mono (by omega))
    obtain ⟨hp₂, hs₂⟩ := ih₂ (by omega) (hbelow.right_call ⟨hpb, hmid₁, hmid₂, hleft, hright⟩ hp₁)
    set c := quicksort b min (mid - 1)
    have hc_right : ∀ k, mid - 1 < k → c k = b k := fun k hk => hp₁.frame (Or.inr hk)
    refine ⟨hpb.trans ((hp₁.mono le_rfl (by omega)).trans (hp₂.mono (by omega) le_rfl)), ?_⟩
    have hd_left : ∀ k, k < mid + 1 → quicksort c (mid + 1) max k = c k :=
      fun k hk => hp₂.frame (Or.inl hk)
    refine SortedOn.around (m := mid) (fun k l hk hkl hl => ?_) hs₂ (fun k hk₁ hk₂ => ?_)
      (fun k hk₁ hk₂ => ?_)
    · rw [hd_left k (by omega), hd_left l (by omega)]; exact hs₁ k l hk hkl hl
    · rw [hd_left k (by omega), hd_left mid (by omega), hc_right mid (by omega)]
      obtain ⟨k', h₁, h₂, hk'⟩ := hp₁.exists_eq hk₁ hk₂
      exact hk' ▸ hleft k' h₁ (by omega)
    · rw [hd_left mid (by omega), hc_right mid (by omega)]
      obtain ⟨k', h₁, h₂, hk'⟩ := hp₂.exists_eq hk₁ hk₂
      rw [hk', hc_right k' (by omega)]
      exact le_of_lt (hright k' (by omega) h₂)
  | case2 a min max hle =>
    rw [quicksort, if_neg hle]
    exact (insertionSort_spec a h₀ hbelow).imp_right And.left

/-- `forkgc_util_sort(a, length)`: sort the array `a[0..length)` in place. -/
def forkgcUtilSort (a : Int → Nat) (length : Int) : Int → Nat :=
  quicksort a 0 (length - 1)

/-- `forkgc_util_sort` leaves `a[0..length)` ascending and permuted within itself; no
other index changes. -/
theorem forkgcUtilSort_spec (a : Int → Nat) (length : Int) :
    PermOn 0 (length - 1) a (forkgcUtilSort a length) ∧
      SortedOn (forkgcUtilSort a length) 0 (length - 1) :=
  quicksort_spec a le_rfl fun _ _ hk hk' _ _ => absurd hk' (not_lt.mpr hk)

/-- `forkgc_util_sort` lists `a[0..length)` as the ascending permutation of its entries: a sorted
permutation of a list is unique. -/
theorem map_range_forkgcUtilSort (a : Int → Nat) (n : Nat) :
    ((List.range n).map fun i : Nat => forkgcUtilSort a n i) =
      ((List.range n).map fun i : Nat => a i).insertionSort (· ≤ ·) := by
  obtain ⟨hperm, hsorted⟩ := forkgcUtilSort_spec a n
  exact List.eq_of_perm_of_sorted
    ((PermOn.map_range_perm hperm).trans (List.perm_insertionSort _ _).symm)
    (SortedOn.sorted_map_range hsorted) (List.sorted_insertionSort _ _)

/-- Two functions that list the same over `[0, n)` agree there. -/
theorem eq_of_map_range_eq {f g : Nat → Nat} {n : Nat}
    (h : (List.range n).map f = (List.range n).map g) {k : Nat} (hk : k < n) : f k = g k :=
  List.map_inj_left.mp h k (List.mem_range.mpr hk)

/-- An array already ascending on `[0, n)` comes back from `forkgc_util_sort` unchanged. -/
theorem forkgcUtilSort_of_sorted (a : Int → Nat) (n : Nat)
    (hs : ((List.range n).map fun i : Nat => a i).Sorted (· ≤ ·)) : forkgcUtilSort a n = a := by
  have hlist := (map_range_forkgcUtilSort a n).trans hs.insertionSort_eq
  funext k
  by_cases hk : 0 ≤ k ∧ k < n
  · simpa [Int.toNat_of_nonneg hk.1] using eq_of_map_range_eq hlist (show k.toNat < n by omega)
  · exact (forkgcUtilSort_spec a n).1.frame (by omega)

/-- **`forkgc_util_sort` sorts in place.** For every array and every length `n ≥ 0`, the sort
(total: its recursion is on the length of the range) leaves `a[0..n)` as the ascending
permutation of its entries and every other index unchanged; what it leaves in `a[0..n)`
depends on `a[0..n)` only; and an array already ascending on `[0, n)` comes back unchanged. -/
theorem forkgcUtilSort_sorts (a : Int → Nat) (n : Nat) :
    ((List.range n).map fun i : Nat => forkgcUtilSort a n i) =
        ((List.range n).map fun i : Nat => a i).insertionSort (· ≤ ·) ∧
      (∀ k : Int, k < 0 ∨ n ≤ k → forkgcUtilSort a n k = a k) ∧
      (∀ a' : Int → Nat, (∀ k : Int, 0 ≤ k → k < n → a' k = a k) →
        ∀ k : Int, 0 ≤ k → k < n → forkgcUtilSort a' n k = forkgcUtilSort a n k) ∧
      (SortedOn a 0 (n - 1) → forkgcUtilSort a n = a) := by
  have hframe : ∀ k : Int, k < 0 ∨ n ≤ k → forkgcUtilSort a n k = a k := fun k hk =>
    (forkgcUtilSort_spec a n).1.frame (by omega)
  refine ⟨map_range_forkgcUtilSort a n, hframe, fun a' ha' k hk₀ hk => ?_, fun hs => ?_⟩
  · have hlist : ((List.range n).map fun i : Nat => a' i) = (List.range n).map fun i : Nat => a i :=
      List.map_inj_left.mpr fun i hi => ha' i (by omega) (by simp at hi; omega)
    have := eq_of_map_range_eq (f := fun i : Nat => forkgcUtilSort a' n i)
      (g := fun i : Nat => forkgcUtilSort a n i)
      (by rw [map_range_forkgcUtilSort, map_range_forkgcUtilSort, hlist]) (show k.toNat < n by omega)
    simpa [Int.toNat_of_nonneg hk₀] using this
  · exact forkgcUtilSort_of_sorted a n (SortedOn.sorted_map_range hs)

end ForkScan
