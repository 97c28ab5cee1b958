import ForkScan.Sort

/-!
# ForkScan — the calls `forkgc_util_sort` makes

`quicksort` recurses on `[min, mid - 1]` and then on `[mid + 1, max]`, each call on the array
the previous one left. `quicksortCalls` lists every call the recursion makes, itself first,
with the array it is made on: the log of `quicksortTraced`, which runs the recursion of
`quicksort` and appends each call as it starts, and computes `quicksort`'s arrays
(`quicksortTraced_fst`). It lets us state facts about every call and not only about the
result.

* `quicksortCalls_below` — every call is made with every entry below its range at most every
  entry of the range, the precondition under which `insertion_sort`, whose inner loop runs
  while `j > 0`, stays inside its range (`sort_calls_below`).
* `quicksortCalls_bounds` — the ranges of the calls stay inside the first one, so the indices
  the sort computes with lie in `[0, length]`; but `partition` adds `max + min` before halving,
  and a call on the upper half of an array longer than about `2^31 · 2/3` entries overflows
  the `int` (`sort_midpoint_overflows`), while up to `2^30 + 8` entries nothing does
  (`sort_calls_within_int`).
-/

namespace ForkScan

/-- `quicksort(addrs, min, max)` keeping a log: each call appends itself, with the array it is
called on, as it starts, and the array the left recursive call returns is the one the right call
takes. -/
def quicksortTraced (a : Int → Nat) (min max : Int) :
    (Int → Nat) × List ((Int → Nat) × Int × Int) :=
  if max - min > SORT_THRESHOLD then
    let r := partition a min max
    let left := quicksortTraced r.1 min (r.2 - 1)
    let right := quicksortTraced left.1 (r.2 + 1) max
    (right.1, (a, min, max) :: (left.2 ++ right.2))
  else (insertionSort a min max, [(a, min, max)])
termination_by (max - min + 1).toNat
decreasing_by
  all_goals
    have hgt : max - min > SORT_THRESHOLD := ‹_›
    have := partition_mid_bounds a min max (by simp only [SORT_THRESHOLD] at hgt; omega)
    omega

/-- **The logging run computes `quicksort`**: the log is kept alongside the recursion of
`quicksort` and changes none of its arrays. -/
theorem quicksortTraced_fst (a : Int → Nat) (min max : Int) :
    (quicksortTraced a min max).1 = quicksort a min max := by
  induction a, min, max using quicksort.induct with
  | case1 a min max hgt r ih₁ _ ih₂ =>
    have hr : r = partition a min max := rfl
    clear_value r
    subst hr
    rw [quicksortTraced, if_pos hgt, quicksort, if_pos hgt]
    dsimp only
    rw [ih₁, ih₂]
  | case2 a min max hle => rw [quicksortTraced, if_neg hle, quicksort, if_neg hle]

/-- Every call `quicksort(addrs, min, max)` makes, itself first, with the array it is called
on, in the order the C code makes them: the log of `quicksortTraced`. -/
def quicksortCalls (a : Int → Nat) (min max : Int) : List ((Int → Nat) × Int × Int) :=
  (quicksortTraced a min max).2

/-- A partitioning call logs itself, then the calls of its left recursive call, then those of
its right one, which is made on the array `quicksort` returns from the left. -/
theorem quicksortCalls_eq (a : Int → Nat) (min max : Int) :
    quicksortCalls a min max =
      if max - min > SORT_THRESHOLD then
        (a, min, max) :: (quicksortCalls (partition a min max).1 min ((partition a min max).2 - 1) ++
          quicksortCalls (quicksort (partition a min max).1 min ((partition a min max).2 - 1))
            ((partition a min max).2 + 1) max)
      else [(a, min, max)] := by
  unfold quicksortCalls
  rw [quicksortTraced]
  split_ifs <;> simp only [quicksortTraced_fst]

theorem mem_quicksortCalls_self (a : Int → Nat) (min max : Int) :
    (a, min, max) ∈ quicksortCalls a min max := by
  rw [quicksortCalls_eq]; split_ifs <;> exact List.mem_cons_self _ _

/-- The calls of a partitioning call: itself, the left call's, and the right call's. -/
theorem mem_quicksortCalls_of_gt {a : Int → Nat} {min max : Int}
    (hgt : max - min > SORT_THRESHOLD) {c : (Int → Nat) × Int × Int} :
    c ∈ quicksortCalls a min max ↔ c = (a, min, max) ∨
      c ∈ quicksortCalls (partition a min max).1 min ((partition a min max).2 - 1) ∨
      c ∈ quicksortCalls (quicksort (partition a min max).1 min ((partition a min max).2 - 1))
        ((partition a min max).2 + 1) max := by
  rw [quicksortCalls_eq, if_pos hgt, List.mem_cons, List.mem_append]

/-- A call below the threshold makes no further call. -/
theorem quicksortCalls_of_le {a : Int → Nat} {min max : Int}
    (hle : ¬ max - min > SORT_THRESHOLD) : quicksortCalls a min max = [(a, min, max)] := by
  rw [quicksortCalls_eq, if_neg hle]

/-- Every call lies inside the range of the first one and does not end more than one index
before it starts. -/
theorem quicksortCalls_bounds (a : Int → Nat) {min max : Int} (h : min ≤ max + 1) :
    ∀ c ∈ quicksortCalls a min max, min ≤ c.2.1 ∧ c.2.1 ≤ c.2.2 + 1 ∧ c.2.2 ≤ max := by
  induction a, min, max using quicksort.induct with
  | case1 a min max hgt r ih₁ _ ih₂ =>
    have hr : r = partition a min max := rfl
    clear_value r
    subst hr
    intro c hc
    have hmid := partition_mid_bounds a min max (by simp only [SORT_THRESHOLD] at hgt; omega)
    rcases (mem_quicksortCalls_of_gt hgt).mp hc with rfl | hc | hc
    · exact ⟨le_rfl, h, le_rfl⟩
    · have := ih₁ (by omega) c hc; omega
    · have := ih₂ (by omega) c hc; omega
  | case2 a min max hle =>
    rw [quicksortCalls_of_le hle]
    intro c hc
    rw [List.mem_singleton.mp hc]
    exact ⟨le_rfl, h, le_rfl⟩

/-- `INT_MAX` of the 32-bit `int` the sort computes its indices in. -/
def INT_MAX : Int := 2 ^ 31 - 1

@[simp] theorem swap_self (a : Int → Nat) (n : Int) : swap a n n = a := by
  simp [swap]

/-- Over a run of entries at most the pivot value, the partition loop swaps each entry with
itself: `i` and `mid` advance together and the array is unchanged. -/
theorem partitionLoop_of_le (v : Nat) (max : Int) (a : Int → Nat) {i j : Int} (hij : i ≤ j)
    (hj : j ≤ max) (hle : ∀ k, i ≤ k → k < j → a k ≤ v) :
    partitionLoop v max a i i = partitionLoop v max a j j := by
  obtain ⟨d, hd⟩ : ∃ d : Nat, j = i + d := ⟨(j - i).toNat, by omega⟩
  induction d generalizing i with
  | zero => subst hd; simp
  | succ d ih =>
    rw [partitionLoop, if_pos (by omega), if_pos (hle i le_rfl (by omega)), swap_self]
    exact ih (by omega) (fun k hk₁ hk₂ => hle k (by omega) hk₂) (by omega)

/-- Over a run of entries above the pivot value, the partition loop moves nothing. -/
theorem partitionLoop_of_gt (v : Nat) (max : Int) (a : Int → Nat) (i mid : Int)
    (hgt : ∀ k, i ≤ k → k < max → v < a k) : partitionLoop v max a i mid = (a, mid) := by
  induction a, i, mid using partitionLoop.induct v max with
  | case1 a i mid hi hle _ => exact absurd hle (not_le.mpr (hgt i le_rfl hi))
  | case2 a i mid hi hle ih =>
    rw [partitionLoop, if_pos hi, if_neg hle]
    exact ih fun k hk₁ hk₂ => hgt k (by omega) hk₂
  | case3 a i mid hi => rw [partitionLoop, if_neg hi]

/-- On a range that rises strictly, `partition` leaves the pivot where it was: `mid` is the
midpoint index. -/
theorem partition_mid_of_strictMono (a : Int → Nat) {min max : Int} (h₀ : 0 ≤ min)
    (h : min < max) (hmono : ∀ k l, min ≤ k → k < l → l ≤ max → a k < a l) :
    (partition a min max).2 = (max + min).tdiv 2 := by
  have hp : min ≤ (max + min).tdiv 2 ∧ (max + min).tdiv 2 < max := by
    rw [Int.tdiv_eq_ediv (by omega) (by omega)]; omega
  simp only [partition]
  generalize (max + min).tdiv 2 = p at hp ⊢
  -- below the pivot every entry is smaller; at the pivot stands `a[max]`; above, larger
  rw [partitionLoop_of_le (a p) max (swap a p max) hp.1 hp.2.le fun k hk₁ hk₂ => by
      rw [swap_apply_of_ne _ (by omega) (by omega)]; exact (hmono k p hk₁ hk₂ hp.2.le).le,
    partitionLoop_of_gt (a p) max (swap a p max) p p fun k hk₁ hk₂ => by
      rw [swap_apply]
      split_ifs with hkmax hkp
      · omega
      · exact hmono p max hp.1 hp.2 le_rfl
      · exact hmono p k hp.1 (by omega) hk₂.le]

/-- The array `a[k] = k`. -/
def identityArray (k : Int) : Nat := k.toNat

/-- **The midpoint `(max + min) / 2` of `partition` overflows an `int`.** Sorting the array
`a[k] = k` of any length `n ≤ INT_MAX` with `n + (n - 1) / 2 ≥ 2^31` (for instance
`n = INT_MAX`), the first partition leaves its pivot at `mid = (n - 1) / 2`, and the right
recursive call `quicksort(a, mid + 1, n - 1)` partitions again, computing
`max + min = n + (n - 1) / 2`, which exceeds `INT_MAX`. -/
theorem sort_midpoint_overflows (n : Nat) (hn : 2 ^ 31 ≤ n + (n - 1) / 2) (hmax : n ≤ INT_MAX) :
    ∃ c ∈ quicksortCalls identityArray 0 (n - 1),
      SORT_THRESHOLD < c.2.2 - c.2.1 ∧ INT_MAX < c.2.2 + c.2.1 := by
  simp only [INT_MAX, SORT_THRESHOLD] at hmax ⊢
  have hgt : (n - 1 : Int) - 0 > SORT_THRESHOLD := by simp only [SORT_THRESHOLD]; omega
  have hmid : (partition identityArray 0 (n - 1)).2 = (n - 1) / 2 := by
    rw [partition_mid_of_strictMono identityArray le_rfl (by omega)
      fun k l hk hkl _ => by simp only [identityArray]; omega,
      Int.tdiv_eq_ediv (by omega) (by omega), add_zero]
  -- the right call of the first partition, `quicksort(a, mid + 1, n - 1)`
  refine ⟨_, (mem_quicksortCalls_of_gt hgt).mpr (.inr (.inr (mem_quicksortCalls_self _ _ _))), ?_⟩
  simp only [hmid]
  omega

theorem sort_midpoint_overflows_at_int_max :
    2 ^ 31 ≤ (2 ^ 31 - 1) + (2 ^ 31 - 1 - 1) / 2 ∧ ((2 ^ 31 - 1 : Nat) : Int) ≤ INT_MAX ∧
      ∃ c ∈ quicksortCalls identityArray 0 ((2 ^ 31 - 1 : Nat) - 1),
        SORT_THRESHOLD < c.2.2 - c.2.1 ∧ INT_MAX < c.2.2 + c.2.1 :=
  ⟨by omega, by simp only [INT_MAX]; omega,
    sort_midpoint_overflows (2 ^ 31 - 1) (by omega) (by simp only [INT_MAX]; omega)⟩

/-- **Up to `2^30 + 8` entries the sort stays within `int`.** Every call that
`forkgc_util_sort(a, n)` makes works on a range `[lo, hi]` with `0 ≤ lo ≤ hi + 1 ≤ n`, so
its loop indices lie in `[0, n]`; and every call that partitions, whose range has more than
`SORT_THRESHOLD + 1` entries, has `hi + lo ≤ 2n - 19 ≤ INT_MAX`. -/
theorem sort_calls_within_int (a : Int → Nat) (n : Nat) (hn : n ≤ 2 ^ 30 + 8) :
    ∀ c ∈ quicksortCalls a 0 (n - 1), 0 ≤ c.2.1 ∧ c.2.1 ≤ c.2.2 + 1 ∧ c.2.2 < n ∧
      (SORT_THRESHOLD < c.2.2 - c.2.1 → c.2.2 + c.2.1 ≤ INT_MAX) := by
  intro c hc
  have := quicksortCalls_bounds a (by omega) c hc
  simp only [SORT_THRESHOLD, INT_MAX]
  omega

theorem sort_calls_within_int_max :
    (2 ^ 30 + 8 : Nat) ≤ 2 ^ 30 + 8 ∧ ∀ c ∈ quicksortCalls (fun _ => 0) 0 ((2 ^ 30 + 8 : Nat) - 1),
      0 ≤ c.2.1 ∧ c.2.1 ≤ c.2.2 + 1 ∧ c.2.2 < (2 ^ 30 + 8 : Nat) ∧
        (SORT_THRESHOLD < c.2.2 - c.2.1 → c.2.2 + c.2.1 ≤ INT_MAX) :=
  ⟨le_rfl, sort_calls_within_int (fun _ => 0) (2 ^ 30 + 8) le_rfl⟩

end ForkScan
