import Mathlib

/-!
# ForkScan — the in-place duplicate compaction of `util.c`

`forkgc_util_compact(a, length)` drops repeated entries of an array in place and returns how
many it dropped:

```
for (search = 1; search < length; ++search) {
    if (a[search] == a[write]) continue;
    ++write;
    if (write < search) a[write] = a[search];
}
++write;
return length - write;
```

The read cursor `search` runs ahead of the write cursor `write`, and `a[write]` is always the
last value kept. So the loop keeps one entry of every run of equal adjacent entries, whatever
the order of the input: what it leaves in `a[0..length - savings)` is `List.destutter (· ≠ ·)`
of the input, which for a sorted input is its set of values in ascending order.

* `forkgcUtilCompactLoop_spec` — the loop invariant, stated from the running value `a[write]`
  with `List.destutter'`, which takes one input entry at a time as the loop does.
* `forkgcUtilCompact_spec` — the packed prefix, the untouched rest, and for a sorted input the
  number of distinct values.
-/

namespace ForkScan

/-- `a[0..n)` as a list. -/
def prefixList (a : Int → Nat) (n : Nat) : List Nat := (List.range n).map fun i : Nat => a i

/-- The loop of `forkgc_util_compact` at `search`, with the write cursor at `write`: an entry
equal to `a[write]` is passed over; any other moves the write cursor up and is copied there
unless it already stands there. Returns the array and the final `write`. -/
def forkgcUtilCompactLoop (length : Int) (a : Int → Nat) (search write : Int) :
    (Int → Nat) × Int :=
  if search < length then
    if a search = a write then forkgcUtilCompactLoop length a (search + 1) write
    else
      forkgcUtilCompactLoop length
        (if write + 1 < search then Function.update a (write + 1) (a search) else a)
        (search + 1) (write + 1)
  else (a, write)
termination_by (length - search).toNat

/-- `forkgc_util_compact(a, length)`: the array and the savings `length - write`. -/
def forkgcUtilCompact (a : Int → Nat) (length : Int) : (Int → Nat) × Int :=
  if length < 2 then (a, 0)
  else
    let r := forkgcUtilCompactLoop length a 1 0
    (r.1, length - (r.2 + 1))

theorem prefixList_succ (a : Int → Nat) (n : Nat) :
    prefixList a (n + 1) = prefixList a n ++ [a n] := by
  simp [prefixList, List.range_succ]

theorem prefixList_congr {a b : Int → Nat} {n : Nat} (h : ∀ i : Nat, i < n → a i = b i) :
    prefixList a n = prefixList b n :=
  List.map_congr_left fun i hi => h i (List.mem_range.mp hi)

@[simp] theorem length_prefixList (a : Int → Nat) (n : Nat) : (prefixList a n).length = n := by
  simp [prefixList]

/-- The invariant of the loop: with `k` entries left to read, the loop ends at a `write` no
lower than the current one, keeps `a[0..write)`, puts after it the entries from `a[write]` on
with every repeat of the value before it dropped, and writes nowhere else. -/
theorem forkgcUtilCompactLoop_spec (n : Nat) :
    ∀ (k : Nat) (a : Int → Nat) (s w : Nat), s + k = n → w < s →
      ∃ w' : Nat, (forkgcUtilCompactLoop n a s w).2 = w' ∧ w ≤ w' ∧ w' < n ∧
        prefixList (forkgcUtilCompactLoop n a s w).1 (w' + 1) =
          prefixList a w ++ ((List.range' s k).map fun i : Nat => a i).destutter' (· ≠ ·) (a w) ∧
        ∀ j : Int, j < 0 ∨ w' < j → (forkgcUtilCompactLoop n a s w).1 j = a j := by
  intro k
  induction k with
  | zero =>
    intro a s w hk hw
    rw [forkgcUtilCompactLoop, if_neg (by omega)]
    exact ⟨w, rfl, le_rfl, by omega, by simp [prefixList_succ], fun _ _ => rfl⟩
  | succ k ih =>
    intro a s w hk hw
    rw [forkgcUtilCompactLoop, if_pos (by omega), List.range'_succ, List.map_cons]
    by_cases heq : a s = a w
    · -- `a[search] == a[write]`: passed over
      rw [if_pos heq]
      have := ih a (s + 1) w (by omega) (by omega)
      push_cast at this
      have hne : ¬ a w ≠ a s := fun h => h heq.symm
      rwa [List.destutter'_cons_neg _ hne]
    · -- a new value: one more entry kept, at `write + 1`
      rw [if_neg heq]
      set b := if (w : Int) + 1 < s then Function.update a ((w : Int) + 1) (a s) else a with hb
      have hbw : b (w + 1) = a s := by
        rw [hb]; split_ifs with h
        · simp
        · rw [show (w : Int) + 1 = s by omega]
      have hbo : ∀ j : Int, j ≠ w + 1 → b j = a j := fun j hj => by
        rw [hb]; split_ifs
        · exact Function.update_noteq hj _ _
        · rfl
      obtain ⟨w', h₁, h₂, h₃, h₄, h₅⟩ := ih b (s + 1) (w + 1) (by omega) (by omega)
      push_cast at h₁ h₄ h₅ hbw
      refine ⟨w', h₁, by omega, h₃, ?_, fun j hj => (h₅ j (by omega)).trans (hbo j (by omega))⟩
      have hne : a w ≠ a s := fun h => heq h.symm
      rw [h₄, hbw, List.destutter'_cons_pos _ hne, prefixList_succ,
        prefixList_congr fun i hi => hbo i (by omega), hbo w (by omega),
        List.map_congr_left (f := fun i : Nat => b i) (g := fun i : Nat => a i)
          fun i hi => hbo i (by simp at hi; omega)]
      simp

/-- Every value of the input is kept once it stops repeating the value before it. -/
theorem mem_destutter'_ne {x a : Nat} {l : List Nat} :
    x ∈ l.destutter' (· ≠ ·) a ↔ x ∈ a :: l := by
  induction l generalizing a with
  | nil => simp
  | cons b l ih =>
    by_cases h : a = b
    · subst h
      rw [List.destutter'_cons_neg _ (by simp), ih]
      simp
    · rw [List.destutter'_cons_pos _ h, List.mem_cons, ih]
      simp

/-- A sorted list with no two equal neighbours rises strictly. -/
theorem sorted_lt_of_chain'_ne {l : List Nat} (hs : l.Sorted (· ≤ ·)) (hc : l.Chain' (· ≠ ·)) :
    l.Sorted (· < ·) := by
  refine List.chain'_iff_pairwise.mp ?_
  induction l with
  | nil => exact List.chain'_nil
  | cons a l ih =>
    cases l with
    | nil => exact List.chain'_singleton a
    | cons b l =>
      rw [List.chain'_cons] at hc ⊢
      exact ⟨lt_of_le_of_ne (List.rel_of_sorted_cons hs b (List.mem_cons_self b l)) hc.1,
        ih hs.of_cons hc.2⟩

/-- What the compaction leaves in front, for a sorted input: its values, once each, in
ascending order. -/
theorem destutter_ne_of_sorted {l : List Nat} (hs : l.Sorted (· ≤ ·)) :
    (l.destutter (· ≠ ·)).Sorted (· < ·) ∧ (∀ x, x ∈ l.destutter (· ≠ ·) ↔ x ∈ l) ∧
      (l.destutter (· ≠ ·)).length = l.dedup.length := by
  have hmem : ∀ x, x ∈ l.destutter (· ≠ ·) ↔ x ∈ l := fun x => by
    cases l with
    | nil => simp
    | cons a l => rw [List.destutter_cons', mem_destutter'_ne]
  have hlt := sorted_lt_of_chain'_ne (hs.sublist (List.destutter_sublist _ l))
    (List.destutter_is_chain' _ l)
  refine ⟨hlt, hmem, ((List.perm_ext_iff_of_nodup hlt.nodup (List.nodup_dedup l)).mpr
    fun x => by rw [hmem, List.mem_dedup]).length_eq⟩

/-- Whatever the input, the compaction returns savings `s ≤ n`, keeps the input with its runs
collapsed in `a[0..n - s)`, and writes nowhere else. -/
theorem forkgcUtilCompact_packs (a : Int → Nat) (n : Nat) :
    ∃ s : Nat, (forkgcUtilCompact a n).2 = s ∧ s ≤ n ∧
      prefixList (forkgcUtilCompact a n).1 (n - s) = (prefixList a n).destutter (· ≠ ·) ∧
      ∀ k : Int, k < 0 ∨ ((n - s : Nat) : Int) ≤ k → (forkgcUtilCompact a n).1 k = a k := by
  unfold forkgcUtilCompact
  split_ifs with hn
  · -- fewer than two entries: nothing to collapse
    refine ⟨0, rfl, Nat.zero_le n, ?_, fun _ _ => rfl⟩
    obtain rfl | rfl : n = 0 ∨ n = 1 := by omega
    all_goals simp [prefixList, List.range_succ]
  · obtain ⟨w', h₁, -, h₃, h₄, h₅⟩ := forkgcUtilCompactLoop_spec n (n - 1) a 1 0 (by omega)
      (by omega)
    push_cast at h₁ h₄ h₅
    refine ⟨n - (w' + 1), by simp only [h₁]; omega, by omega, ?_, fun k hk => h₅ k (by omega)⟩
    rw [show n - (n - (w' + 1)) = w' + 1 by omega, h₄]
    obtain ⟨m, rfl⟩ : ∃ m, n = m + 1 := ⟨n - 1, by omega⟩
    simp [prefixList, List.range_eq_range', List.range'_succ, List.destutter_cons']

/-- **`forkgc_util_compact` collapses every run of equal neighbours.** For every array and every
length `n ≥ 0`, sorted or not, the savings `s` lie in `[0, n]`; `a[0..n - s)` is the input with
every run of equal adjacent values collapsed to one, in order; nothing else is written, so
`a[n - s..n)` keeps its entries. For a sorted input the kept entries rise strictly, hold the
input's values, and `s` is `n` minus the number of distinct values. -/
theorem forkgcUtilCompact_spec (a : Int → Nat) (n : Nat) :
    0 ≤ (forkgcUtilCompact a n).2 ∧ (forkgcUtilCompact a n).2 ≤ n ∧
      prefixList (forkgcUtilCompact a n).1 (n - (forkgcUtilCompact a n).2).toNat =
        (prefixList a n).destutter (· ≠ ·) ∧
      (∀ k : Int, k < 0 ∨ n - (forkgcUtilCompact a n).2 ≤ k → (forkgcUtilCompact a n).1 k = a k) ∧
      ((prefixList a n).Sorted (· ≤ ·) →
        (prefixList (forkgcUtilCompact a n).1 (n - (forkgcUtilCompact a n).2).toNat).Sorted
          (· < ·) ∧
        (∀ x, x ∈ prefixList (forkgcUtilCompact a n).1 (n - (forkgcUtilCompact a n).2).toNat ↔
          x ∈ prefixList a n) ∧
        (forkgcUtilCompact a n).2 = n - (prefixList a n).dedup.length) := by
  obtain ⟨s, hs, hle, hpre, hframe⟩ := forkgcUtilCompact_packs a n
  rw [hs, show ((n : Int) - s).toNat = n - s by omega]
  refine ⟨by omega, by omega, hpre, fun k hk => hframe k (by omega), fun hsorted => ?_⟩
  -- a sorted input: the kept entries are its distinct values, ascending
  obtain ⟨hlt, hmem, hlen⟩ := destutter_ne_of_sorted hsorted
  have hcount := congrArg List.length hpre
  rw [length_prefixList, hlen] at hcount
  exact ⟨hpre ▸ hlt, hpre ▸ hmem, by omega⟩

end ForkScan
