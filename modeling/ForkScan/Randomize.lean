import ForkScan.Aggregate
import ForkScan.SortCalls

/-!
# ForkScan — `forkgc_util_randomize`

```
void forkgc_util_randomize (size_t *addrs, int n)
{
    unsigned int i;
    for (i = 0; i < n; ++i) {
        unsigned int tmp = (i * 2147483647) % n;
        if (i != tmp) swap(addrs, i, tmp);
    }
}
```

The counter is an `unsigned int`: `i < n` and `% n` convert `n` to `unsigned int`, the product
`i * 2147483647` is taken modulo `2^32`, and `swap` takes both indices back as `int`. For every
`n` in `[0, 2^31)` each swap stays in `[0, n)`, so the loop permutes `addrs[0..n)` and writes
nothing else; a negative `n` is `2^32 + n` to the comparison, so the loop does not stop at `0`,
and its second iteration already exchanges `addrs[1]` with `addrs[2^31 - 1]`
(`randomize_permutes`).
-/

namespace ForkScan

/-- The loop of `forkgc_util_randomize` from `i`, with `bound` the `unsigned int` that `n`
becomes: `tmp = (i * 2147483647) % n`, the product modulo `2^32`, and `swap(addrs, i, tmp)` when
the two differ, both indices converted back to `int`. -/
def randomizeLoop (bound : Nat) (a : Int → Nat) (i : Nat) : Int → Nat :=
  if i < bound then
    randomizeLoop bound
      (if i ≠ i * 2147483647 % 2 ^ 32 % bound then
        swap a (toInt32 i) (toInt32 (i * 2147483647 % 2 ^ 32 % bound))
      else a) (i + 1)
  else a
termination_by bound - i

/-- `forkgc_util_randomize(addrs, n)`. -/
def forkgcUtilRandomize (a : Int → Nat) (n : Int) : Int → Nat :=
  randomizeLoop (n % 2 ^ 32).toNat a 0

/-- Below `2^31` every index the loop swaps is an `int` in `[0, bound)`, so the loop permutes
`a[0..bound)`. -/
theorem randomizeLoop_permOn {bound : Nat} (hb : bound < 2 ^ 31) (a : Int → Nat) (i : Nat) :
    PermOn 0 ((bound : Int) - 1) a (randomizeLoop bound a i) := by
  induction a, i using randomizeLoop.induct bound with
  | case1 a i hi ih =>
    rw [randomizeLoop, if_pos hi]
    refine PermOn.trans ?_ ih
    split_ifs
    · have htmp : i * 2147483647 % 2 ^ 32 % bound < bound := Nat.mod_lt _ (by omega)
      rw [toInt32_of_lt (by omega), toInt32_of_lt (by omega)]
      exact PermOn.swap ⟨by omega, by omega⟩ ⟨by omega, by omega⟩
    · exact PermOn.refl _ _ _
  | case2 a i hi =>
    rw [randomizeLoop, if_neg hi]
    exact PermOn.refl _ _ _

/-- **`forkgc_util_randomize` permutes `addrs[0..n)` for every `int` length `n ≥ 0`, and runs
past the array for a negative one.** For `0 ≤ n < 2^31` the entries `a[0..n)` afterwards are
those before, counted with multiplicity, and no other index is written. For `-2^31 ≤ n < 0` the
unsigned comparison runs the loop `2^32 + n` times, and its second iteration swaps `a[1]` with
`a[INT_MAX]`. -/
theorem randomize_permutes (a : Int → Nat) (n : Int) (hn : n < 2 ^ 31) :
    (0 ≤ n → ((List.range n.toNat).map fun i : Nat => forkgcUtilRandomize a n i).Perm
        ((List.range n.toNat).map fun i : Nat => a i) ∧
      ∀ k : Int, k < 0 ∨ n ≤ k → forkgcUtilRandomize a n k = a k) ∧
    (-2 ^ 31 ≤ n → n < 0 →
      forkgcUtilRandomize a n = randomizeLoop (n + 2 ^ 32).toNat (swap a 1 INT_MAX) 2) := by
  refine ⟨fun h₀ => ?_, fun h₁ h₂ => ?_⟩
  · have hb : (n % 2 ^ 32).toNat = n.toNat := by omega
    have hp := randomizeLoop_permOn (show n.toNat < 2 ^ 31 by omega) a 0
    unfold forkgcUtilRandomize
    rw [hb]
    exact ⟨hp.map_range_perm, fun k hk => hp.frame (by omega)⟩
  · -- `i = 0` swaps nothing; `i = 1` swaps with `2147483647 % (2^32 + n) = 2^31 - 1`
    have hb : (n % 2 ^ 32).toNat = (n + 2 ^ 32).toNat := by omega
    have htmp : 1 * 2147483647 % 2 ^ 32 % (n + 2 ^ 32).toNat = 2147483647 :=
      Nat.mod_eq_of_lt (by omega)
    unfold forkgcUtilRandomize
    rw [hb, randomizeLoop, if_pos (by omega), if_neg (by simp), randomizeLoop, if_pos (by omega),
      htmp, if_pos (by decide)]
    rfl

theorem randomize_permutes_five :
    ((List.range 5).map fun i : Nat => forkgcUtilRandomize (fun k => k.toNat) 5 i).Perm
      ((List.range 5).map fun i : Nat => (fun k : Int => k.toNat) i) :=
  ((randomize_permutes (fun k => k.toNat) 5 (by norm_num)).1 (by norm_num)).1

end ForkScan
