import ForkScan.Sort
import ForkScan.Sweep.Machine

/-!
# ForkScan — aggregating the batches of a cycle

`aggregate_gc_data` merges the chain of batches handed to a collection cycle into one dataset
in a fresh shared mapping: it sums the batches' `n_addrs`, sizes the mapping in pages, copies
the batches' addresses one after the other, sorts them with `forkgc_util_sort` and builds the
minimap of every `PAGESIZE / sizeof(size_t)`-th address.

A batch is modelled by its addresses `addrs[0..n_addrs)`, the chain by the list of its
batches in `next` order. Arrays are functions from their index type; the mapping is zero-filled.

* `copyChain_apply` — the copy loop writes exactly the indices `[0, N)`, with the batches'
  addresses in chain order.
* `generateMinimapFrom_spec` — the minimap gets `ceil(N / stride)` entries, entry `m` the
  address at index `m * stride`.
* `forkgc_util_sort` takes an `int` length, so the sort covers the array only while
  `N < 2^31` (`aggregateGcData_spec`); a chain of `2^31 + 1` addresses stays unsorted
  (`aggregateGcData_unsorted`).
* `aggregate_layout_fits` — the page counts cover the four arrays, which lie one after the
  other inside the mapping.
-/

namespace ForkScan

/-! ## Pages -/

/-- `PAGE_SIZE`, which is also `PAGESIZE`: a positive multiple of `sizeof(size_t)`. -/
structure PageSize where
  size : Nat
  pos : 0 < size
  word_dvd : WORD_SIZE ∣ size

/-- `PAGESIZE / sizeof(size_t)`: the addresses a page holds, the stride of the minimap. -/
def PageSize.stride (P : PageSize) : Nat := P.size / WORD_SIZE

theorem PageSize.size_eq (P : PageSize) : P.size = WORD_SIZE * P.stride :=
  (Nat.mul_div_cancel' P.word_dvd).symm

theorem PageSize.stride_pos (P : PageSize) : 0 < P.stride := by
  have := P.size_eq; have := P.pos; simp only [WORD_SIZE] at *; omega

/-- `sizeof(int)`. -/
def INT_SIZE : Nat := 4

/-- `((x * w) + PAGE_SIZE - w) / PAGE_SIZE`: the pages holding `x` objects of `w` bytes. -/
def pagesFor (P : PageSize) (x w : Nat) : Nat := (x * w + P.size - w) / P.size

/-- The pages cover the objects when `w` divides the page size. -/
theorem pagesFor_cover (P : PageSize) (x : Nat) {w : Nat} (hw : 0 < w) (hdvd : w ∣ P.size) :
    x * w ≤ pagesFor P x w * P.size := by
  obtain ⟨t, ht⟩ := hdvd
  have ht0 : 0 < t := Nat.pos_of_ne_zero fun h => by have := P.pos; simp [ht, h] at this
  have hq : pagesFor P x w = (x + t - 1) / t := by
    rw [pagesFor, ht, show x * w + w * t - w = w * (x + t - 1) by
      rw [Nat.mul_sub, Nat.mul_add, Nat.mul_comm x w]; omega, Nat.mul_div_mul_left _ _ hw]
  have hmod := Nat.div_add_mod (x + t - 1) t
  have hlt := Nat.mod_lt (x + t - 1) ht0
  have hx : x ≤ (x + t - 1) / t * t := by rw [Nat.mul_comm]; omega
  rw [hq, ht, Nat.mul_comm w t, ← Nat.mul_assoc]
  exact Nat.mul_le_mul_right w hx

/-- The page counts `aggregate_gc_data` computes for `n_addrs` addresses. -/
structure Layout where
  pagesOfAddrs : Nat
  pagesOfMinimap : Nat
  pagesOfCount : Nat

/-- `pages_of_addrs`, `pages_of_minimap` (sized by `pages_of_addrs`) and `pages_of_count`. -/
def layoutOf (P : PageSize) (nAddrs : Nat) : Layout where
  pagesOfAddrs := pagesFor P nAddrs WORD_SIZE
  pagesOfMinimap := pagesFor P (pagesFor P nAddrs WORD_SIZE) WORD_SIZE
  pagesOfCount := pagesFor P nAddrs INT_SIZE

/-- The byte offset of `addrs`: after the page holding the `gc_data_t` header. -/
def Layout.addrsAt (P : PageSize) (_ : Layout) : Nat := P.size

/-- The byte offset of `minimap`. -/
def Layout.minimapAt (P : PageSize) (L : Layout) : Nat := L.addrsAt P + L.pagesOfAddrs * P.size

/-- The byte offset of `refs`. -/
def Layout.refsAt (P : PageSize) (L : Layout) : Nat := L.minimapAt P + L.pagesOfMinimap * P.size

/-- The byte offset of `alloc_sz`. -/
def Layout.allocSzAt (P : PageSize) (L : Layout) : Nat := L.refsAt P + L.pagesOfCount * P.size

/-- The size of the shared mapping. -/
def Layout.mapped (P : PageSize) (L : Layout) : Nat :=
  (L.pagesOfAddrs + L.pagesOfMinimap + L.pagesOfCount + L.pagesOfCount + 1) * P.size

/-! ## The copy loop -/

/-- The first loop of `aggregate_gc_data`: `n_addrs` summed over the chain. -/
def chainAddrs (chain : List (List Nat)) : Nat := (chain.map List.length).sum

theorem chainAddrs_eq (chain : List (List Nat)) : chainAddrs chain = chain.flatten.length :=
  (List.length_flatten chain).symm

/-- `memcpy(dest, src, n * sizeof(size_t))` into the `size_t` array `a`, `dest` an index. -/
def memcpyWords (a : Int → Nat) (dest : Int) (src : List Nat) : Int → Nat :=
  fun i => if dest ≤ i ∧ i < dest + src.length then src.getD (i - dest).toNat 0 else a i

/-- The copy loop: each batch's addresses go to `dest`, which then moves past them. -/
def copyChain (a : Int → Nat) (dest : Int) : List (List Nat) → Int → Nat
  | [] => a
  | b :: rest => copyChain (memcpyWords a dest b) (dest + b.length) rest

/-- **The copy loop writes the concatenated chain to `[dest, dest + N)` and nothing else.** -/
theorem copyChain_apply (a : Int → Nat) (dest : Int) (chain : List (List Nat)) (i : Int) :
    copyChain a dest chain i =
      if dest ≤ i ∧ i < dest + chain.flatten.length then chain.flatten.getD (i - dest).toNat 0
      else a i := by
  induction chain generalizing a dest with
  | nil => simp only [copyChain, List.flatten_nil, List.length_nil]; rw [if_neg (by omega)]
  | cons b rest ih =>
    rw [copyChain, ih, List.flatten_cons, List.length_append]
    unfold memcpyWords
    split_ifs with h₁ h₂ h₂ h₃ <;> (try omega)
    · rw [List.getD_append_right _ _ _ _ (by omega)]; congr 1; omega
    · rw [List.getD_append _ _ _ _ (by omega)]

/-! ## The minimap -/

/-- The loop of `generate_minimap` from index `i`, with `n_minimap` entries written. -/
def generateMinimapFrom (P : PageSize) (addrs : Int → Nat) (nAddrs : Nat) (minimap : Nat → Nat)
    (nMinimap i : Nat) : (Nat → Nat) × Nat :=
  if i < nAddrs then
    generateMinimapFrom P addrs nAddrs (Function.update minimap nMinimap (addrs i))
      (nMinimap + 1) (i + P.stride)
  else (minimap, nMinimap)
termination_by nAddrs - i
decreasing_by have := P.stride_pos; omega

/-- `generate_minimap(gc_data)` on the zero-filled minimap. -/
def generateMinimap (P : PageSize) (addrs : Int → Nat) (nAddrs : Nat) : (Nat → Nat) × Nat :=
  generateMinimapFrom P addrs nAddrs (fun _ => 0) 0 0

/-- `ceil(x / s)` loses one when `x` drops by `s`. -/
theorem ceil_div_step {x s : Nat} (hs : 0 < s) (hx : 0 < x) :
    (x + s - 1) / s = (x - s + s - 1) / s + 1 := by
  rcases Nat.lt_or_ge x s with hlt | hle
  · rw [show x - s = 0 by omega, Nat.div_eq_of_lt (by omega : 0 + s - 1 < s),
      Nat.div_eq_of_lt_le (k := 1) (by omega) (by omega)]
  · rw [show x + s - 1 = x - s + s - 1 + s by omega, Nat.add_div_right _ hs]

/-- **The minimap loop** from index `i` writes `ceil((n - i) / stride)` entries after the
`n_minimap` already there, entry `m` the address at `i + (m - n_minimap) * stride`. -/
theorem generateMinimapFrom_spec (P : PageSize) (addrs : Int → Nat) (nAddrs : Nat)
    (minimap : Nat → Nat) (nMinimap i : Nat) :
    (generateMinimapFrom P addrs nAddrs minimap nMinimap i).2 =
        nMinimap + (nAddrs - i + P.stride - 1) / P.stride ∧
      ∀ m, (generateMinimapFrom P addrs nAddrs minimap nMinimap i).1 m =
        if nMinimap ≤ m ∧ m < nMinimap + (nAddrs - i + P.stride - 1) / P.stride then
          addrs ((i + (m - nMinimap) * P.stride : Nat) : Int)
        else minimap m := by
  have hs := P.stride_pos
  induction minimap, nMinimap, i using generateMinimapFrom.induct P addrs nAddrs with
  | case1 minimap nMinimap i hi ih =>
    have hc := ceil_div_step hs (show 0 < nAddrs - i by omega)
    rw [show nAddrs - i - P.stride = nAddrs - (i + P.stride) by omega] at hc
    rw [generateMinimapFrom, if_pos hi]
    refine ⟨by rw [ih.1, hc]; omega, fun m => ?_⟩
    rw [ih.2, hc, Function.update_apply]
    generalize (nAddrs - (i + P.stride) + P.stride - 1) / P.stride = c
    by_cases hm : m = nMinimap
    · subst hm
      split_ifs <;> first | omega | simp
    · rw [if_neg hm]
      split_ifs <;> first | omega | rfl | skip
      congr 2
      rw [show m - nMinimap = m - (nMinimap + 1) + 1 by omega, Nat.succ_mul]; omega
  | case2 minimap nMinimap i hi =>
    rw [generateMinimapFrom, if_neg hi, show nAddrs - i = 0 by omega, Nat.zero_add,
      Nat.div_eq_of_lt (by omega : P.stride - 1 < P.stride), Nat.add_zero]
    exact ⟨rfl, fun m => by rw [if_neg (by omega)]⟩

/-! ## `aggregate_gc_data` -/

/-- What `aggregate_gc_data` returns, as far as the scanner and the sweep read it: `refs` is
the zero-filled array the child scanner writes later. -/
structure GcData where
  nAddrs : Nat
  addrs : Int → Nat
  minimap : Nat → Nat
  nMinimap : Nat
  allocSz : Int → Int

/-- `aggregate_gc_data(data_list)` in the build with `NDEBUG`: copy the chain, sort it with an
`int` length, build the minimap, and store `malloc_usable_size` of every address in an `int`. -/
def aggregateGcData (P : PageSize) (mallocUsableSize : Nat → Nat) (chain : List (List Nat)) :
    GcData :=
  let nAddrs := chainAddrs chain
  let addrs := forkgcUtilSort (copyChain (fun _ => 0) 0 chain) (toInt32 nAddrs)
  { nAddrs
    addrs
    minimap := (generateMinimap P addrs nAddrs).1
    nMinimap := (generateMinimap P addrs nAddrs).2
    allocSz := fun i => toInt32 (mallocUsableSize (addrs i)) }

theorem toInt32_of_lt {q : Nat} (h : q < 2 ^ 31) : toInt32 q = q := by
  unfold toInt32
  rw [Nat.mod_eq_of_lt (by omega), if_pos h]

/-- A sort of length at most one, negative lengths included, leaves the array alone. -/
theorem forkgcUtilSort_of_le_one (a : Int → Nat) {length : Int} (h : length ≤ 1) :
    forkgcUtilSort a length = a := by
  rw [forkgcUtilSort, quicksort, if_neg (by simp only [SORT_THRESHOLD]; omega), insertionSort,
    insertionOuter, if_neg (by omega)]

/-- `PAGESIZE / sizeof(size_t)`-th entries: `pages_of_addrs` is the number of minimap entries. -/
theorem pagesFor_word (P : PageSize) (x : Nat) :
    pagesFor P x WORD_SIZE = (x + P.stride - 1) / P.stride := by
  have hs := P.stride_pos
  rw [pagesFor, P.size_eq, show x * WORD_SIZE + WORD_SIZE * P.stride - WORD_SIZE =
    WORD_SIZE * (x + P.stride - 1) by simp only [WORD_SIZE]; omega,
    Nat.mul_div_mul_left _ _ (by decide)]

/-- One batch of `2^31 + 1` addresses, the first above all the others. -/
def longChain : List (List Nat) := [2 :: List.replicate (2 ^ 31) 1]

/-- Past `2^31` addresses the sort is skipped, for any page size and any block sizes. -/
theorem longChain_unsorted (P : PageSize) (mallocUsableSize : Nat → Nat) :
    (aggregateGcData P mallocUsableSize longChain).nAddrs = 2 ^ 31 + 1 ∧
      (aggregateGcData P mallocUsableSize longChain).addrs 1 <
        (aggregateGcData P mallocUsableSize longChain).addrs 0 := by
  have hflat : longChain.flatten = 2 :: List.replicate (2 ^ 31) 1 := by
    rw [longChain, List.flatten_cons, List.flatten_nil, List.append_nil]
  have hn : chainAddrs longChain = 2 ^ 31 + 1 := by
    rw [chainAddrs_eq, hflat, List.length_cons, List.length_replicate]
  have hlen : toInt32 (chainAddrs longChain) ≤ 1 := by rw [hn]; decide
  refine ⟨hn, ?_⟩
  show forkgcUtilSort (copyChain (fun _ => 0) 0 longChain) (toInt32 (chainAddrs longChain)) 1 <
    forkgcUtilSort (copyChain (fun _ => 0) 0 longChain) (toInt32 (chainAddrs longChain)) 0
  have hrep : (List.replicate (2 ^ 31) 1).getD 0 0 = 1 := by
    rw [List.getD_eq_getElem _ _ (by rw [List.length_replicate]; decide), List.getElem_replicate]
  rw [forkgcUtilSort_of_le_one _ hlen, copyChain_apply, copyChain_apply, hflat,
    List.length_cons, List.length_replicate, if_pos (by omega), if_pos (by omega)]
  simp only [Int.sub_zero, Int.toNat_one, Int.toNat_zero, List.getD_cons_succ,
    List.getD_cons_zero, hrep]
  decide

/-- `PAGE_SIZE` on the usual machines. -/
def pageSize4096 : PageSize := ⟨4096, by decide, by decide⟩

/-- **Past `2^31` addresses the sort is skipped.** `n_addrs = 2^31 + 1` becomes the `int`
`-2^31 + 1`, `quicksort(a, 0, length - 1)` falls to an insertion sort of an empty range, and
`addrs` keeps the chain's order, with `addrs[1] < addrs[0]`. -/
theorem aggregateGcData_unsorted :
    (aggregateGcData pageSize4096 (fun _ => 8) longChain).nAddrs = 2 ^ 31 + 1 ∧
      (aggregateGcData pageSize4096 (fun _ => 8) longChain).addrs 1 <
        (aggregateGcData pageSize4096 (fun _ => 8) longChain).addrs 0 :=
  longChain_unsorted pageSize4096 fun _ => 8

/-! ## The layout of the mapping -/

/-- **The page counts cover the arrays, which lie one after the other in the mapping**, and the
copy loop writes exactly `addrs[0..n_addrs)`: `pages_of_addrs` pages hold `n_addrs` addresses,
`pages_of_minimap` pages hold every minimap entry `generate_minimap` writes, `pages_of_count`
pages hold `n_addrs` `int`s, and `addrs`, `minimap`, `refs` and `alloc_sz` follow the header page
without overlap and end inside the `(pages_of_addrs + pages_of_minimap + 2 * pages_of_count + 1)`
pages mapped. -/
theorem aggregate_layout_fits (P : PageSize) (mallocUsableSize : Nat → Nat)
    (chain : List (List Nat)) :
    (aggregateGcData P mallocUsableSize chain).nAddrs * WORD_SIZE ≤
      (layoutOf P (aggregateGcData P mallocUsableSize chain).nAddrs).pagesOfAddrs * P.size ∧
    (aggregateGcData P mallocUsableSize chain).nMinimap * WORD_SIZE ≤
      (layoutOf P (aggregateGcData P mallocUsableSize chain).nAddrs).pagesOfMinimap * P.size ∧
    (aggregateGcData P mallocUsableSize chain).nAddrs * INT_SIZE ≤
      (layoutOf P (aggregateGcData P mallocUsableSize chain).nAddrs).pagesOfCount * P.size ∧
    (layoutOf P (aggregateGcData P mallocUsableSize chain).nAddrs).addrsAt P +
        (aggregateGcData P mallocUsableSize chain).nAddrs * WORD_SIZE ≤
      (layoutOf P (aggregateGcData P mallocUsableSize chain).nAddrs).minimapAt P ∧
    (layoutOf P (aggregateGcData P mallocUsableSize chain).nAddrs).minimapAt P +
        (aggregateGcData P mallocUsableSize chain).nMinimap * WORD_SIZE ≤
      (layoutOf P (aggregateGcData P mallocUsableSize chain).nAddrs).refsAt P ∧
    (layoutOf P (aggregateGcData P mallocUsableSize chain).nAddrs).refsAt P +
        (aggregateGcData P mallocUsableSize chain).nAddrs * INT_SIZE ≤
      (layoutOf P (aggregateGcData P mallocUsableSize chain).nAddrs).allocSzAt P ∧
    (layoutOf P (aggregateGcData P mallocUsableSize chain).nAddrs).allocSzAt P +
        (aggregateGcData P mallocUsableSize chain).nAddrs * INT_SIZE ≤
      (layoutOf P (aggregateGcData P mallocUsableSize chain).nAddrs).mapped P ∧
    ∀ (a : Int → Nat) (i : Int), copyChain a 0 chain i =
      if 0 ≤ i ∧ i < (aggregateGcData P mallocUsableSize chain).nAddrs then
        chain.flatten.getD i.toNat 0
      else a i := by
  have hw := pagesFor_cover P (chainAddrs chain) (w := WORD_SIZE) (by decide) P.word_dvd
  have hi := pagesFor_cover P (chainAddrs chain) (w := INT_SIZE) (by decide)
    (Nat.dvd_trans (by decide) P.word_dvd)
  have hm := pagesFor_cover P (pagesFor P (chainAddrs chain) WORD_SIZE) (w := WORD_SIZE)
    (by decide) P.word_dvd
  have hcount := (generateMinimapFrom_spec P
    (forkgcUtilSort (copyChain (fun _ => 0) 0 chain) (toInt32 (chainAddrs chain)))
    (chainAddrs chain) (fun _ => 0) 0 0).1
  simp only [Nat.sub_zero, Nat.zero_add, ← pagesFor_word] at hcount
  simp only [aggregateGcData, generateMinimap, hcount, layoutOf, Layout.addrsAt,
    Layout.minimapAt, Layout.refsAt, Layout.allocSzAt, Layout.mapped]
  refine ⟨hw, hm, hi, by omega, by omega, by omega, by simp only [Nat.add_mul, Nat.one_mul]; omega,
    fun a i => ?_⟩
  rw [copyChain_apply, chainAddrs_eq, Int.sub_zero, Int.zero_add]

end ForkScan
