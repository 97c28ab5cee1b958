import ForkScan.Aggregate
import ForkScan.Sweep.Provenance
import ForkScan.Sweep.Schedule

/-!
# ForkScan — from the chain of batches to the blocks freed

One collection cycle runs `aggregate_gc_data` on the chain handed to `garbage_collect`, lets
the child scanner write `refs`, and then runs the sweep on the aggregated arrays.
`GcData.toDataset` is that hand-over.

The sweep claims entries, not addresses: the collected bit of one entry says nothing about
another entry with the same address. So the chain's addresses being distinct is what keeps
every block from being freed twice (`sweep_frees_each_once`). With `NDEBUG` nothing checks it:
an address retired twice is freed twice (`duplicate_freed_twice`); a debug build stops in
`assert_monotonicity` instead.
-/

namespace ForkScan

/-- A block size `s` stored in an `int` and read back as a word count: `elements` is
`floor(s / sizeof(size_t))` and the stored size positive exactly when `1 ≤ s < 2^31`. A larger
size wraps modulo `2^32`: it is stored as at most zero, or as less than `2^31` while
`s / sizeof(size_t)` is at least `2^29`. -/
theorem elementsOf_toInt32_iff (s : Nat) :
    (elementsOf (toInt32 s) = ((s / WORD_SIZE : Nat) : Int) ∧ 0 < toInt32 s) ↔
      1 ≤ s ∧ s < 2 ^ 31 := by
  unfold toInt32
  split_ifs with h
  · rw [elementsOf_of_nonneg (by omega) (by omega)]
    simp only [WORD_SIZE]
    omega
  · omega

/-- **The words `unref_addr` scans for a block.** `aggregate_gc_data` stores
`malloc_usable_size` of every address in its `int` array `alloc_sz`, from which `unref_addr`
takes `elements = alloc_sz[n] / sizeof(size_t)`. The count is `floor(s / sizeof(size_t))` of
the usable size `s`, and `assert(alloc_sz[i] > 0)` holds, exactly for the sizes below
`2^31`. -/
theorem aggregateGcData_scan_words (P : PageSize) (mallocUsableSize : Nat → Nat)
    (chain : List (List Nat)) (i : Int) :
    (elementsOf ((aggregateGcData P mallocUsableSize chain).allocSz i) =
        ((mallocUsableSize ((aggregateGcData P mallocUsableSize chain).addrs i) / WORD_SIZE :
          Nat) : Int) ∧
      0 < (aggregateGcData P mallocUsableSize chain).allocSz i) ↔
    1 ≤ mallocUsableSize ((aggregateGcData P mallocUsableSize chain).addrs i) ∧
      mallocUsableSize ((aggregateGcData P mallocUsableSize chain).addrs i) < 2 ^ 31 :=
  elementsOf_toInt32_iff _

/-- The entries the sweep leaves in `addrs[0..n_addrs)`: what `garbage_collect` writes back
into the batches. -/
def Sweep.remaining (s : Sweep) : List Nat := (List.range s.heap.nAddrs).map s.heap.addrs

end ForkScan
