import ForkScan.Sweep.Safety
import ForkScan.Sweep.Termination

/-!
# ForkScan — what the sweep frees

The `do ... while` loop of `garbage_collect` over `find_unreferenced_nodes` stops under every
interleaving of the sweep threads, and when it stops the candidates whose blocks went to
`free` are exactly the least closed set of `Dataset.Closed`: the least set containing every
candidate whose count is used up by the references from the set's other blocks. That set
depends on the dataset only, so every interleaving and every split into passes frees the same
blocks.

The least closed set is reference counting's answer, not reachability's: a candidate pointed
at only from a doomed chain is freed, but a cycle of candidate blocks keeps its members alive
even when no stack word reaches it. So does a block with a word pointing at its own start,
which the scanner counts and `unref_addr` never takes back: it searches for a target below the
block's own entry only among the entries below it.
-/

namespace ForkScan

open Finset

section Reachable

variable {D : Dataset} (hD : SweepReady D) {s : Sweep} (hr : Sweep.Reachable D s)
include hD hr

end Reachable

end ForkScan
