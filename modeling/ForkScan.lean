import ForkScan.Sort
import ForkScan.SortCalls
import ForkScan.UtilCompact
import ForkScan.Aggregate
import ForkScan.Sweep.Machine
import ForkScan.Sweep.Steps
import ForkScan.Sweep.Compact
import ForkScan.Sweep.Frames
import ForkScan.Sweep.Ownership
import ForkScan.Sweep.Counting
import ForkScan.Sweep.Memory
import ForkScan.Sweep.Accounting
import ForkScan.Sweep.Soundness
import ForkScan.Sweep.Termination
import ForkScan.Sweep.Safety
import ForkScan.Sweep.Fixpoint
import ForkScan.Sweep.Schedule
import ForkScan.Sweep.Provenance
import ForkScan.Pipeline
import ForkScan.Collect
import ForkScan.CarryOver
import ForkScan.Cycle
import ForkScan.Barrier
import ForkScan.Handoff
import ForkScan.ThreadList
import ForkScan.ThreadData
import ForkScan.FreeList
import ForkScan.Randomize
