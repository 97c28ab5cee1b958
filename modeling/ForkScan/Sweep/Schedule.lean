import ForkScan.Sweep.Termination

/-!
# ForkScan — one schedule of the sweep

The sweep is a relation: any unfinished thread may step. `Sweep.next` fixes one schedule of
it, the sequential one: the lowest-numbered busy thread steps, and once every thread has
returned the join runs. Every state it reaches is reachable (`Sweep.Reachable.iterate`), so a
concrete run of `Sweep.next` is a run of the sweep, and it can be computed.
-/

namespace ForkScan

/-- The lowest-numbered thread of the pass that has not returned. -/
def Sweep.firstBusy (s : Sweep) : Option Nat :=
  (List.range s.nWorkers).find? fun w => !decide (s.workers w).Finished

/-- One step of the sequential schedule. A stopped sweep stays as it is. -/
def Sweep.next (s : Sweep) : Sweep :=
  if s.running then
    match s.firstBusy with
    | some w => s.runWorker w
    | none => s.afterJoin
  else s

/-- A step of the sequential schedule is a step of the sweep. -/
theorem Sweep.step_next {s : Sweep} (hrun : s.running = true) : Sweep.Step s s.next := by
  unfold Sweep.next
  rw [if_pos hrun]
  cases hfb : s.firstBusy with
  | none =>
    refine .join s hrun fun w hw => ?_
    have := List.find?_eq_none.mp hfb w (List.mem_range.mpr hw)
    simpa using this
  | some w =>
    have hbusy := List.find?_some hfb
    have hw := List.mem_range.mp (List.mem_of_find?_eq_some hfb)
    exact .worker s w hw hrun (by simpa using hbusy)

theorem Sweep.Reachable.next {D : Dataset} {s : Sweep} (hr : Sweep.Reachable D s) :
    Sweep.Reachable D s.next := by
  cases hrun : s.running with
  | true => exact hr.tail (Sweep.step_next hrun)
  | false => simpa [Sweep.next, hrun] using hr

end ForkScan
