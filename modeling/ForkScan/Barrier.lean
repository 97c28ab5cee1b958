import Mathlib

/-!
# ForkScan — the snapshot barrier

Before it forks, `garbage_collect` signals every mutator and spins until each has spilled its
registers onto its stack; each mutator's handler, `forkgc_wait_for_snapshot`, then spins until
the collector has forked and moved `g_cleanup_counter` on:

```
collector:  g_received_signal = 0;
            sig_count = threadscan_proc_signal(SIGTHREADSCAN);
            while (g_received_signal < sig_count) pthread_yield();
            child_pid = fork();  ...  ++g_cleanup_counter;
mutator:    old_counter = g_cleanup_counter;
            setjmp(env);
            __sync_fetch_and_add(&g_received_signal, 1);
            while (old_counter == g_cleanup_counter) pthread_yield();
```

`Barrier.Step` interleaves the collector's steps and every mutator's, each read or write of the
two shared variables, each atomic increment and each spill being one step; a spin that reads
the value it waits past is a stuttering step and is left out. The ghost fields record the cycle,
the set signalled in it, and the cycle whose signal each mutator handles. `Barrier.Inv` holds in
every reachable state, over any number of cycles (the counter wraps at `2 ^ 64`), and gives the
protocol's two guarantees (`snapshot_barrier`).
-/

namespace ForkScan

/-- Where the collector is in one cycle's barrier: about to run the named statement. -/
inductive CPc where
  | reset
  | signal
  | spin
  | fork
  | bump
  deriving DecidableEq, Repr

/-- From the signals to the increment: the mutators' handlers of this cycle run. -/
def CPc.snapshotting : CPc → Bool
  | .spin | .fork | .bump => true
  | _ => false

/-- Where a mutator is in `forkgc_wait_for_snapshot`, with the `old_counter` it read. -/
inductive MPc where
  | idle
  | read
  | spill (old : Nat)
  | inc (old : Nat)
  | wait (old : Nat)
  deriving DecidableEq, Repr

/-- The `old_counter` a mutator holds. -/
def MPc.oldCounter : MPc → Option Nat
  | .spill o | .inc o | .wait o => some o
  | _ => none

/-- In the handler and not yet counted in `g_received_signal`. -/
def MPc.active : MPc → Bool
  | .read | .spill _ | .inc _ => true
  | _ => false

/-- Spinning on `g_cleanup_counter`. -/
def MPc.waiting : MPc → Bool
  | .wait _ => true
  | _ => false

theorem MPc.active_eq_false_of_waiting {p : MPc} (h : p.waiting = true) : p.active = false := by
  cases p <;> first | rfl | cases h

/-- The barrier's shared variables, the threads' program points, and the ghost fields `cycle`
(increments of `g_cleanup_counter` so far), `sigSet` (the mutators signalled in this cycle) and
`mcyc` (the cycle whose signal each mutator last took). -/
structure Barrier where
  pc : CPc
  received : Nat
  counter : Nat
  sigCount : Nat
  mutPc : Nat → MPc
  pend : Nat → Bool
  cycle : Nat
  sigSet : Finset Nat
  mcyc : Nat → Nat

/-- No cycle has started and no mutator is in its handler. -/
def Barrier.init : Barrier := ⟨.reset, 0, 0, 0, fun _ => .idle, fun _ => false, 0, ∅, fun _ => 0⟩

/-- One step of the collector or of one mutator. -/
inductive Barrier.Step : Barrier → Barrier → Prop
  | reset (s : Barrier) (h : s.pc = .reset) : Step s { s with received := 0, pc := .signal }
  /-- Modelled from the spec: `threadscan_proc_signal` (not among the sources) delivers
  `SIGTHREADSCAN` to a set of mutators and returns how many. -/
  | signal (s : Barrier) (S : Finset Nat) (h : s.pc = .signal) :
      Step s { s with sigSet := S, sigCount := S.card, pend := fun m => s.pend m || decide (m ∈ S),
                      pc := .spin }
  | spinDone (s : Barrier) (h : s.pc = .spin) (hc : s.sigCount ≤ s.received) :
      Step s { s with pc := .fork }
  | fork (s : Barrier) (h : s.pc = .fork) : Step s { s with pc := .bump }
  | bump (s : Barrier) (h : s.pc = .bump) :
      Step s { s with counter := (s.counter + 1) % 2 ^ 64, cycle := s.cycle + 1, pc := .reset }
  | enter (s : Barrier) (m : Nat) (h : s.mutPc m = .idle) (hp : s.pend m = true) :
      Step s { s with mutPc := Function.update s.mutPc m .read, pend := Function.update s.pend m false,
                      mcyc := Function.update s.mcyc m s.cycle }
  | read (s : Barrier) (m : Nat) (h : s.mutPc m = .read) :
      Step s { s with mutPc := Function.update s.mutPc m (.spill s.counter) }
  | spill (s : Barrier) (m old : Nat) (h : s.mutPc m = .spill old) :
      Step s { s with mutPc := Function.update s.mutPc m (.inc old) }
  | inc (s : Barrier) (m old : Nat) (h : s.mutPc m = .inc old) :
      Step s { s with received := s.received + 1, mutPc := Function.update s.mutPc m (.wait old) }
  | ret (s : Barrier) (m old : Nat) (h : s.mutPc m = .wait old) (hne : s.counter ≠ old) :
      Step s { s with mutPc := Function.update s.mutPc m .idle }

def Barrier.Reachable (s : Barrier) : Prop := Relation.ReflTransGen Barrier.Step Barrier.init s

/-- The mutator has spilled and been counted in this cycle. -/
def Barrier.Arrived (s : Barrier) (m : Nat) : Prop := (s.mutPc m).waiting = true ∧ s.mcyc m = s.cycle

instance (s : Barrier) : DecidablePred s.Arrived := fun _ => inferInstanceAs (Decidable (_ ∧ _))

/-! ## The invariant -/

/-- What holds in every reachable state. -/
structure Barrier.Inv (s : Barrier) : Prop where
  counter : s.counter = s.cycle % 2 ^ 64
  mcyc_le : ∀ m, s.mcyc m ≤ s.cycle
  old : ∀ m o, (s.mutPc m).oldCounter = some o → o = s.mcyc m % 2 ^ 64
  active : ∀ m, (s.mutPc m).active = true →
    s.pc = .spin ∧ m ∈ s.sigSet ∧ s.mcyc m = s.cycle ∧ s.pend m = false
  pend : ∀ m, s.pend m = true → s.pc = .spin ∧ m ∈ s.sigSet ∧ ¬ s.Arrived m
  arrived : ∀ m, s.Arrived m → s.pc.snapshotting = true ∧ m ∈ s.sigSet
  signal : s.pc = .signal → s.received = 0
  count : s.pc.snapshotting = true →
    s.received = (s.sigSet.filter s.Arrived).card ∧ s.sigCount = s.sigSet.card
  all : s.pc = .fork ∨ s.pc = .bump → ∀ m ∈ s.sigSet, s.Arrived m

namespace Barrier.Inv

variable {s : Barrier}

/-- Once `g_received_signal` has reached `sig_count`, every signalled mutator has arrived. -/
theorem all_arrived (hi : s.Inv) (hpc : s.pc = .spin) (hc : s.sigCount ≤ s.received) :
    ∀ m ∈ s.sigSet, s.Arrived m := by
  obtain ⟨hrec, hcount⟩ := hi.count (by rw [hpc]; rfl)
  have heq : s.sigSet.filter s.Arrived = s.sigSet :=
    Finset.eq_of_subset_of_card_le (Finset.filter_subset _ _) (by omega)
  exact fun m hm => (Finset.mem_filter.mp (heq ▸ hm)).2

/-- A mutator that returns took the signal of an earlier cycle. -/
theorem mcyc_lt (hi : s.Inv) {m old : Nat} (h : s.mutPc m = .wait old) (hne : s.counter ≠ old) :
    s.mcyc m < s.cycle := by
  have ho := hi.old m old (by rw [h]; rfl)
  have := hi.mcyc_le m
  rw [hi.counter] at hne
  by_contra hlt
  exact hne (by rw [ho, show s.mcyc m = s.cycle by omega])

theorem after_reset (hi : s.Inv) (h : s.pc = .reset) : Barrier.Inv { s with received := 0, pc := .signal } where
  counter := hi.counter
  mcyc_le := hi.mcyc_le
  old := hi.old
  active m hm := absurd ((hi.active m hm).1.symm.trans h) (by decide)
  pend m hm := absurd ((hi.pend m hm).1.symm.trans h) (by decide)
  arrived m hm := absurd (hi.arrived m hm).1 (by rw [h]; decide)
  signal _ := rfl
  count := nofun
  all h' := by simp at h'

theorem after_signal (hi : s.Inv) (S : Finset Nat) (h : s.pc = .signal) :
    Barrier.Inv { s with sigSet := S, sigCount := S.card,
                         pend := fun m => s.pend m || decide (m ∈ S), pc := .spin } := by
  have hnone : ∀ m, ¬ s.Arrived m := fun m hm => absurd (hi.arrived m hm).1 (by rw [h]; decide)
  refine ⟨hi.counter, hi.mcyc_le, hi.old, fun m hm => ?_, fun m hm => ?_, fun m hm => ?_,
    nofun, fun _ => ⟨?_, rfl⟩, fun h' => by simp at h'⟩
  · exact absurd ((hi.active m hm).1.symm.trans h) (by decide)
  · simp only [Bool.or_eq_true, decide_eq_true_eq] at hm
    rcases hm with hm | hm
    · exact absurd ((hi.pend m hm).1.symm.trans h) (by decide)
    · exact ⟨rfl, hm, hnone m⟩
  · exact absurd hm (hnone m)
  · show s.received = (S.filter s.Arrived).card
    rw [hi.signal h, Finset.filter_false_of_mem fun m _ => hnone m, Finset.card_empty]

theorem after_spinDone (hi : s.Inv) (h : s.pc = .spin) (hc : s.sigCount ≤ s.received) :
    Barrier.Inv { s with pc := .fork } := by
  have hall := hi.all_arrived h hc
  refine ⟨hi.counter, hi.mcyc_le, hi.old, fun m hm => ?_, fun m hm => ?_,
    fun m hm => ⟨rfl, (hi.arrived m hm).2⟩, nofun,
    fun _ => hi.count (by rw [h]; rfl), fun _ => hall⟩
  · exact absurd hm (by
      simp only [MPc.active_eq_false_of_waiting (hall m (hi.active m hm).2.1).1, Bool.false_eq_true,
        not_false_eq_true])
  · exact absurd (hall m (hi.pend m hm).2.1) (hi.pend m hm).2.2

theorem after_fork (hi : s.Inv) (h : s.pc = .fork) : Barrier.Inv { s with pc := .bump } where
  counter := hi.counter
  mcyc_le := hi.mcyc_le
  old := hi.old
  active m hm := absurd ((hi.active m hm).1.symm.trans h) (by decide)
  pend m hm := absurd ((hi.pend m hm).1.symm.trans h) (by decide)
  arrived m hm := ⟨rfl, (hi.arrived m hm).2⟩
  signal := nofun
  count _ := hi.count (by rw [h]; rfl)
  all _ := hi.all (.inl h)

theorem after_bump (hi : s.Inv) (h : s.pc = .bump) :
    Barrier.Inv { s with counter := (s.counter + 1) % 2 ^ 64, cycle := s.cycle + 1,
                         pc := .reset } where
  counter := by simp only [hi.counter, Nat.mod_add_mod]
  mcyc_le m := Nat.le_succ_of_le (hi.mcyc_le m)
  old := hi.old
  active m hm := absurd ((hi.active m hm).1.symm.trans h) (by decide)
  pend m hm := absurd ((hi.pend m hm).1.symm.trans h) (by decide)
  arrived m hm := absurd hm.2 (by have := hi.mcyc_le m; simp only; omega)
  signal := nofun
  count := nofun
  all h' := by simp at h'

/-- The collector's half of the invariant carries over a step that leaves the collector's
variables and every mutator's arrival alone. -/
theorem collector_frame (hi : s.Inv) {t : Barrier} (harr : ∀ m, t.Arrived m ↔ s.Arrived m)
    (hpc : t.pc = s.pc) (hrec : t.received = s.received) (hcnt : t.sigCount = s.sigCount)
    (hset : t.sigSet = s.sigSet) :
    (∀ m, t.Arrived m → t.pc.snapshotting = true ∧ m ∈ t.sigSet) ∧
      (t.pc = .signal → t.received = 0) ∧
      (t.pc.snapshotting = true →
        t.received = (t.sigSet.filter t.Arrived).card ∧ t.sigCount = t.sigSet.card) ∧
      (t.pc = .fork ∨ t.pc = .bump → ∀ m ∈ t.sigSet, t.Arrived m) := by
  refine ⟨fun m hm => by rw [hpc, hset]; exact hi.arrived m ((harr m).mp hm),
    fun h => by rw [hrec]; exact hi.signal (hpc ▸ h), fun h => ?_,
    fun h m hm => (harr m).mpr (hi.all (hpc ▸ h) m (hset ▸ hm))⟩
  rw [hrec, hcnt, hset, Finset.filter_congr fun m _ => harr m]
  exact hi.count (hpc ▸ h)

theorem after_enter (hi : s.Inv) {m : Nat} (h : s.mutPc m = .idle) (hp : s.pend m = true) :
    Barrier.Inv { s with mutPc := Function.update s.mutPc m .read,
                         pend := Function.update s.pend m false,
                         mcyc := Function.update s.mcyc m s.cycle } := by
  obtain ⟨hpc, hmS, -⟩ := hi.pend m hp
  have harr : ∀ m', Barrier.Arrived { s with mutPc := Function.update s.mutPc m .read,
                                             pend := Function.update s.pend m false,
                                             mcyc := Function.update s.mcyc m s.cycle } m' ↔
      s.Arrived m' := fun m' => by
    by_cases hm : m' = m
    · subst hm; simp [Barrier.Arrived, MPc.waiting, h]
    · simp [Barrier.Arrived, Function.update_noteq hm]
  obtain ⟨h₁, h₂, h₃, h₄⟩ := hi.collector_frame harr rfl rfl rfl rfl
  refine ⟨hi.counter, fun m' => ?_, fun m' o ho => ?_, fun m' hm' => ?_, fun m' hm' => ?_,
    h₁, h₂, h₃, h₄⟩
  · simp only [Function.update_apply]
    split_ifs
    exacts [le_rfl, hi.mcyc_le m']
  · simp only [Function.update_apply] at ho ⊢
    split_ifs at ho ⊢
    · cases ho
    · exact hi.old m' o ho
  · simp only [Function.update_apply] at hm' ⊢
    split_ifs at hm' ⊢ with hm
    · exact ⟨hpc, hm ▸ hmS, rfl, rfl⟩
    · exact hi.active m' hm'
  · simp only [Function.update_apply] at hm'
    split_ifs at hm'
    obtain ⟨h₅, h₆, h₇⟩ := hi.pend m' hm'
    exact ⟨h₅, h₆, (harr m').not.mpr h₇⟩

/-- A step of mutator `m` that changes only its program point, to one where it has not
arrived, keeps the invariant when the new point's facts hold. -/
theorem after_setMut (hi : s.Inv) {m : Nat} {p : MPc} (hna : ¬ s.Arrived m)
    (hw : p.waiting = false) (hold : ∀ o, p.oldCounter = some o → o = s.mcyc m % 2 ^ 64)
    (hact : p.active = true → s.pc = .spin ∧ m ∈ s.sigSet ∧ s.mcyc m = s.cycle ∧ s.pend m = false) :
    Barrier.Inv { s with mutPc := Function.update s.mutPc m p } := by
  have harr : ∀ m', Barrier.Arrived { s with mutPc := Function.update s.mutPc m p } m' ↔
      s.Arrived m' := fun m' => by
    by_cases hm : m' = m
    · subst hm
      simp only [Barrier.Arrived, Function.update_same, hw, Bool.false_eq_true, false_and, false_iff]
      exact hna
    · simp [Barrier.Arrived, Function.update_noteq hm]
  obtain ⟨h₁, h₂, h₃, h₄⟩ := hi.collector_frame harr rfl rfl rfl rfl
  refine ⟨hi.counter, hi.mcyc_le, fun m' o ho => ?_, fun m' hm' => ?_, fun m' hm' => ?_,
    h₁, h₂, h₃, h₄⟩
  · simp only [Function.update_apply] at ho
    split_ifs at ho with hm
    · exact hm ▸ hold o ho
    · exact hi.old m' o ho
  · simp only [Function.update_apply] at hm'
    split_ifs at hm' with hm
    · exact hm ▸ hact hm'
    · exact hi.active m' hm'
  · obtain ⟨h₅, h₆, h₇⟩ := hi.pend m' hm'
    exact ⟨h₅, h₆, (harr m').not.mpr h₇⟩

theorem after_read (hi : s.Inv) {m : Nat} (h : s.mutPc m = .read) :
    Barrier.Inv { s with mutPc := Function.update s.mutPc m (.spill s.counter) } := by
  have hact := hi.active m (by rw [h]; rfl)
  refine hi.after_setMut (fun ha => ?_) rfl (fun o ho => ?_) fun _ => hact
  · have := ha.1; rw [h] at this; cases this
  · cases ho; rw [hi.counter, hact.2.2.1]

theorem after_spill (hi : s.Inv) {m old : Nat} (h : s.mutPc m = .spill old) :
    Barrier.Inv { s with mutPc := Function.update s.mutPc m (.inc old) } := by
  refine hi.after_setMut (fun ha => ?_) rfl (fun o ho => hi.old m o (by rw [h]; exact ho))
    fun _ => hi.active m (by rw [h]; rfl)
  have := ha.1; rw [h] at this; cases this

theorem after_ret (hi : s.Inv) {m old : Nat} (h : s.mutPc m = .wait old) (hne : s.counter ≠ old) :
    Barrier.Inv { s with mutPc := Function.update s.mutPc m .idle } :=
  hi.after_setMut (fun ha => absurd ha.2 (hi.mcyc_lt h hne).ne) rfl (fun _ ho => nomatch ho) nofun

theorem after_inc (hi : s.Inv) {m old : Nat} (h : s.mutPc m = .inc old) :
    Barrier.Inv { s with received := s.received + 1,
                         mutPc := Function.update s.mutPc m (.wait old) } := by
  obtain ⟨hpc, hmS, hcyc, hpend⟩ := hi.active m (by rw [h]; rfl)
  have hna : ¬ s.Arrived m := fun ha => by have := ha.1; rw [h] at this; cases this
  have harr : ∀ m', Barrier.Arrived { s with received := s.received + 1,
                                             mutPc := Function.update s.mutPc m (.wait old) } m' ↔
      s.Arrived m' ∨ m' = m := fun m' => by
    by_cases hm : m' = m
    · subst hm; simp [Barrier.Arrived, hcyc, MPc.waiting]
    · simp [Barrier.Arrived, Function.update_noteq hm, hm]
  refine ⟨hi.counter, hi.mcyc_le, fun m' o ho => ?_, fun m' hm' => ?_, fun m' hm' => ?_,
    fun m' hm' => ?_, fun h' => absurd (hpc.symm.trans h') (by decide), fun _ => ⟨?_, ?_⟩,
    fun h' => by simp [hpc] at h'⟩
  · simp only [Function.update_apply] at ho
    split_ifs at ho with hm
    · cases ho; exact hm ▸ hi.old m old (by rw [h]; rfl)
    · exact hi.old m' o ho
  · simp only [Function.update_apply] at hm'
    split_ifs at hm' with hm
    · cases hm'
    · exact hi.active m' hm'
  · obtain ⟨h₅, h₆, h₇⟩ := hi.pend m' hm'
    refine ⟨h₅, h₆, fun ha => ((harr m').mp ha).elim h₇ fun hm => ?_⟩
    rw [hm, hpend] at hm'; cases hm'
  · rcases (harr m').mp hm' with ha | rfl
    · exact hi.arrived m' ha
    · exact ⟨by rw [show s.pc = .spin from hpc]; rfl, hmS⟩
  · have hfilter : s.sigSet.filter (fun m' => s.Arrived m' ∨ m' = m) =
        insert m (s.sigSet.filter s.Arrived) := by
      ext m'
      by_cases hm : m' = m
      · subst hm; simp [hmS]
      · simp [hm]
    show s.received + 1 = (s.sigSet.filter _).card
    rw [Finset.filter_congr fun m' _ => harr m', hfilter,
      Finset.card_insert_of_not_mem fun hf => hna (Finset.mem_filter.mp hf).2,
      ← (hi.count (by rw [hpc]; rfl)).1]
  · exact (hi.count (by rw [hpc]; rfl)).2

/-- **Every step keeps the invariant.** -/
theorem step (hi : s.Inv) {t : Barrier} (hst : Barrier.Step s t) : t.Inv := by
  cases hst with
  | reset h => exact hi.after_reset h
  | signal S h => exact hi.after_signal S h
  | spinDone h hc => exact hi.after_spinDone h hc
  | fork h => exact hi.after_fork h
  | bump h => exact hi.after_bump h
  | enter _ h hp => exact hi.after_enter h hp
  | read _ h => exact hi.after_read h
  | spill _ _ h => exact hi.after_spill h
  | inc _ _ h => exact hi.after_inc h
  | ret _ _ h hne => exact hi.after_ret h hne

theorem init : Barrier.init.Inv where
  counter := rfl
  mcyc_le _ := le_rfl
  old _ _ h := nomatch h
  active _ h := nomatch h
  pend _ h := nomatch h
  arrived _ h := nomatch h.1
  signal := nofun
  count := nofun
  all h := by simp [Barrier.init] at h

theorem reachable {s : Barrier} (hr : Barrier.Reachable s) : s.Inv := by
  induction hr with
  | refl => exact init
  | tail _ hst ih => exact ih.step hst

end Barrier.Inv

/-- Only a mutator's own return takes it from its spin back to idle, and only past a changed
counter. -/
theorem Barrier.Step.counter_ne_of_return {s t : Barrier} (hst : Barrier.Step s t) {m old : Nat}
    (hw : s.mutPc m = .wait old) (hidle : t.mutPc m = .idle) : s.counter ≠ old := by
  cases hst with
  | ret m' old' h hne =>
    by_cases hm : m = m'
    · subst hm; rw [hw] at h; cases h; exact hne
    · simp [Function.update_noteq hm, hw] at hidle
  | enter m' h _ | read m' h | spill m' _ h | inc m' _ h =>
    by_cases hm : m = m'
    · subst hm; rw [hw] at h; cases h
    · simp [Function.update_noteq hm, hw] at hidle
  | _ => simp [hw] at hidle

/-- **The snapshot barrier.** In every reachable state, over any number of cycles and any
interleaving: when the collector is about to fork, every mutator signalled in this cycle has
spilled its registers and incremented `g_received_signal` for this cycle's signal, and waits;
and a mutator returns from `forkgc_wait_for_snapshot` only once `g_cleanup_counter` has been
incremented after the fork of the cycle whose signal it took. -/
theorem snapshot_barrier {s : Barrier} (hr : Barrier.Reachable s) :
    (s.pc = .fork → ∀ m ∈ s.sigSet, ∃ old, s.mutPc m = .wait old ∧ s.mcyc m = s.cycle) ∧
      ∀ t, Barrier.Step s t → ∀ m old, s.mutPc m = .wait old → t.mutPc m = .idle →
        s.mcyc m < s.cycle := by
  have hi := Barrier.Inv.reachable hr
  refine ⟨fun hpc m hm => ?_, fun t hst m old hw hidle =>
    hi.mcyc_lt hw (hst.counter_ne_of_return hw hidle)⟩
  obtain ⟨hw, hc⟩ := hi.all (.inl hpc) m hm
  revert hw; cases s.mutPc m <;> simp [MPc.waiting, hc]

/-- One mutator is signalled, spills its registers and is counted: the collector reaches its
fork with that mutator waiting on this cycle's counter. -/
theorem snapshot_barrier_run :
    ∃ s, Barrier.Reachable s ∧ s.pc = .fork ∧ s.sigSet = {0} ∧
      ∃ old, s.mutPc 0 = .wait old ∧ s.mcyc 0 = s.cycle := by
  have hr := (((((((Relation.ReflTransGen.refl (r := Barrier.Step) (a := Barrier.init)).tail
    (.reset _ rfl)).tail (.signal _ {0} rfl)).tail (.enter _ 0 rfl (by decide))).tail
    (.read _ 0 rfl)).tail (.spill _ 0 0 rfl)).tail (.inc _ 0 0 rfl)).tail
    (.spinDone _ rfl (by decide))
  exact ⟨_, hr, rfl, rfl, (snapshot_barrier hr).1 rfl 0 (Finset.mem_singleton_self 0)⟩

end ForkScan
