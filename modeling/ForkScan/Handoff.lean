import ForkScan.Collect

/-!
# ForkScan — handing batches to the collector thread

Mutators hand batches to the collector with `forkgc_initiate_collection`, which pushes the batch
on `g_gc_data` under `g_gc_mutex`; the collector thread takes the whole list under the same
mutex and passes it to `garbage_collect`:

```
pthread_mutex_lock(&g_gc_mutex);
if (NULL == g_gc_data) {
    g_gc_waiting = 1;
    pthread_cond_wait(&g_gc_cond, &g_gc_mutex);
    g_gc_waiting = 0;
}
assert(g_gc_data);
gc_data = g_gc_data;
g_gc_data = NULL;
pthread_mutex_unlock(&g_gc_mutex);
```

Everything under the mutex is one step. A batch is its id and a chain the list of its batches,
newest first. `pthread_cond_wait` may return at any time, without a signal, as POSIX permits;
so `wake` is enabled whenever the collector waits, and `pthread_cond_signal` changes nothing a
step depends on. The chain taken is handed to `garbage_collect` at once: the collector's local
`gc_data` is not shared.

The batches are never lost or duplicated: each one enqueued is either still pending or in
exactly one handed chain (`handoff_partition`). But the `if` tests `g_gc_data` once: after a
wakeup with nothing pending the collector hands `garbage_collect` a `NULL` chain
(`spurious_wakeup_collects_null`).
-/

namespace ForkScan

/-- The hand-over's shared state, the collector's place, and the ghost history: the chains
handed to `garbage_collect` in order, and the batches enqueued, newest first. -/
structure Handoff where
  gcData : List Nat
  gcWaiting : Bool
  blocked : Bool
  handed : List (List Nat)
  enqueued : List Nat

/-- Nothing enqueued, the collector at the top of its loop. -/
def Handoff.init : Handoff := ⟨[], false, false, [], []⟩

/-- `gc_data = g_gc_data; g_gc_data = NULL;` and the call of `garbage_collect(gc_data, commq)`. -/
def Handoff.take (s : Handoff) : Handoff :=
  { s with gcData := [], handed := s.handed ++ [s.gcData] }

/-- The collector locks and tests `g_gc_data`: it waits if nothing is pending, and takes the
chain otherwise. -/
def Handoff.lockAndTest (s : Handoff) : Handoff :=
  if s.gcData = [] then { s with gcWaiting := true, blocked := true } else s.take

/-- `pthread_cond_wait` returns with the mutex held; the collector takes `g_gc_data` without
testing it again. -/
def Handoff.wake (s : Handoff) : Handoff := { s with gcWaiting := false, blocked := false }.take

/-- `forkgc_initiate_collection(gc_data)`: push the batch on `g_gc_data`. -/
def Handoff.initiate (s : Handoff) (b : Nat) : Handoff :=
  { s with gcData := b :: s.gcData, enqueued := b :: s.enqueued }

/-- One step: a mutator hands over a batch it has not handed over before, or the collector
tests the list, or a waiting collector returns from `pthread_cond_wait`. -/
inductive Handoff.Step : Handoff → Handoff → Prop
  | initiate (s : Handoff) (b : Nat) (hb : b ∉ s.enqueued) : Step s (s.initiate b)
  | lockAndTest (s : Handoff) (h : s.blocked = false) : Step s s.lockAndTest
  | wake (s : Handoff) (h : s.blocked = true) : Step s s.wake

def Handoff.Reachable (s : Handoff) : Prop := Relation.ReflTransGen Handoff.Step Handoff.init s

/-- The batches pending or handed over, each once: they are exactly the batches enqueued. -/
def Handoff.Partition (s : Handoff) : Prop :=
  s.enqueued.Nodup ∧ (s.gcData ++ s.handed.flatten).Perm s.enqueued

theorem Handoff.Partition.take {s : Handoff} (h : s.Partition) : s.take.Partition := by
  refine ⟨h.1, List.Perm.trans ?_ h.2⟩
  simp only [Handoff.take, List.nil_append, List.flatten_append, List.flatten_cons,
    List.flatten_nil, List.append_nil]
  exact List.perm_append_comm

/-- **Every step keeps each enqueued batch in exactly one place.** -/
theorem Handoff.Partition.step {s t : Handoff} (h : s.Partition) (hst : Handoff.Step s t) :
    t.Partition := by
  cases hst with
  | initiate b hb => exact ⟨List.nodup_cons.mpr ⟨hb, h.1⟩, h.2.cons b⟩
  | lockAndTest =>
    unfold Handoff.lockAndTest
    split_ifs
    · exact h
    · exact h.take
  | wake => exact Partition.take (s := { s with gcWaiting := false, blocked := false }) h

/-- **No batch is lost or duplicated.** In every reachable state, over any interleaving of the
mutators' hand-overs with the collector's loop and any wakeups, every batch enqueued so far is
either pending in `g_gc_data` or in exactly one chain handed to `garbage_collect`. -/
theorem handoff_partition {s : Handoff} (hr : Handoff.Reachable s) :
    ∀ b ∈ s.enqueued, (s.gcData ++ s.handed.flatten).count b = 1 := by
  have hp : s.Partition := by
    induction hr with
    | refl => exact ⟨List.nodup_nil, List.Perm.refl _⟩
    | tail _ hst ih => exact ih.step hst
  intro b hb
  rw [hp.2.count_eq, List.count_eq_one_of_mem hp.1 hb]

theorem handoff_partition_two :
    Handoff.Reachable ((Handoff.init.initiate 1).lockAndTest.initiate 2) ∧
      ∀ b ∈ ((Handoff.init.initiate 1).lockAndTest.initiate 2).enqueued,
        (((Handoff.init.initiate 1).lockAndTest.initiate 2).gcData ++
          ((Handoff.init.initiate 1).lockAndTest.initiate 2).handed.flatten).count b = 1 := by
  have hr : Handoff.Reachable ((Handoff.init.initiate 1).lockAndTest.initiate 2) :=
    ((Relation.ReflTransGen.refl.tail (.initiate _ 1 (by decide))).tail
      (.lockAndTest _ rfl)).tail (.initiate _ 2 (by decide))
  exact ⟨hr, handoff_partition hr⟩

/-- **A wakeup with nothing pending hands `garbage_collect` a `NULL` chain.** The collector finds
`g_gc_data` empty and waits; `pthread_cond_wait` returns without a signal; the collector takes
the empty list and calls `garbage_collect` on it, which, with nothing carried over,
dereferences the `NULL` `gc_data`. -/
theorem spurious_wakeup_collects_null :
    Handoff.Reachable Handoff.init.lockAndTest.wake ∧ Handoff.init.lockAndTest.wake.handed = [[]] ∧
      garbageCollect Collector.init [] [] = .error "gc_data is NULL" :=
  ⟨(Relation.ReflTransGen.refl.tail (.lockAndTest _ rfl)).tail (.wake _ rfl), rfl, rfl⟩

end ForkScan
