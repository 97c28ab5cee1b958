import Mathlib

/-!
# ForkScan — the carry-over chain and the redistribution of survivors

After the sweep, `garbage_collect` writes the surviving addresses back into the batches of the
chain it was given (the carry-over chain of the last cycle, then the new batches), cuts the
chain after the last batch it wrote into, and releases the batches after it. The head of what
is kept is `g_uncollected_data`, prepended to the next cycle's chain.

A chain is the list of its batches in `next` order; a batch keeps its identity in `id`, so that
a released batch can be told apart. The loop's state `Redist` is a cursor over the chain: the
batches already filled, the batch `gc_data` points to, and the batches after it. Each store of
the loop records its index and its batch's capacity, so that an out-of-bounds store is seen
(`Redist.stores`); the model is the build with `NDEBUG`.

A batch of capacity zero after the head overflows at its first store, but with room in every
later batch and no more survivors than capacity, every store is in bounds and every survivor is
kept, in order (`redistribution_in_bounds`). The carry-over pointer is not: a cycle that starts
from a carry-over chain and frees every address releases that chain and leaves
`g_uncollected_data` pointing into it (`carry_over_dangles`).
-/

namespace ForkScan

/-- A `gc_data_t` batch: its identity, how many addresses it can hold, how many it holds, and its
address array. Its `next` link is the order of the list that holds it. -/
structure Batch where
  id : Nat
  capacity : Nat
  nAddrs : Nat
  addrs : Nat → Nat

/-- The addresses a batch holds, `addrs[0..n_addrs)`. -/
def Batch.contents (b : Batch) : List Nat := (List.range b.nAddrs).map b.addrs

/-- `gc_data->addrs[gc_data->n_addrs++] = a`. -/
def Batch.push (b : Batch) (a : Nat) : Batch :=
  { b with addrs := Function.update b.addrs b.nAddrs a, nAddrs := b.nAddrs + 1 }

@[simp] theorem Batch.push_id (b : Batch) (a : Nat) : (b.push a).id = b.id := rfl
@[simp] theorem Batch.push_capacity (b : Batch) (a : Nat) : (b.push a).capacity = b.capacity := rfl
@[simp] theorem Batch.push_nAddrs (b : Batch) (a : Nat) : (b.push a).nAddrs = b.nAddrs + 1 := rfl

@[simp] theorem Batch.contents_push (b : Batch) (a : Nat) :
    (b.push a).contents = b.contents ++ [a] := by
  simp only [Batch.contents, Batch.push, List.range_succ, List.map_append, List.map_cons,
    List.map_nil, Function.update_same]
  exact congrArg (· ++ [a])
    (List.map_congr_left fun i hi => Function.update_noteq (List.mem_range.mp hi).ne _ _)

@[simp] theorem Batch.contents_reset (b : Batch) : { b with nAddrs := 0 }.contents = [] := rfl

/-! ## The redistribution loop -/

/-- The state of the redistribution loop: the batches already filled, the batch `gc_data` points
to, the batches after it, `g_uncollected_data` as the id of its batch, and each store so far as
its index and the capacity of the batch it went into. -/
structure Redist where
  done : List Batch
  cur : Batch
  rest : List Batch
  uncollected : Option Nat
  stores : List (Nat × Nat)

/-- One iteration of the loop, storing the survivor `a`; `none` where `assert(gc_data != NULL)`
fails. -/
def redistStep (r : Redist) (a : Nat) : Option Redist :=
  let uncollected := some (r.uncollected.getD r.cur.id)
  if r.cur.capacity ≤ r.cur.nAddrs then
    match r.rest with
    | [] => none
    | b :: rest =>
      some ⟨r.done ++ [r.cur], { b with nAddrs := 0 }.push a, rest, uncollected,
        r.stores ++ [(0, b.capacity)]⟩
  else
    some ⟨r.done, r.cur.push a, r.rest, uncollected, r.stores ++ [(r.cur.nAddrs, r.cur.capacity)]⟩

/-- The loop over the survivors. -/
def redistribute (r : Redist) : List Nat → Option Redist
  | [] => some r
  | a :: as => (redistStep r a).bind fun r' => redistribute r' as

/-- `gc_data->n_addrs = 0;` and the loop, from the head of the chain. -/
def redistributeChain (head : Batch) (rest : List Batch) (uncollected : Option Nat)
    (survivors : List Nat) : Option Redist :=
  redistribute ⟨[], { head with nAddrs := 0 }, rest, uncollected, []⟩ survivors

/-- The addresses the loop can still store: what is left in `gc_data` and the batches after it. -/
def Redist.room (r : Redist) : Nat :=
  (r.cur.capacity - r.cur.nAddrs) + (r.rest.map Batch.capacity).sum

/-- The addresses stored so far, in chain order. -/
def Redist.filled (r : Redist) : List Nat := (r.done ++ [r.cur]).flatMap Batch.contents

/-- What the loop keeps: `gc_data` is not over-full, every batch after it can hold an address,
and every store so far was below its batch's capacity. -/
structure Redist.Fits (r : Redist) : Prop where
  fill : r.cur.nAddrs ≤ r.cur.capacity
  rest : ∀ b ∈ r.rest, 0 < b.capacity
  stores : ∀ p ∈ r.stores, p.1 < p.2

/-- **One iteration with room left stores in bounds and keeps the survivor.** -/
theorem redistStep_fits {r : Redist} (hf : r.Fits) (hroom : 0 < r.room) (a : Nat) :
    ∃ r', redistStep r a = some r' ∧ r'.Fits ∧ r'.room + 1 = r.room ∧
      r'.filled = r.filled ++ [a] ∧ r'.uncollected = some (r.uncollected.getD r.cur.id) := by
  unfold redistStep
  by_cases hfull : r.cur.capacity ≤ r.cur.nAddrs
  · rw [if_pos hfull]
    obtain ⟨done, cur, rest, unc, stores⟩ := r
    cases rest with
    | nil => simp only [Redist.room, List.map_nil, List.sum_nil] at hroom hfull; omega
    | cons b rest =>
      have hb := hf.rest b (List.mem_cons_self b rest)
      refine ⟨_, rfl, ⟨?_, fun c hc => hf.rest c (List.mem_cons_of_mem b hc), ?_⟩, ?_, ?_, rfl⟩
      · simp only [Batch.push_nAddrs, Batch.push_capacity]; omega
      · simp only [List.mem_append, List.mem_singleton]
        rintro p (hp | rfl)
        · exact hf.stores p hp
        · exact hb
      · have hfill := hf.fill
        simp only [Redist.room, Batch.push_nAddrs, Batch.push_capacity, List.map_cons,
          List.sum_cons] at hfull hfill ⊢
        omega
      · simp [Redist.filled]
  · rw [if_neg hfull]
    refine ⟨_, rfl, ⟨by simp only [Batch.push_nAddrs, Batch.push_capacity]; omega, hf.rest, ?_⟩,
      ?_, by simp [Redist.filled], rfl⟩
    · simp only [List.mem_append, List.mem_singleton]
      rintro p (hp | rfl)
      · exact hf.stores p hp
      · exact Nat.lt_of_not_le hfull
    · simp only [Redist.room, Batch.push_nAddrs, Batch.push_capacity]; omega

/-- **A run of the loop with room for every survivor stores each in bounds, in order.** -/
theorem redistribute_fits {r : Redist} (hf : r.Fits) (as : List Nat) (has : as.length ≤ r.room) :
    ∃ r', redistribute r as = some r' ∧ r'.Fits ∧ r'.filled = r.filled ++ as ∧
      (as ≠ [] → r'.uncollected = some (r.uncollected.getD r.cur.id)) := by
  induction as generalizing r with
  | nil => exact ⟨r, rfl, hf, by simp, fun h => absurd rfl h⟩
  | cons a as ih =>
    obtain ⟨r₁, h₁, hf₁, hroom₁, hfill₁, hunc₁⟩ :=
      redistStep_fits hf (by simp only [List.length_cons] at has; omega) a
    obtain ⟨r₂, h₂, hf₂, hfill₂, hunc₂⟩ := ih hf₁ (by simp only [List.length_cons] at has; omega)
    refine ⟨r₂, by rw [redistribute, h₁, Option.some_bind, h₂], hf₂, by simp [hfill₂, hfill₁],
      fun _ => ?_⟩
    cases as with
    | nil =>
      simp only [redistribute, Option.some.injEq] at h₂
      exact h₂ ▸ hunc₁
    | cons => rw [hunc₂ (List.cons_ne_nil _ _), hunc₁]; rfl

/-- **Every survivor is stored in bounds, in order, and the loop never runs off the chain**,
when every batch after the head can hold an address and the chain's capacity covers the
survivors. -/
theorem redistribution_in_bounds (head : Batch) (rest : List Batch) (uncollected : Option Nat)
    (survivors : List Nat) (hcap : ∀ b ∈ rest, 0 < b.capacity)
    (hS : survivors.length ≤ ((head :: rest).map Batch.capacity).sum) :
    ∃ r, redistributeChain head rest uncollected survivors = some r ∧
      (∀ p ∈ r.stores, p.1 < p.2) ∧ r.filled = survivors := by
  obtain ⟨r, h, hf, hfill, -⟩ := redistribute_fits (r := ⟨[], { head with nAddrs := 0 }, rest,
    uncollected, []⟩) ⟨Nat.zero_le _, hcap, fun _ h => (nomatch h)⟩ survivors
    (by simpa [Redist.room] using hS)
  exact ⟨r, h, hf.stores, by simpa [Redist.filled] using hfill⟩

/-- A batch of capacity `c` holding the addresses `xs`. -/
def Batch.ofList (id c : Nat) (xs : List Nat) : Batch := ⟨id, c, xs.length, fun i => xs.getD i 0⟩

theorem redistribution_in_bounds_sample :
    (∀ b ∈ [Batch.ofList 2 1 [32]], 0 < b.capacity) ∧
      [16, 32].length ≤ ([Batch.ofList 1 1 [16], Batch.ofList 2 1 [32]].map Batch.capacity).sum ∧
      ∃ r, redistributeChain (Batch.ofList 1 1 [16]) [Batch.ofList 2 1 [32]] none [16, 32] =
        some r ∧ (∀ p ∈ r.stores, p.1 < p.2) ∧ r.filled = [16, 32] :=
  ⟨by decide, by decide, redistribution_in_bounds (Batch.ofList 1 1 [16]) [Batch.ofList 2 1 [32]]
    none [16, 32] (by decide) (by decide)⟩

/-- **A batch of capacity zero in the chain is written past its end.** Every batch holds no
more than its capacity and the two survivors are two of the chain's addresses, but when the
head is full the loop steps into the empty batch and stores at its index `0`, without looking
at its capacity again. -/
theorem zero_capacity_overflow :
    (∀ b ∈ [Batch.ofList 1 1 [16], Batch.ofList 2 0 [], Batch.ofList 3 1 [32]],
        b.nAddrs ≤ b.capacity) ∧
      [16, 32].length ≤ ([Batch.ofList 1 1 [16], Batch.ofList 2 0 [], Batch.ofList 3 1 [32]].map
        Batch.nAddrs).sum ∧
      (redistributeChain (Batch.ofList 1 1 [16]) [Batch.ofList 2 0 [], Batch.ofList 3 1 [32]] none
        [16, 32]).map Redist.stores = some [(0, 1), (0, 0)] := by
  decide

/-! ## The cycle -/

/-- The collector between cycles: `g_uncollected_data` as the id of its batch, the chain reached
from it along `next`, the batches `threadscan_alloc_munmap` has released, and the addresses
passed to `free`. -/
structure Collector where
  uncollected : Option Nat
  carry : List Batch
  released : List Nat
  freed : List Nat

/-- Before the first cycle. -/
def Collector.init : Collector := ⟨none, [], [], []⟩

/-- The end of `garbage_collect`: if `gc_data` holds survivors, the chain is cut after it and the
batches after it are released; otherwise `gc_data` and every batch after it are released
(where a debug build asserts `NULL == g_uncollected_data`). What stays is the chain headed by
`g_uncollected_data`. -/
def trimChain (c : Collector) (r : Redist) : Collector :=
  if r.cur.nAddrs ≠ 0 then
    { c with uncollected := r.uncollected, carry := r.done ++ [r.cur],
             released := c.released ++ r.rest.map Batch.id }
  else
    { c with uncollected := r.uncollected,
             carry := if r.uncollected.isSome then r.done ++ r.cur :: r.rest else [],
             released := c.released ++ (r.cur :: r.rest).map Batch.id }

/-- `garbage_collect(gc_data, commq)` on the chain `fresh`, the sweep keeping `survivors` (in
sorted order) and freeing the rest. Walking a carry-over chain with a released batch reads
released memory; an empty chain is a `NULL` `gc_data`, dereferenced before the loop. -/
def garbageCollect (c : Collector) (fresh : List Batch) (survivors : List Nat) :
    Except String Collector :=
  if c.uncollected.isSome ∧ c.carry.any (fun b => b.id ∈ c.released) then
    .error "read of a released batch"
  else
    let chain := if c.uncollected.isSome then c.carry ++ fresh else fresh
    match chain with
    | [] => .error "gc_data is NULL"
    | head :: rest =>
      match redistributeChain head rest c.uncollected survivors with
      | none => .error "gc_data != NULL"
      | some r =>
        .ok (trimChain { c with freed := c.freed ++ (chain.flatMap Batch.contents).diff survivors } r)

/-- **A cycle that frees every address of a carry-over chain leaves `g_uncollected_data`
dangling.** The first cycle keeps `16` in batch `1`; the second frees `16` and `48`, releases
batches `1` and `2`, and leaves `g_uncollected_data` on batch `1`; every later cycle walks
the released batch. -/
theorem carry_over_dangles :
    ∃ c : Collector, (garbageCollect .init [Batch.ofList 1 2 [16, 32]] [16] >>= fun c₁ =>
        garbageCollect c₁ [Batch.ofList 2 2 [48]] []) = .ok c ∧
      c.uncollected = some 1 ∧ 1 ∈ c.released ∧ c.freed = [32, 16, 48] ∧
      ∀ fresh survivors, garbageCollect c fresh survivors = .error "read of a released batch" :=
  ⟨_, rfl, rfl, by decide, rfl, fun _ _ => rfl⟩

end ForkScan
