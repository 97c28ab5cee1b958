import Mathlib

/-!
# ForkScan — the thread registry of `util.c`

A `thread_list_t` links the `thread_data_t` records of the running threads through their
`next` fields from `tl->head`, and counts them in `tl->count`. `forkgc_util_thread_list_add`
pushes a record in front; `forkgc_util_thread_list_remove` walks to the record before the one
removed and links past it; `forkgc_util_thread_list_find` walks from the head to the first
record whose stack `[user_stack_low, user_stack_high)` holds an address and takes a reference
on it. Each holds `tl->lock` throughout, so each is one step.

Records are named by their address and held in a map from addresses to records; `NULL` is
`none`. The two walks follow pointers with no bound of their own, so the model bounds them by
`tl->count` steps, which is enough on a well-formed list; running out stands for a walk that
would not end.

* `Links records x l` — following `next` from `x` visits the records `l`, then `NULL`.
* `Registry.Run` — the runs from an initialised empty list, with the list of records each
  has added and not removed as a ghost.
* `thread_list_consistent` — along every run `tl->count` is the length of that list, the
  records linked from `tl->head` are exactly that list, each once, and `find` returns the first
  of them holding the address, taking one reference on it and changing nothing else.
-/

namespace ForkScan

/-- Modelled from the spec: the fields of `thread_data_t` the list functions read and write
(its header is not among the sources). `ref_count` is an `int`: `cleanup` tests
`ref_count > 0`, and an atomic decrement of a zero count leaves `-1`. -/
structure ThreadData where
  next : Option Nat
  userStackLow : Nat
  userStackHigh : Nat
  refCount : Int

/-- Modelled from the spec: the fields of `thread_list_t` besides its mutex. -/
structure ThreadList where
  head : Option Nat
  count : Nat

/-- A thread list and the records, by address. -/
structure Registry where
  tl : ThreadList
  records : Nat → ThreadData

/-- `forkgc_util_thread_list_init`: a list with no head gets its count reset; the mutex is
initialised there too, and never again. -/
def forkgcUtilThreadListInit (tl : ThreadList) : ThreadList :=
  if tl.head = none then { tl with count := 0 } else tl

/-- `forkgc_util_thread_list_add(tl, td)`: `td->next = tl->head; tl->head = td; ++tl->count`. -/
def forkgcUtilThreadListAdd (r : Registry) (td : Nat) : Registry where
  tl := ⟨some td, r.tl.count + 1⟩
  records := Function.update r.records td { r.records td with next := r.tl.head }

/-- The loop `while (tmp->next != td) { tmp = tmp->next; assert(NULL != tmp); }` from `tmp`,
for at most `fuel` steps: the record whose `next` is `td`, or `none` where the assertion
fails or the walk runs out. -/
def findPrev (records : Nat → ThreadData) (td : Nat) : Nat → Nat → Option Nat
  | 0, _ => none
  | fuel + 1, tmp =>
    if (records tmp).next = some td then some tmp
    else
      match (records tmp).next with
      | none => none
      | some t => findPrev records td fuel t

/-- `tl->count` decremented after `assert(tl->count > 0)`. -/
def ThreadList.decrCount (tl : ThreadList) : Option ThreadList :=
  if 0 < tl.count then some { tl with count := tl.count - 1 } else none

/-- `forkgc_util_thread_list_remove(tl, td)`: unlink `td` at the head, or after the record the
walk finds; `none` where an assertion fails. -/
def forkgcUtilThreadListRemove (r : Registry) (td : Nat) : Option Registry :=
  match r.tl.head with
  | none => none
  | some tmp =>
    if tmp = td then
      (ThreadList.decrCount { r.tl with head := (r.records td).next }).map fun tl =>
        { r with tl }
    else
      match findPrev r.records td r.tl.count tmp with
      | none => none
      | some prev =>
        r.tl.decrCount.map fun tl =>
          { tl
            records := Function.update r.records prev
              { r.records prev with next := (r.records td).next } }

/-- The loop of `forkgc_util_thread_list_find` from `ret`, for at most `fuel` records: the first
record whose stack holds `addr`, or `NULL` at the end of the list; `none` if the walk runs
out. -/
def findFrom (records : Nat → ThreadData) (addr : Nat) : Nat → Option Nat → Option (Option Nat)
  | _, none => some none
  | 0, some _ => none
  | fuel + 1, some t =>
    if (records t).userStackLow ≤ addr ∧ addr < (records t).userStackHigh then some (some t)
    else findFrom records addr fuel (records t).next

/-- `ref_count` incremented on the record `ret`, if any. -/
def takeRef (records : Nat → ThreadData) : Option Nat → Nat → ThreadData
  | none => records
  | some t => Function.update records t { records t with refCount := (records t).refCount + 1 }

theorem takeRef_apply (records : Nat → ThreadData) (ret : Option Nat) (k : Nat) :
    takeRef records ret k =
      if ret = some k then { records k with refCount := (records k).refCount + 1 }
      else records k := by
  cases ret with
  | none => rfl
  | some t =>
    by_cases h : t = k
    · subst h; simp [takeRef]
    · simp [takeRef, Function.update_noteq (Ne.symm h), h]

/-- `forkgc_util_thread_list_find(tl, addr)`: the record found, with one more reference. -/
def forkgcUtilThreadListFind (r : Registry) (addr : Nat) : Option (Registry × Option Nat) :=
  (findFrom r.records addr r.tl.count r.tl.head).map fun ret =>
    ({ r with records := takeRef r.records ret }, ret)

/-! ## Lists linked through `next` -/

/-- Following `next` from `x` visits the records of `l` in order, then reaches `NULL`. -/
inductive Links (records : Nat → ThreadData) : Option Nat → List Nat → Prop
  | nil : Links records none []
  | cons (td : Nat) (l : List Nat) : Links records (records td).next l →
      Links records (some td) (td :: l)

/-- The stack of `t` holds `addr`: the test of `forkgc_util_thread_list_find`. -/
def StackHolds (records : Nat → ThreadData) (addr t : Nat) : Bool :=
  decide ((records t).userStackLow ≤ addr ∧ addr < (records t).userStackHigh)

namespace Links

variable {records : Nat → ThreadData}

theorem cons_next {td : Nat} {l : List Nat} (h : Links records (some td) (td :: l)) :
    Links records (records td).next l := by
  cases h; assumption

theorem eq_some_of_cons {x : Option Nat} {t : Nat} {l : List Nat} (h : Links records x (t :: l)) :
    x = some t := by
  cases h; rfl

/-- A list links the same way through any records with the same `next` fields on it. -/
theorem congr {x : Option Nat} {l : List Nat} (h : Links records x l) {records' : Nat → ThreadData}
    (hnext : ∀ k ∈ l, (records' k).next = (records k).next) : Links records' x l := by
  induction h with
  | nil => exact .nil
  | cons td l _ ih =>
    refine .cons td l ?_
    rw [hnext td (List.mem_cons_self td l)]
    exact ih fun k hk => hnext k (List.mem_cons_of_mem td hk)

/-- The walk of `find` returns the first listed record whose stack holds `addr`. -/
theorem findFrom_eq {x : Option Nat} {l : List Nat} (h : Links records x l) (addr : Nat)
    {fuel : Nat} (hfuel : l.length ≤ fuel) :
    findFrom records addr fuel x = some (l.find? (StackHolds records addr)) := by
  induction h generalizing fuel with
  | nil => rw [findFrom]; rfl
  | cons td l _ ih =>
    obtain ⟨fuel, rfl⟩ : ∃ f, fuel = f + 1 := ⟨fuel - 1, by simp at hfuel; omega⟩
    rw [findFrom, List.find?_cons]
    by_cases hs : (records td).userStackLow ≤ addr ∧ addr < (records td).userStackHigh
    · rw [if_pos hs, show StackHolds records addr td = true from decide_eq_true hs]
    · rw [if_neg hs, show StackHolds records addr td = false from decide_eq_false hs,
        ih (by simp at hfuel; omega)]

/-- The walk of `remove` from the head `h` finds the record before `td`, and linking past `td`
there leaves the list with `td` erased. -/
theorem findPrev_erase {h : Nat} {l : List Nat} (hl : Links records (some h) (h :: l))
    (hnd : (h :: l).Nodup) {td : Nat} (htd : td ∈ l) {fuel : Nat} (hfuel : l.length ≤ fuel) :
    ∃ prev, findPrev records td fuel h = some prev ∧ prev ∈ h :: l ∧
      Links (Function.update records prev { records prev with next := (records td).next })
        (some h) ((h :: l).erase td) := by
  induction l generalizing h fuel with
  | nil => exact absurd htd (List.not_mem_nil td)
  | cons t l ih =>
    obtain ⟨fuel, rfl⟩ : ∃ f, fuel = f + 1 := ⟨fuel - 1, by simp at hfuel; omega⟩
    have hnext : (records h).next = some t := hl.cons_next.eq_some_of_cons
    have htail : Links records (some t) (t :: l) := hnext ▸ hl.cons_next
    have hht : h ≠ t := fun e => (List.nodup_cons.mp hnd).1 (e ▸ List.mem_cons_self t l)
    have hhtd : h ≠ td := fun e => (List.nodup_cons.mp hnd).1 (e ▸ htd)
    rw [List.erase_cons_tail (by simpa using hhtd)]
    by_cases htd' : t = td
    · -- `td` follows the head: the head is the record before it
      subst htd'
      refine ⟨h, by rw [findPrev, if_pos hnext], List.mem_cons_self h _, ?_⟩
      rw [List.erase_cons_head]
      refine .cons h l ?_
      simp only [Function.update_same]
      refine htail.cons_next.congr fun k hk => ?_
      have hk' : k ≠ h := fun e => (List.nodup_cons.mp hnd).1 (e ▸ List.mem_cons_of_mem t hk)
      rw [Function.update_noteq hk']
    · obtain ⟨prev, hprev, hmem, hlinks⟩ := ih htail (List.nodup_cons.mp hnd).2
        ((List.mem_cons.mp htd).resolve_left (Ne.symm htd'))
        (show l.length ≤ fuel by simp at hfuel; omega)
      refine ⟨prev, ?_, List.mem_cons_of_mem h hmem, ?_⟩
      · rw [findPrev, if_neg (by rw [hnext]; simpa using htd'), hnext]
        exact hprev
      · -- the record before `td` lies further on, so the head keeps its link
        have hph : h ≠ prev := fun e => (List.nodup_cons.mp hnd).1 (e ▸ hmem)
        refine .cons h _ ?_
        rw [Function.update_noteq hph, hnext]
        exact hlinks

/-- The records linked from `x` are determined by the `next` fields. -/
theorem unique {x : Option Nat} {l l' : List Nat} (h : Links records x l)
    (h' : Links records x l') : l' = l := by
  induction h generalizing l' with
  | nil => cases h'; rfl
  | cons td l _ ih => cases h' with
    | cons _ l' h' => rw [ih h']

end Links

/-! ## Runs from an initialised empty list -/

/-- An initialised empty list over any records: `tl->head` is `NULL` and
`forkgc_util_thread_list_init` has run. -/
def Registry.init (records : Nat → ThreadData) (count : Nat) : Registry :=
  ⟨forkgcUtilThreadListInit ⟨none, count⟩, records⟩

/-- The states a sequence of calls reaches from an initialised empty list, each with the
records the calls have added and not yet removed: an add puts its record in front, a removal
erases its record and keeps the others in order. An add is of a record not in the list, a
removal of one in it. -/
inductive Registry.Run : Registry → List Nat → Prop
  | init (records : Nat → ThreadData) (count : Nat) : Registry.Run (Registry.init records count) []
  | add {r : Registry} {l : List Nat} {td : Nat} : Registry.Run r l → td ∉ l →
      Registry.Run (forkgcUtilThreadListAdd r td) (td :: l)
  | remove {r r' : Registry} {l : List Nat} {td : Nat} : Registry.Run r l → td ∈ l →
      forkgcUtilThreadListRemove r td = some r' → Registry.Run r' (l.erase td)
  | find {r r' : Registry} {l : List Nat} {addr : Nat} {ret : Option Nat} : Registry.Run r l →
      forkgcUtilThreadListFind r addr = some (r', ret) → Registry.Run r' l

/-- The list `l` is what `tl` links and counts. -/
structure Registry.Inv (r : Registry) (l : List Nat) : Prop where
  links : Links r.records r.tl.head l
  count_eq : r.tl.count = l.length
  nodup : l.Nodup

namespace Registry.Inv

variable {r : Registry} {l : List Nat}

theorem init (records : Nat → ThreadData) (count : Nat) : (Registry.init records count).Inv [] :=
  ⟨.nil, by simp [Registry.init, forkgcUtilThreadListInit], List.nodup_nil⟩

theorem add (hi : r.Inv l) {td : Nat} (htd : td ∉ l) :
    (forkgcUtilThreadListAdd r td).Inv (td :: l) := by
  refine ⟨.cons td l ?_, by simp [forkgcUtilThreadListAdd, hi.count_eq],
    List.nodup_cons.mpr ⟨htd, hi.nodup⟩⟩
  simp only [forkgcUtilThreadListAdd, Function.update_same]
  exact hi.links.congr fun k hk => by
    rw [Function.update_noteq (fun (e : k = td) => htd (e ▸ hk))]

/-- A removal of a listed record succeeds and erases it from the list. -/
theorem remove (hi : r.Inv l) {td : Nat} (htd : td ∈ l) :
    ∃ r', forkgcUtilThreadListRemove r td = some r' ∧ r'.Inv (l.erase td) := by
  obtain ⟨h, l', rfl⟩ : ∃ h l', l = h :: l' := List.exists_cons_of_ne_nil (List.ne_nil_of_mem htd)
  have hhead : r.tl.head = some h := hi.links.eq_some_of_cons
  have hl : Links r.records (some h) (h :: l') := hhead ▸ hi.links
  have hcount : 0 < r.tl.count := by rw [hi.count_eq]; simp
  by_cases hh : h = td
  · -- `td` is the head: `tl->head = td->next`
    subst hh
    refine ⟨_, by simp [forkgcUtilThreadListRemove, hhead, ThreadList.decrCount, hcount]; rfl, ?_⟩
    rw [List.erase_cons_head]
    exact ⟨hl.cons_next, by simp [hi.count_eq], (List.nodup_cons.mp hi.nodup).2⟩
  · -- `td` further on: the walk finds the record before it
    have htd' : td ∈ l' := (List.mem_cons.mp htd).resolve_left (Ne.symm hh)
    obtain ⟨prev, hprev, -, hlinks⟩ := hl.findPrev_erase hi.nodup htd'
      (show l'.length ≤ r.tl.count by rw [hi.count_eq]; simp)
    have hrem := show forkgcUtilThreadListRemove r td = _ by
      simp only [forkgcUtilThreadListRemove, hhead, hh, hprev, ThreadList.decrCount, hcount,
        if_false, if_true, Option.map_some']
      rfl
    refine ⟨_, hrem, hlinks, ?_, hi.nodup.erase td⟩
    simp [hi.count_eq, List.length_erase_of_mem htd]

/-- `find` returns the first listed record holding the address and takes one reference on it;
the list is left as it was. -/
theorem find_eq (hi : r.Inv l) (addr : Nat) :
    forkgcUtilThreadListFind r addr =
      some ({ r with records := takeRef r.records (l.find? (StackHolds r.records addr)) },
        l.find? (StackHolds r.records addr)) := by
  rw [forkgcUtilThreadListFind, hi.links.findFrom_eq addr hi.count_eq.ge]
  rfl

theorem find (hi : r.Inv l) (ret : Option Nat) :
    Registry.Inv { r with records := takeRef r.records ret } l :=
  ⟨hi.links.congr fun k _ => by simp only [takeRef_apply]; split_ifs <;> rfl, hi.count_eq,
    hi.nodup⟩

/-- The invariant holds along every run. -/
theorem of_run (hrun : Registry.Run r l) : r.Inv l := by
  induction hrun with
  | init records count => exact init records count
  | add _ htd ih => exact ih.add htd
  | remove _ htd hr ih =>
    obtain ⟨r', hr', hinv⟩ := ih.remove htd
    rw [hr] at hr'
    exact Option.some_injective _ hr' ▸ hinv
  | find _ hf ih =>
    rw [ih.find_eq] at hf
    obtain ⟨rfl, -⟩ := Prod.mk.inj (Option.some_injective _ hf)
    exact ih.find _

end Registry.Inv

/-- **The thread list stays consistent along every sequence of calls.** Starting from an
initialised empty list over any records, after any sequence of `add` (of a record not in the
list), `remove` (of a record in it) and `find` calls: `tl->count` is the number of records
linked from `tl->head`; those records are exactly the ones added and not yet removed, each
once, the most recently added first and the others in the order removals left them; the
next `remove` of a listed record succeeds; and `find(addr)` returns the first listed record
whose stack `[user_stack_low, user_stack_high)` holds `addr`, or `NULL`, adding one to that
record's `ref_count` and changing nothing else. -/
theorem thread_list_consistent {r : Registry} {l : List Nat} (hrun : Registry.Run r l) :
    r.tl.count = l.length ∧ (∀ l', Links r.records r.tl.head l' ↔ l' = l) ∧ l.Nodup ∧
      (∀ td ∈ l, ∃ r', forkgcUtilThreadListRemove r td = some r') ∧
      ∀ addr, ∃ r' ret, forkgcUtilThreadListFind r addr = some (r', ret) ∧
        ret = l.find? (StackHolds r.records addr) ∧ r'.tl = r.tl ∧
        ∀ k, r'.records k = if ret = some k then
          { r.records k with refCount := (r.records k).refCount + 1 } else r.records k := by
  have hi := Registry.Inv.of_run hrun
  refine ⟨hi.count_eq, fun l' => ⟨fun h => hi.links.unique h, fun h => h ▸ hi.links⟩, hi.nodup,
    fun td htd => (hi.remove htd).imp fun _ h => h.1, fun addr => ⟨_, _, hi.find_eq addr, rfl,
    rfl, takeRef_apply _ _⟩⟩

theorem thread_list_consistent_two :
    Registry.Run (forkgcUtilThreadListAdd (forkgcUtilThreadListAdd
        (Registry.init (fun _ => ⟨none, 0, 0, 0⟩) 7) 1) 2) [2, 1] ∧
      (forkgcUtilThreadListAdd (forkgcUtilThreadListAdd
        (Registry.init (fun _ => ⟨none, 0, 0, 0⟩) 7) 1) 2).tl.count = [2, 1].length :=
  have hr := ((Registry.Run.init _ 7).add (List.not_mem_nil 1)).add (by decide)
  ⟨hr, (thread_list_consistent hr).1⟩

end ForkScan
