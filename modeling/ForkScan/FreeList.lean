import Mathlib

/-!
# ForkScan — the stack of free lists in `util.c`

`forkgc_util_push_free_list` puts a free list on `free_list_list` in a node it `MALLOC`s, all
its writes under `free_list_list_lock`; `forkgc_util_pop_free_list` takes the most recent one
off and `FREE`s its node:

```
if (free_list_list == NULL) return NULL;
pthread_mutex_lock(&free_list_list_lock);
node = free_list_list;
if (node != NULL) free_list_list = node->next;
pthread_mutex_unlock(&free_list_list_lock);
if (node) { free_list = node->free_list; FREE(node); }
return free_list;
```

A pop is three steps of its own: the test, which reads `free_list_list` without the lock; the
locked part; and what follows the lock. Other calls may push and pop between any two of them.
Nodes and free lists are named by their addresses, `NULL` being `0`, and each pop call by a
number, its place in its code a `PopPc`.

* `forkgcUtilPopFreeList_eq_steps` — a pop run alone, its three steps in a row, is
  `forkgc_util_pop_free_list`.
* `free_list_stack` — along every run, in any interleaving of the pops' steps with pushes and
  with each other: `free_list_list` links its nodes, each once; the history of the steps that
  take effect (each push, each locked part, each test that returns `NULL`), replayed on a
  stack of free lists, is a legal run of a stack that leaves exactly the free lists linked;
  every call that has returned returned the free list its step in that history popped; and the
  node a call holds after its locked part is linked no more and held by no other call, so the
  `FREE` that follows frees that node alone.
-/

namespace ForkScan

/-- A `free_list_node_t`. -/
structure FreeListNode where
  next : Option Nat
  freeList : Nat

/-- `free_list_list`, the nodes by address, and the nodes passed to `FREE` so far. -/
structure FreeLists where
  head : Option Nat
  nodes : Nat → FreeListNode
  freed : List Nat

/-- `forkgc_util_push_free_list(free_list)`: `node` is the block `MALLOC` returns. -/
def forkgcUtilPushFreeList (s : FreeLists) (node freeList : Nat) : FreeLists :=
  { s with head := some node, nodes := Function.update s.nodes node ⟨s.head, freeList⟩ }

/-- The locked part of `forkgc_util_pop_free_list`:
`node = free_list_list; if (node != NULL) free_list_list = node->next;` -/
def popLocked (s : FreeLists) : FreeLists × Option Nat :=
  match s.head with
  | none => (s, none)
  | some node => ({ s with head := (s.nodes node).next }, some node)

/-- What follows the lock: `if (node) { free_list = node->free_list; FREE(node); }` and
`return free_list;`. -/
def popRelease (s : FreeLists) : Option Nat → FreeLists × Nat
  | none => (s, 0)
  | some node => ({ s with freed := s.freed ++ [node] }, (s.nodes node).freeList)

/-- `forkgc_util_pop_free_list()` run alone. -/
def forkgcUtilPopFreeList (s : FreeLists) : FreeLists × Nat :=
  if s.head = none then (s, 0) else popRelease (popLocked s).1 (popLocked s).2

/-! ## The steps of a pop -/

/-- Where a call of `forkgc_util_pop_free_list` stands. -/
inductive PopPc
  /-- before its unlocked test -/
  | test
  /-- past the test, at `pthread_mutex_lock` -/
  | lock
  /-- past `pthread_mutex_unlock`, holding the `node` it unlinked -/
  | unlocked (node : Option Nat)
  /-- returned `free_list` -/
  | returned (freeList : Nat)
  deriving DecidableEq

/-- One step of a call at `pc`: the unlocked test, the locked part, or what follows it. -/
def popStep (s : FreeLists) : PopPc → FreeLists × PopPc
  | .test => (s, if s.head = none then .returned 0 else .lock)
  | .lock => ((popLocked s).1, .unlocked (popLocked s).2)
  | .unlocked node => ((popRelease s node).1, .returned (popRelease s node).2)
  | .returned r => (s, .returned r)

/-- **A pop run alone is `forkgc_util_pop_free_list`**: its three steps in a row return what
the function returns and leave what it leaves. -/
theorem forkgcUtilPopFreeList_eq_steps (s : FreeLists) :
    popStep (popStep (popStep s .test).1 (popStep s .test).2).1
        (popStep (popStep s .test).1 (popStep s .test).2).2 =
      ((forkgcUtilPopFreeList s).1, .returned (forkgcUtilPopFreeList s).2) := by
  cases h : s.head with
  | none => simp [popStep, forkgcUtilPopFreeList, h]
  | some node => simp [popStep, forkgcUtilPopFreeList, popLocked, h]

/-- The free lists and the place of every pop call, by number. -/
structure FreeListSystem where
  lists : FreeLists
  pcs : Nat → PopPc

/-- Call `t` takes its next step. -/
def FreeListSystem.step (σ : FreeListSystem) (t : Nat) : FreeListSystem :=
  ⟨(popStep σ.lists (σ.pcs t)).1, Function.update σ.pcs t (popStep σ.lists (σ.pcs t)).2⟩

/-- A push, with the node `MALLOC` returns. -/
def FreeListSystem.push (σ : FreeListSystem) (node freeList : Nat) : FreeListSystem :=
  { σ with lists := forkgcUtilPushFreeList σ.lists node freeList }

/-! ## The stack the steps implement -/

/-- Following `next` from `x` visits the nodes `l` in order, then reaches `NULL`. -/
inductive FreeLinks (nodes : Nat → FreeListNode) : Option Nat → List Nat → Prop
  | nil : FreeLinks nodes none []
  | cons (node : Nat) (l : List Nat) : FreeLinks nodes (nodes node).next l →
      FreeLinks nodes (some node) (node :: l)

/-- A list links the same way through any nodes with the same `next` fields on it. -/
theorem FreeLinks.congr {nodes nodes' : Nat → FreeListNode} {x : Option Nat} {l : List Nat}
    (h : FreeLinks nodes x l) (hnext : ∀ k ∈ l, (nodes' k).next = (nodes k).next) :
    FreeLinks nodes' x l := by
  induction h with
  | nil => exact .nil
  | cons node l _ ih =>
    refine .cons node l ?_
    rw [hnext node (List.mem_cons_self node l)]
    exact ih fun k hk => hnext k (List.mem_cons_of_mem node hk)

theorem FreeLinks.eq_nil_of_none {nodes : Nat → FreeListNode} {l : List Nat}
    (h : FreeLinks nodes none l) : l = [] := by
  cases h; rfl

theorem FreeLinks.cons_of_some {nodes : Nat → FreeListNode} {node : Nat} {l : List Nat}
    (h : FreeLinks nodes (some node) l) :
    ∃ l', l = node :: l' ∧ FreeLinks nodes (nodes node).next l' := by
  cases h; exact ⟨_, rfl, ‹_›⟩

/-- The free lists the nodes `l` hold, in order. -/
def freeListView (s : FreeLists) (l : List Nat) : List Nat := l.map fun n => (s.nodes n).freeList

/-- A push of a node not on `l` puts its free list in front of those the nodes `l` hold. -/
theorem freeListView_push (s : FreeLists) {node : Nat} {l : List Nat} (hnode : node ∉ l)
    (freeList : Nat) :
    freeListView (forkgcUtilPushFreeList s node freeList) (node :: l) =
      freeList :: freeListView s l := by
  simp only [freeListView, forkgcUtilPushFreeList, List.map_cons, Function.update_same]
  exact congrArg _ (List.map_congr_left fun k hk =>
    by rw [Function.update_noteq fun (e : k = node) => hnode (e ▸ hk)])

/-- What a step that takes effect does to the stack: a push of a free list, or a pop by call
`call` that returns `freeList` (`0` for `NULL`). -/
inductive StackEvent
  | push (freeList : Nat)
  | pop (call freeList : Nat)
  deriving DecidableEq

/-- The stack of free lists `h` leaves when replayed from `st`: `none` when a pop returns other
than the top, or other than `NULL` from an empty stack. -/
def replay : List Nat → List StackEvent → Option (List Nat)
  | st, [] => some st
  | st, .push v :: h => replay (v :: st) h
  | st, .pop _ r :: h => if r = st.headD 0 then replay st.tail h else none

theorem replay_append (st : List Nat) (h h' : List StackEvent) :
    replay st (h ++ h') = (replay st h).bind fun st' => replay st' h' := by
  induction h generalizing st with
  | nil => rfl
  | cons e h ih =>
    cases e with
    | push v => exact ih _
    | pop t r =>
      simp only [List.cons_append, replay]
      split_ifs
      · exact ih _
      · rfl

/-- The runs from an empty `free_list_list`, with the nodes linked and the history of the
steps that take effect. A push is of a node `MALLOC` returns, so neither linked nor held by a
call; a test that finds `NULL` returns it, and the locked part pops the free list of the node
it unlinks. -/
inductive FreeListSystem.Run : FreeListSystem → List Nat → List StackEvent → Prop
  | init (nodes : Nat → FreeListNode) : Run ⟨⟨none, nodes, []⟩, fun _ => .test⟩ [] []
  | push {σ : FreeListSystem} {l : List Nat} {h : List StackEvent} (node freeList : Nat) :
      Run σ l h → node ∉ l → (∀ t, σ.pcs t ≠ .unlocked (some node)) →
      Run (σ.push node freeList) (node :: l) (h ++ [.push freeList])
  | test {σ : FreeListSystem} {l : List Nat} {h : List StackEvent} (t : Nat) : Run σ l h →
      σ.pcs t = .test →
      Run (σ.step t) l (if σ.lists.head = none then h ++ [.pop t 0] else h)
  | lock {σ : FreeListSystem} {l : List Nat} {h : List StackEvent} (t : Nat) : Run σ l h →
      σ.pcs t = .lock →
      Run (σ.step t) l.tail (h ++ [.pop t (popRelease σ.lists (popLocked σ.lists).2).2])
  | release {σ : FreeListSystem} {l : List Nat} {h : List StackEvent} (t : Nat)
      {node : Option Nat} : Run σ l h → σ.pcs t = .unlocked node → Run (σ.step t) l h

/-- What the invariant asks of call `t` at `pc`: past its effect, the history holds the event
of its effect with the free list it returns; holding a node, the node is unlinked. -/
def PopPc.Ok (nodes : Nat → FreeListNode) (l : List Nat) (h : List StackEvent) (t : Nat) :
    PopPc → Prop
  | .test | .lock => True
  | .unlocked none => .pop t 0 ∈ h
  | .unlocked (some node) => node ∉ l ∧ .pop t (nodes node).freeList ∈ h
  | .returned r => .pop t r ∈ h

/-- A call's condition holds on with a longer history, a list that leaves out its node, and
nodes that keep its node's free list. -/
theorem PopPc.Ok.mono {nodes nodes' : Nat → FreeListNode} {l l' : List Nat}
    {h h' : List StackEvent} {t : Nat} {pc : PopPc} (hok : pc.Ok nodes l h t) (hh : h ⊆ h')
    (hout : ∀ node, pc = .unlocked (some node) →
      node ∉ l' ∧ (nodes' node).freeList = (nodes node).freeList) : pc.Ok nodes' l' h' t := by
  cases pc with
  | test | lock => trivial
  | unlocked node =>
    cases node with
    | none => exact hh hok
    | some node => exact ⟨(hout node rfl).1, (hout node rfl).2 ▸ hh hok.2⟩
  | returned r => exact hh hok

/-- What a run keeps: `free_list_list` links its nodes, each once, and they hold the free lists
the history leaves; every call is where `PopPc.Ok` allows; and no node is held by two calls. -/
structure FreeListSystem.Inv (σ : FreeListSystem) (l : List Nat) (h : List StackEvent) :
    Prop where
  links : FreeLinks σ.lists.nodes σ.lists.head l
  nodup : l.Nodup
  stack : replay [] h = some (freeListView σ.lists l)
  calls : ∀ t, (σ.pcs t).Ok σ.lists.nodes l h t
  held_one : ∀ t t' node, σ.pcs t = .unlocked (some node) → σ.pcs t' = .unlocked (some node) →
    t' = t

namespace FreeListSystem

theorem step_pcs_of_ne (σ : FreeListSystem) {t t' : Nat} (h : t' ≠ t) :
    (σ.step t).pcs t' = σ.pcs t' :=
  Function.update_noteq h _ _

@[simp] theorem step_pcs_self (σ : FreeListSystem) (t : Nat) :
    (σ.step t).pcs t = (popStep σ.lists (σ.pcs t)).2 :=
  Function.update_same _ _ _

/-- A pop's step writes no node. -/
@[simp] theorem step_nodes (σ : FreeListSystem) (t : Nat) :
    (σ.step t).lists.nodes = σ.lists.nodes := by
  simp only [step]
  cases σ.pcs t with
  | test | returned => rfl
  | lock => simp only [popStep, popLocked]; split <;> rfl
  | unlocked node => cases node <;> rfl

namespace Inv

variable {σ : FreeListSystem} {l : List Nat} {h : List StackEvent}

theorem held_out (hi : σ.Inv l h) {t node : Nat} (hp : σ.pcs t = .unlocked (some node)) :
    node ∉ l := by
  have := hi.calls t
  rw [hp] at this
  exact this.1

/-- A step of call `t` keeps the invariant when it keeps the list and the history right, leaves
call `t` where `PopPc.Ok` allows, unlinks no node another call holds, and takes none. -/
theorem of_step (hi : σ.Inv l h) {t : Nat} {l' : List Nat} {h' : List StackEvent}
    (hlinks : FreeLinks σ.lists.nodes (σ.step t).lists.head l') (hnodup : l'.Nodup)
    (hreplay : replay [] h' = some (freeListView σ.lists l')) (hh : h ⊆ h')
    (hself : ((σ.step t).pcs t).Ok σ.lists.nodes l' h' t)
    (hout : ∀ t' node, σ.pcs t' = .unlocked (some node) → node ∉ l')
    (hfresh : ∀ node, (σ.step t).pcs t = .unlocked (some node) →
      ∀ t' ≠ t, σ.pcs t' ≠ .unlocked (some node)) :
    (σ.step t).Inv l' h' := by
  refine ⟨by rwa [step_nodes], hnodup, by rwa [freeListView, step_nodes], fun t' => ?_,
    fun t₁ t₂ node h₁ h₂ => ?_⟩
  · rw [step_nodes]
    rcases eq_or_ne t' t with rfl | ht
    · exact hself
    · rw [σ.step_pcs_of_ne ht]
      exact (hi.calls t').mono hh fun node hp => ⟨hout t' node hp, rfl⟩
  · by_cases e₁ : t₁ = t <;> by_cases e₂ : t₂ = t
    · rw [e₁, e₂]
    · subst e₁; exact absurd ((σ.step_pcs_of_ne e₂).symm.trans h₂) (hfresh node h₁ t₂ e₂)
    · subst e₂; exact absurd ((σ.step_pcs_of_ne e₁).symm.trans h₁) (hfresh node h₂ t₁ e₁)
    · exact hi.held_one t₁ t₂ node ((σ.step_pcs_of_ne e₁).symm.trans h₁)
        ((σ.step_pcs_of_ne e₂).symm.trans h₂)

theorem init (nodes : Nat → FreeListNode) :
    Inv ⟨⟨none, nodes, []⟩, fun _ => .test⟩ [] [] :=
  ⟨.nil, List.nodup_nil, rfl, fun _ => trivial, nofun⟩

/-- A push links its node in front, changes no node the others link or a call holds, and puts
its free list on top of the stack. -/
theorem push (hi : σ.Inv l h) {node : Nat} (hnode : node ∉ l)
    (hheld : ∀ t, σ.pcs t ≠ .unlocked (some node)) (freeList : Nat) :
    (σ.push node freeList).Inv (node :: l) (h ++ [.push freeList]) ∧
      freeListView (forkgcUtilPushFreeList σ.lists node freeList) (node :: l) =
        freeList :: freeListView σ.lists l := by
  have hne : ∀ k ∈ l, k ≠ node := fun k hk (e : k = node) => hnode (e ▸ hk)
  have hview := freeListView_push σ.lists hnode freeList
  refine ⟨⟨.cons node l ?_, List.nodup_cons.mpr ⟨hnode, hi.nodup⟩, ?_, fun t => ?_,
    hi.held_one⟩, hview⟩
  · simp only [FreeListSystem.push, forkgcUtilPushFreeList, Function.update_same]
    exact hi.links.congr fun k hk => by rw [Function.update_noteq (hne k hk)]
  · rw [replay_append, hi.stack]
    exact congrArg some hview.symm
  · -- the nodes the calls hold are not the new one, and keep their free lists
    refine (hi.calls t).mono (List.subset_append_left _ _) fun k hk => ⟨?_, ?_⟩
    · exact List.not_mem_cons_of_ne_of_not_mem (fun (e : k = node) => hheld t (e ▸ hk))
        (hi.held_out hk)
    · simp only [FreeListSystem.push, forkgcUtilPushFreeList]
      rw [Function.update_noteq fun (e : k = node) => hheld t (e ▸ hk)]

/-- The test: from an empty list it returns `NULL`, and otherwise the call goes on to the
lock. -/
theorem test (hi : σ.Inv l h) {t : Nat} (hpc : σ.pcs t = .test) :
    (σ.step t).Inv l (if σ.lists.head = none then h ++ [.pop t 0] else h) := by
  have hhead : (σ.step t).lists.head = σ.lists.head := by simp [step, hpc, popStep]
  have hself : (σ.step t).pcs t = if σ.lists.head = none then .returned 0 else .lock := by
    simp [hpc, popStep]
  split_ifs at hself ⊢ with hnull
  · -- `free_list_list == NULL`: the list is empty
    obtain rfl : l = [] := (hnull ▸ hi.links).eq_nil_of_none
    refine hi.of_step (hhead ▸ hi.links) hi.nodup ?_ (List.subset_append_left _ _) ?_
      (fun _ _ hp => hi.held_out hp) (by rw [hself]; nofun)
    · rw [replay_append, hi.stack]; rfl
    · rw [hself]; exact List.mem_append_right _ (List.mem_singleton_self _)
  · exact hi.of_step (hhead ▸ hi.links) hi.nodup hi.stack (List.Subset.refl _)
      (by rw [hself]; trivial) (fun _ _ hp => hi.held_out hp) (by rw [hself]; nofun)

/-- The locked part unlinks the front node, if any, and pops its free list. -/
theorem lock (hi : σ.Inv l h) {t : Nat} (hpc : σ.pcs t = .lock) :
    (σ.step t).Inv l.tail (h ++ [.pop t (popRelease σ.lists (popLocked σ.lists).2).2]) := by
  have hsub : h ⊆ h ++ [.pop t (popRelease σ.lists (popLocked σ.lists).2).2] :=
    List.subset_append_left _ _
  have hout : ∀ t' node, σ.pcs t' = .unlocked (some node) → node ∉ l.tail :=
    fun _ _ hp hm => hi.held_out hp (List.mem_of_mem_tail hm)
  cases hhead : σ.lists.head with
  | none =>
    -- the list emptied since the test: the call takes `NULL`
    obtain rfl : l = [] := (hhead ▸ hi.links).eq_nil_of_none
    have hself : (σ.step t).pcs t = .unlocked none := by simp [hpc, popStep, popLocked, hhead]
    refine hi.of_step (by simpa [step, hpc, popStep, popLocked, hhead] using hi.links)
      hi.nodup ?_ hsub ?_ hout (by rw [hself]; nofun)
    · rw [replay_append, hi.stack]; simp [popLocked, popRelease, hhead, replay, freeListView]
    · rw [hself]
      show StackEvent.pop t 0 ∈ _
      simp [popLocked, popRelease, hhead]
  | some node =>
    obtain ⟨l', rfl, hnext⟩ := (hhead ▸ hi.links).cons_of_some
    have hself : (σ.step t).pcs t = .unlocked (some node) := by
      simp [hpc, popStep, popLocked, hhead]
    refine hi.of_step (by simpa [step, hpc, popStep, popLocked, hhead] using hnext)
      (List.nodup_cons.mp hi.nodup).2 ?_ hsub ?_ hout ?_
    · rw [replay_append, hi.stack]
      simp [popLocked, popRelease, hhead, replay, freeListView]
    · rw [hself]
      exact ⟨(List.nodup_cons.mp hi.nodup).1, by simp [popLocked, popRelease, hhead]⟩
    · -- the node was linked, so no other call held it
      intro k hk t' _ hp
      rw [hself] at hk
      cases hk
      exact hi.held_out hp (List.mem_cons_self _ _)

/-- What follows the lock frees the node the call holds, if any, and returns its free list. -/
theorem release (hi : σ.Inv l h) {t : Nat} {node : Option Nat}
    (hpc : σ.pcs t = .unlocked node) : (σ.step t).Inv l h := by
  have hhead : (σ.step t).lists.head = σ.lists.head := by
    simp only [step, hpc, popStep]; cases node <;> rfl
  have hok := hi.calls t
  rw [hpc] at hok
  refine hi.of_step (hhead ▸ hi.links) hi.nodup hi.stack (List.Subset.refl _) ?_
    (fun _ _ hp => hi.held_out hp) (by simp [hpc, popStep])
  cases node with
  | none => simpa [hpc, popStep, popRelease] using hok
  | some k => simpa [hpc, popStep, popRelease] using hok.2

theorem of_run {σ : FreeListSystem} {l : List Nat} {h : List StackEvent} (hrun : σ.Run l h) :
    σ.Inv l h := by
  induction hrun with
  | init nodes => exact init nodes
  | push node freeList _ hnode hheld ih => exact (ih.push hnode hheld freeList).1
  | test t _ hpc ih => exact ih.test hpc
  | lock t _ hpc ih => exact ih.lock hpc
  | release t _ hpc ih => exact ih.release hpc

end Inv

end FreeListSystem

/-- **`free_list_list` is a stack of free lists, whatever the interleaving.** Along every run of
pushes, each with a node `MALLOC` returns, and of pop calls, their unlocked tests, locked parts
and releases interleaved in any order: `free_list_list` links the run's nodes, each once; the
history of the steps that take effect, replayed on a stack, is legal (each pop returns the top,
or `NULL` from an empty stack) and leaves the free lists the nodes hold; every call that has
returned returned the free list of its own pop in that history; a node a call holds after its
locked part is no longer linked and held by no other call, so the `FREE` that follows frees it
alone; a push puts its free list in front of the others; and a call that runs alone, its three
steps in a row, does what `forkgc_util_pop_free_list` does. -/
theorem free_list_stack {σ : FreeListSystem} {l : List Nat} {h : List StackEvent}
    (hrun : σ.Run l h) :
    FreeLinks σ.lists.nodes σ.lists.head l ∧ l.Nodup ∧
      replay [] h = some (freeListView σ.lists l) ∧
      (∀ t r, σ.pcs t = .returned r → StackEvent.pop t r ∈ h) ∧
      (∀ t node, σ.pcs t = .unlocked (some node) →
        node ∉ l ∧ ∀ t', σ.pcs t' = .unlocked (some node) → t' = t) ∧
      (∀ node freeList, node ∉ l →
        freeListView (forkgcUtilPushFreeList σ.lists node freeList) (node :: l) =
          freeList :: freeListView σ.lists l) ∧
      ∀ t, σ.pcs t = .test →
        (((σ.step t).step t).step t).lists = (forkgcUtilPopFreeList σ.lists).1 ∧
          (((σ.step t).step t).step t).pcs t = .returned (forkgcUtilPopFreeList σ.lists).2 := by
  have hi := FreeListSystem.Inv.of_run hrun
  refine ⟨hi.links, hi.nodup, hi.stack, fun t r hr => ?_, fun t node hp =>
    ⟨hi.held_out hp, fun t' hp' => hi.held_one t t' node hp hp'⟩,
    fun _ v hnode => freeListView_push σ.lists hnode v, fun t hpc => ?_⟩
  · have := hi.calls t
    rw [hr] at this
    exact this
  · -- a call run alone: its three steps are `forkgc_util_pop_free_list`
    have h3 := forkgcUtilPopFreeList_eq_steps σ.lists
    simp only [FreeListSystem.step, Function.update_same, hpc] at h3 ⊢
    exact ⟨congrArg Prod.fst h3, congrArg Prod.snd h3⟩

/-- Call `0` passes its test on a list holding one free list, call `1` then pops it, and call
`0` takes the lock on an empty list and returns `NULL`. -/
theorem free_list_stack_two :
    ∃ σ l h, FreeListSystem.Run σ l h ∧ σ.pcs 0 = .returned 0 ∧ σ.pcs 1 = .returned 5 ∧
      StackEvent.pop 0 0 ∈ h ∧ StackEvent.pop 1 5 ∈ h ∧ replay [] h = some [] := by
  have h₁ := (FreeListSystem.Run.init fun _ => ⟨none, 0⟩).push 1 5 (List.not_mem_nil 1) nofun
  have h₂ := ((h₁.test 0 rfl).test 1 rfl).lock 1 rfl
  have h₃ := ((h₂.release 1 rfl).lock 0 rfl).release 0 rfl
  obtain ⟨-, -, hrep, hret, -⟩ := free_list_stack h₃
  exact ⟨_, _, _, h₃, rfl, rfl, hret 0 0 rfl, hret 1 5 rfl, hrep⟩

end ForkScan
