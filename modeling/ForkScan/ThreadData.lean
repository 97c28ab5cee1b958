import ForkScan.ThreadList

/-!
# ForkScan — the life of a `thread_data_t`

`forkgc_util_thread_data_new` maps a thread's record with one reference,
`forkgc_util_thread_list_find` takes more, and `forkgc_util_thread_data_decr_ref` drops one; the
thread that drops the last pushes the record on `g_td_staged_to_free`:

```
if (0 == __sync_fetch_and_sub(&td->ref_count, 1) - 1) {
    pthread_mutex_lock(&g_staged_lock);
    td->next = g_td_staged_to_free;
    g_td_staged_to_free = td;
    pthread_mutex_unlock(&g_staged_lock);
}
```

`forkgc_util_thread_data_cleanup(tid)` takes the record of thread `tid` off that list and frees
it with `forkgc_util_thread_data_free`.

The staged list is threaded through the same `next` field as the thread list, so the two stay
apart only while no record is on both: dropping the last reference to a record still in the
thread list splices the staged list into the thread list (`decr_ref_listed_splices`). The
code relies on its callers for the rest: a thread lists only a record it holds a reference to,
and drops only a reference it holds. Under those conditions, and without that splice, every run
keeps both lists well formed and apart, and neither links a freed record
(`thread_data_lists_safe`); `cleanup(tid)` frees the first staged record of thread `tid` and
never reaches its data-race check, and stops at `assert(td)` when thread `tid` has none staged
(`thread_data_cleanup_spec`).

The list functions hold `tl->lock` and the staged list's walks `g_staged_lock`; while the lists
are apart neither writes what the other reads, so each call is one step. The atomic decrement
and the locked push of `decr_ref` are two, with other calls between them. A record is named by
its address, and the calls of `forkgc_alloc_munmap` are logged in order. An assertion that
fails is the error of its condition's text.
-/

namespace ForkScan

/-- Modelled from the spec (the header is not among the sources): the fields of `thread_data_t`
that the lifecycle functions read and the list functions do not: the thread's `self`, whether
its stack is `stack_is_ours`, and the buffer `ptr_list.e` of its pointer queue. -/
structure ThreadIdent where
  self : Nat
  stackIsOurs : Bool
  ptrList : Nat

/-- The records with the thread list, `g_td_staged_to_free`, and every address passed to
`forkgc_alloc_munmap` so far. -/
structure Lifecycle where
  reg : Registry
  idents : Nat → ThreadIdent
  staged : Option Nat
  unmapped : List Nat

/-- `td->ref_count = c`. -/
def setRef (records : Nat → ThreadData) (td : Nat) (c : Int) : Nat → ThreadData :=
  Function.update records td { records td with refCount := c }

/-- `td->next = x`. -/
def setNext (records : Nat → ThreadData) (td : Nat) (x : Option Nat) : Nat → ThreadData :=
  Function.update records td { records td with next := x }

/-- `td->user_stack_low = low; td->user_stack_high = high`. -/
def setStack (records : Nat → ThreadData) (td low high : Nat) : Nat → ThreadData :=
  Function.update records td { records td with userStackLow := low, userStackHigh := high }

section Fields

variable (records : Nat → ThreadData) (td k : Nat)

@[simp] theorem setRef_next (c : Int) : (setRef records td c k).next = (records k).next := by
  rcases eq_or_ne k td with rfl | h <;> simp [setRef, *]

@[simp] theorem setRef_refCount (c : Int) :
    (setRef records td c k).refCount = if k = td then c else (records k).refCount := by
  rcases eq_or_ne k td with rfl | h <;> simp [setRef, *]

@[simp] theorem setNext_refCount (x : Option Nat) :
    (setNext records td x k).refCount = (records k).refCount := by
  rcases eq_or_ne k td with rfl | h <;> simp [setNext, *]

@[simp] theorem setNext_same (x : Option Nat) : (setNext records td x td).next = x := by
  simp [setNext]

@[simp] theorem setNext_userStackLow (x : Option Nat) :
    (setNext records td x k).userStackLow = (records k).userStackLow := by
  rcases eq_or_ne k td with rfl | h <;> simp [setNext, *]

@[simp] theorem setStack_next (low high : Nat) :
    (setStack records td low high k).next = (records k).next := by
  rcases eq_or_ne k td with rfl | h <;> simp [setStack, *]

@[simp] theorem setStack_refCount (low high : Nat) :
    (setStack records td low high k).refCount = (records k).refCount := by
  rcases eq_or_ne k td with rfl | h <;> simp [setStack, *]

end Fields

theorem setNext_of_ne {records : Nat → ThreadData} {td k : Nat} {x : Option Nat} (h : k ≠ td) :
    setNext records td x k = records k :=
  Function.update_noteq h _ _

/-- `forkgc_util_thread_list_add` writes the new record's `next`. -/
theorem forkgcUtilThreadListAdd_records (r : Registry) (td : Nat) :
    (forkgcUtilThreadListAdd r td).records = setNext r.records td r.tl.head := rfl

/-- `forkgc_util_thread_data_new()`: `td` is the block `forkgc_alloc_mmap(MEMBLOCK_SIZE)` returns
and `localList` the buffer of its pointer queue; the record starts with one reference. -/
def forkgcUtilThreadDataNew (s : Lifecycle) (td localList : Nat) : Lifecycle where
  reg := { s.reg with records := setRef s.reg.records td 1 }
  idents := Function.update s.idents td { s.idents td with ptrList := localList }
  staged := s.staged
  unmapped := s.unmapped

@[simp] theorem forkgcUtilThreadDataNew_records (s : Lifecycle) (td localList : Nat) :
    (forkgcUtilThreadDataNew s td localList).reg.records = setRef s.reg.records td 1 := rfl

/-- Not among the sources: a thread writes its identity and its stack bounds into its
record. -/
def Lifecycle.fill (s : Lifecycle) (td self : Nat) (stackIsOurs : Bool) (low high : Nat) :
    Lifecycle where
  reg := { s.reg with records := setStack s.reg.records td low high }
  idents :=
    Function.update s.idents td { s.idents td with self := self, stackIsOurs := stackIsOurs }
  staged := s.staged
  unmapped := s.unmapped

@[simp] theorem Lifecycle.fill_records (s : Lifecycle) (td self : Nat) (stackIsOurs : Bool)
    (low high : Nat) : (s.fill td self stackIsOurs low high).reg.records =
      setStack s.reg.records td low high := rfl

/-- The atomic `__sync_fetch_and_sub(&td->ref_count, 1) - 1` of
`forkgc_util_thread_data_decr_ref`: the records after it, and the value it yields, the count it
leaves (`-1` from a count of zero). -/
def fetchAndSubRef (records : Nat → ThreadData) (td : Nat) : (Nat → ThreadData) × Int :=
  (setRef records td ((records td).refCount - 1), (records td).refCount - 1)

/-- The locked push of `forkgc_util_thread_data_decr_ref`:
`td->next = g_td_staged_to_free; g_td_staged_to_free = td;`. -/
def stageToFree (s : Lifecycle) (td : Nat) : Lifecycle :=
  { s with reg := { s.reg with records := setNext s.reg.records td s.staged }, staged := some td }

@[simp] theorem stageToFree_records (s : Lifecycle) (td : Nat) :
    (stageToFree s td).reg.records = setNext s.reg.records td s.staged := rfl

/-- `forkgc_util_thread_data_decr_ref(td)`: drop a reference, and stage the record if it was the
last. -/
def forkgcUtilThreadDataDecrRef (s : Lifecycle) (td : Nat) : Lifecycle :=
  let r := fetchAndSubRef s.reg.records td
  if r.2 = 0 then stageToFree { s with reg := { s.reg with records := r.1 } } td
  else { s with reg := { s.reg with records := r.1 } }

/-- `forkgc_util_thread_data_free(td)`: `assert(td->ref_count == 0)`, then
`forkgc_alloc_munmap(td->ptr_list.e)` and `forkgc_alloc_munmap(td)`. -/
def forkgcUtilThreadDataFree (s : Lifecycle) (td : Nat) : Except String Lifecycle :=
  if (s.reg.records td).refCount = 0 then
    .ok { s with unmapped := s.unmapped ++ [(s.idents td).ptrList, td] }
  else .error "td->ref_count == 0"

/-- The walk of `forkgc_util_thread_data_cleanup` from `td`, with `last` before it, for at most
`fuel` records:
`while (0 == pthread_equal(td->self, tid)) { last = td; td = td->next; assert(td); }`.
The record found and the one before it; running out stands for a walk that would not end. -/
def findStaged (s : Lifecycle) (tid : Nat) : Nat → Option Nat → Nat →
    Except String (Option Nat × Nat)
  | 0, _, _ => .error "the walk does not end"
  | fuel + 1, last, td =>
    if (s.idents td).self = tid then .ok (last, td)
    else
      match (s.reg.records td).next with
      | none => .error "td"
      | some t => findStaged s tid fuel (some td) t

theorem findStaged_of_self {s : Lifecycle} {tid td fuel : Nat} {last : Option Nat}
    (h : (s.idents td).self = tid) : findStaged s tid (fuel + 1) last td = .ok (last, td) := by
  rw [findStaged, if_pos h]

theorem findStaged_of_next {s : Lifecycle} {tid td t fuel : Nat} {last : Option Nat}
    (h : ¬ (s.idents td).self = tid) (hnext : (s.reg.records td).next = some t) :
    findStaged s tid (fuel + 1) last td = findStaged s tid fuel (some td) t := by
  rw [findStaged, if_neg h, hnext]

/-- `if (last) last->next = td->next; else g_td_staged_to_free = td->next;` -/
def unlinkStaged (s : Lifecycle) (last : Option Nat) (td : Nat) : Lifecycle :=
  match last with
  | some l =>
    { s with reg := { s.reg with records := setNext s.reg.records l (s.reg.records td).next } }
  | none => { s with staged := (s.reg.records td).next }

/-- `if (td->stack_is_ours) forkgc_alloc_munmap(td->user_stack_low);` -/
def unmapStack (s : Lifecycle) (td : Nat) : Lifecycle :=
  if (s.idents td).stackIsOurs then
    { s with unmapped := s.unmapped ++ [(s.reg.records td).userStackLow] }
  else s

/-- `forkgc_util_thread_data_cleanup(tid)`, walking at most `fuel` staged records: unlink the
record of thread `tid`, stop with the fatal error if it holds a reference, unmap its stack if it
is ours, and free it. -/
def forkgcUtilThreadDataCleanup (fuel : Nat) (s : Lifecycle) (tid : Nat) :
    Except String Lifecycle :=
  match s.staged with
  | none => .error "td"
  | some h =>
    match findStaged s tid fuel none h with
    | .error e => .error e
    | .ok (last, td) =>
      if 0 < ((unlinkStaged s last td).reg.records td).refCount then
        .error "ForkGC: detected data race on exiting thread.\n"
      else forkgcUtilThreadDataFree (unmapStack (unlinkStaged s last td) td) td

/-! ## The walks over a list -/

/-- A record of thread `tid` found past the head of a list is found in its tail, and the head is
of another thread. -/
theorem find?_tail_of_ne_head {f : Nat → Nat} {tid h td : Nat} {l : List Nat}
    (hf : (h :: l).find? (fun t => f t = tid) = some td) (hne : td ≠ h) :
    f h ≠ tid ∧ l.find? (fun t => f t = tid) = some td := by
  by_cases hp : f h = tid
  · rw [List.find?_cons_of_pos _ (by simpa using hp)] at hf
    exact absurd (Option.some_injective _ hf).symm hne
  · rw [List.find?_cons_of_neg _ (by simpa using hp)] at hf
    exact ⟨hp, hf⟩

namespace Links

variable {records : Nat → ThreadData}

theorem eq_none_of_nil {x : Option Nat} (h : Links records x []) : x = none := by
  cases h; rfl

/-- The walk of `remove` stops at a record of the list it walks. -/
theorem findPrev_mem {h : Nat} {l : List Nat} (hl : Links records (some h) l) {td prev fuel : Nat}
    (hp : findPrev records td fuel h = some prev) : prev ∈ l := by
  induction fuel generalizing h l with
  | zero => cases hp
  | succ fuel ih =>
    cases hl with
    | cons _ l hl =>
      rw [findPrev] at hp
      split_ifs at hp
      · cases hp; exact List.mem_cons_self _ _
      · split at hp
        · cases hp
        · rename_i t ht
          exact List.mem_cons_of_mem _ (ih (ht ▸ hl) hp)

/-- The walk of `cleanup` stops at a record of the list it walks. -/
theorem findStaged_mem {s : Lifecycle} {tid h : Nat} {l : List Nat}
    (hl : Links s.reg.records (some h) l) {fuel : Nat} {last last' : Option Nat} {td : Nat}
    (hw : findStaged s tid fuel last h = .ok (last', td)) : td ∈ l := by
  induction fuel generalizing h l last with
  | zero => cases hw
  | succ fuel ih =>
    cases hl with
    | cons _ l hl =>
      rw [findStaged] at hw
      split_ifs at hw
      · cases hw; exact List.mem_cons_self _ _
      · split at hw
        · cases hw
        · rename_i t ht
          exact List.mem_cons_of_mem _ (ih (ht ▸ hl) hw)

/-- The walk of `cleanup` stops at `assert(td)` or runs out, and at nothing else. -/
theorem findStaged_error {s : Lifecycle} {tid : Nat} {fuel : Nat} {last : Option Nat} {h : Nat}
    {e : String} (hw : findStaged s tid fuel last h = .error e) :
    e = "td" ∨ e = "the walk does not end" := by
  induction fuel generalizing h last with
  | zero => cases hw; exact .inr rfl
  | succ fuel ih =>
    rw [findStaged] at hw
    split_ifs at hw
    split at hw
    · cases hw; exact .inl rfl
    · exact ih hw

/-- On a list with no record of thread `tid`, the walk of `cleanup` fails at `assert(td)`. -/
theorem findStaged_none {s : Lifecycle} {tid h : Nat} {l : List Nat}
    (hl : Links s.reg.records (some h) (h :: l)) (hno : ∀ t ∈ h :: l, (s.idents t).self ≠ tid)
    {fuel : Nat} (hfuel : l.length < fuel) (last : Option Nat) :
    findStaged s tid fuel last h = .error "td" := by
  obtain ⟨fuel, rfl⟩ : ∃ f, fuel = f + 1 := ⟨fuel - 1, by omega⟩
  induction l generalizing h fuel last with
  | nil => rw [findStaged, if_neg (hno h (List.mem_cons_self h [])), hl.cons_next.eq_none_of_nil]
  | cons t l ih =>
    have hnext : (s.reg.records h).next = some t := hl.cons_next.eq_some_of_cons
    rw [findStaged_of_next (hno h (List.mem_cons_self h _)) hnext]
    obtain ⟨fuel, rfl⟩ : ∃ f, fuel = f + 1 := ⟨fuel - 1, by simp at hfuel; omega⟩
    exact ih (hnext ▸ hl.cons_next) (fun k hk => hno k (List.mem_cons_of_mem h hk)) _ fuel
      (by simp at hfuel ⊢; omega)

/-- Past the head, the walk of `cleanup` finds the first record of thread `tid` and the record
before it, and linking past the first leaves the list with it erased. -/
theorem findStaged_erase {s : Lifecycle} {tid td h : Nat} {l : List Nat}
    (hl : Links s.reg.records (some h) (h :: l)) (hnd : (h :: l).Nodup)
    (hfind : (h :: l).find? (fun t => (s.idents t).self = tid) = some td) (htd : td ≠ h)
    {fuel : Nat} (hfuel : l.length < fuel) (last : Option Nat) :
    ∃ p, findStaged s tid fuel last h = .ok (some p, td) ∧ p ∈ h :: l ∧ p ≠ td ∧
      Links (setNext s.reg.records p (s.reg.records td).next) (some h) ((h :: l).erase td) := by
  obtain ⟨hh, htail⟩ := find?_tail_of_ne_head hfind htd
  clear hfind
  obtain ⟨fuel, rfl⟩ : ∃ f, fuel = f + 1 := ⟨fuel - 1, by omega⟩
  induction l generalizing h fuel last with
  | nil => cases htail
  | cons t l ih =>
    have hnext : (s.reg.records h).next = some t := hl.cons_next.eq_some_of_cons
    have htl : Links s.reg.records (some t) (t :: l) := hnext ▸ hl.cons_next
    have hht : h ∉ t :: l := (List.nodup_cons.mp hnd).1
    rw [findStaged_of_next hh hnext, List.erase_cons_tail (by simpa using htd.symm)]
    obtain ⟨fuel, rfl⟩ : ∃ f, fuel = f + 1 := ⟨fuel - 1, by simp at hfuel; omega⟩
    by_cases htt : td = t
    · -- the record after `h` is the one found: `h` is `last`
      subst htt
      have hself : (s.idents td).self = tid := by simpa using List.find?_some htail
      refine ⟨h, findStaged_of_self hself, List.mem_cons_self _ _, htd.symm, ?_⟩
      rw [List.erase_cons_head]
      refine .cons h l ?_
      rw [setNext_same]
      exact htl.cons_next.congr fun k hk =>
        by rw [setNext_of_ne fun (e : k = h) => hht (e ▸ List.mem_cons_of_mem _ hk)]
    · obtain ⟨hself, hfind⟩ := find?_tail_of_ne_head htail htt
      obtain ⟨p, hp, hmem, hptd, hlinks⟩ := ih htl (List.nodup_cons.mp hnd).2 htt (some h) hself
        hfind fuel (by simp at hfuel ⊢; omega)
      refine ⟨p, hp, List.mem_cons_of_mem _ hmem, hptd, .cons h _ ?_⟩
      rw [setNext_of_ne fun (e : h = p) => hht (e ▸ hmem), hnext]
      exact hlinks

end Links

section Unlink

variable (s : Lifecycle) (last : Option Nat) (td : Nat)

@[simp] theorem unlinkStaged_tl : (unlinkStaged s last td).reg.tl = s.reg.tl := by
  cases last <;> rfl

@[simp] theorem unlinkStaged_idents : (unlinkStaged s last td).idents = s.idents := by
  cases last <;> rfl

@[simp] theorem unlinkStaged_unmapped : (unlinkStaged s last td).unmapped = s.unmapped := by
  cases last <;> rfl

@[simp] theorem unlinkStaged_refCount (k : Nat) :
    ((unlinkStaged s last td).reg.records k).refCount = (s.reg.records k).refCount := by
  cases last <;> simp [unlinkStaged]

@[simp] theorem unlinkStaged_userStackLow (k : Nat) :
    ((unlinkStaged s last td).reg.records k).userStackLow = (s.reg.records k).userStackLow := by
  cases last <;> simp [unlinkStaged]

@[simp] theorem unmapStack_reg : (unmapStack s td).reg = s.reg := by
  unfold unmapStack; split <;> rfl

@[simp] theorem unmapStack_staged : (unmapStack s td).staged = s.staged := by
  unfold unmapStack; split <;> rfl

@[simp] theorem unmapStack_idents : (unmapStack s td).idents = s.idents := by
  unfold unmapStack; split <;> rfl

theorem unmapStack_unmapped : (unmapStack s td).unmapped = s.unmapped ++
    (if (s.idents td).stackIsOurs then [(s.reg.records td).userStackLow] else []) := by
  unfold unmapStack; split <;> simp [*]

end Unlink

/-- With enough fuel, the walk of `cleanup` finds the first staged record of thread `tid`, and
unlinking it leaves the staged list with it erased and every record off that list as it was. -/
theorem Links.findStaged_unlink {s : Lifecycle} {tid td : Nat} {l : List Nat}
    (hl : Links s.reg.records s.staged l) (hnd : l.Nodup)
    (hfind : l.find? (fun t => (s.idents t).self = tid) = some td) {fuel : Nat}
    (hfuel : l.length ≤ fuel) :
    ∃ h last, s.staged = some h ∧ findStaged s tid fuel none h = .ok (last, td) ∧
      Links (unlinkStaged s last td).reg.records (unlinkStaged s last td).staged (l.erase td) ∧
      ∀ k, k ∉ l → (unlinkStaged s last td).reg.records k = s.reg.records k := by
  obtain ⟨h, l, rfl⟩ : ∃ h t, l = h :: t :=
    List.exists_cons_of_ne_nil fun e => by rw [e] at hfind; cases hfind
  have hh : s.staged = some h := hl.eq_some_of_cons
  obtain ⟨fuel, rfl⟩ : ∃ f, fuel = f + 1 := ⟨fuel - 1, by simp at hfuel; omega⟩
  by_cases htd : td = h
  · -- the head is the record found: `g_td_staged_to_free = td->next`
    subst htd
    have hself : (s.idents td).self = tid := by simpa using List.find?_some hfind
    refine ⟨td, none, hh, findStaged_of_self hself, ?_, fun _ _ => rfl⟩
    rw [List.erase_cons_head]
    exact (hh ▸ hl).cons_next
  · -- further on: `last->next = td->next`
    obtain ⟨p, hp, hmem, -, hlinks⟩ :=
      (hh ▸ hl).findStaged_erase hnd hfind htd (show l.length < fuel + 1 by simp at hfuel; omega)
        none
    refine ⟨h, some p, hh, hp, ?_, fun k hk => setNext_of_ne fun (e : k = p) => hk (e ▸ hmem)⟩
    show Links (setNext s.reg.records p (s.reg.records td).next) s.staged _
    rw [hh]
    exact hlinks

/-- A walk of `cleanup` that ends with some fuel ends the same way with more. -/
theorem findStaged_mono {s : Lifecycle} {tid fuel fuel' h : Nat} {last : Option Nat}
    {r : Option Nat × Nat} (hw : findStaged s tid fuel last h = .ok r) (hle : fuel ≤ fuel') :
    findStaged s tid fuel' last h = .ok r := by
  induction fuel generalizing fuel' last h with
  | zero => cases hw
  | succ fuel ih =>
    obtain ⟨fuel', rfl⟩ : ∃ f, fuel' = f + 1 := ⟨fuel' - 1, by omega⟩
    rw [findStaged] at hw ⊢
    split_ifs at hw ⊢
    · exact hw
    · split at hw
      · cases hw
      · exact ih hw (by omega)

theorem forkgcUtilThreadDataCleanup_mono {s s' : Lifecycle} {tid fuel fuel' : Nat}
    (hc : forkgcUtilThreadDataCleanup fuel s tid = .ok s') (hle : fuel ≤ fuel') :
    forkgcUtilThreadDataCleanup fuel' s tid = .ok s' := by
  unfold forkgcUtilThreadDataCleanup at hc ⊢
  split at hc
  · cases hc
  · rename_i h hh
    split at hc
    · cases hc
    · rename_i last td hw
      simp only [hh, findStaged_mono hw hle]
      exact hc

/-! ## The thread list under the lifecycle's writes -/

namespace Registry.Inv

variable {r r' : Registry} {l : List Nat}

/-- The thread list stays through any change of the records that keeps the `next` fields of its
own. -/
theorem of_next (hi : r.Inv l) (htl : r'.tl = r.tl)
    (hnext : ∀ k ∈ l, (r'.records k).next = (r.records k).next) : r'.Inv l :=
  ⟨htl ▸ hi.links.congr hnext, htl ▸ hi.count_eq, hi.nodup⟩

/-- `remove` writes the `next` field of a listed record only, and no `ref_count`. -/
theorem remove_frame (hi : r.Inv l) {td : Nat} (h : forkgcUtilThreadListRemove r td = some r') :
    (∀ k, k ∉ l → r'.records k = r.records k) ∧
      ∀ k, (r'.records k).refCount = (r.records k).refCount := by
  unfold forkgcUtilThreadListRemove at h
  split at h
  · cases h
  · rename_i tmp hhead
    split_ifs at h
    · obtain ⟨tl, -, rfl⟩ := Option.map_eq_some'.mp h
      exact ⟨fun _ _ => rfl, fun _ => rfl⟩
    · split at h
      · cases h
      · rename_i prev hprev
        obtain ⟨tl, -, rfl⟩ := Option.map_eq_some'.mp h
        have hmem : prev ∈ l := (hhead ▸ hi.links).findPrev_mem hprev
        refine ⟨fun k hk => Function.update_noteq (fun (e : k = prev) => hk (e ▸ hmem)) _ _,
          fun k => ?_⟩
        rcases eq_or_ne k prev with rfl | hk <;> simp [Function.update_noteq, *]

end Registry.Inv

@[simp] theorem takeRef_next (records : Nat → ThreadData) (ret : Option Nat) (k : Nat) :
    (takeRef records ret k).next = (records k).next := by
  rw [takeRef_apply]; split_ifs <;> rfl

/-! ## Runs -/

/-- Where the records stand along a run: `listed` in the thread list and `staged` on
`g_td_staged_to_free`, each in its order; `dropping`, whose last reference is dropped and which
are not yet staged; and `live`, mapped by `forkgc_util_thread_data_new` and not yet freed. -/
structure Lifecycle.Ghost where
  listed : List Nat
  staged : List Nat
  dropping : List Nat
  live : List Nat

/-- An initialised empty thread list and nothing staged, over any records. -/
def Lifecycle.init (records : Nat → ThreadData) (idents : Nat → ThreadIdent) (count : Nat) :
    Lifecycle :=
  ⟨Registry.init records count, idents, none, []⟩

/-- The states a run of calls reaches, with where it has left the records. A record is mapped
at an address not in use; a thread fills in its record while it is live and lists it while it
holds a reference (its count is positive); `decr_ref` is called on a live record by a thread
holding a reference (its count is positive), but never drops the last reference to a listed
record; its push follows the decrement that reached zero, with other calls between them; and
`cleanup(tid)` frees the first staged record of thread `tid`. -/
inductive Lifecycle.Run : Lifecycle → Lifecycle.Ghost → Prop
  | init (records : Nat → ThreadData) (idents : Nat → ThreadIdent) (count : Nat) :
      Lifecycle.Run (Lifecycle.init records idents count) ⟨[], [], [], []⟩
  | new {s : Lifecycle} {g : Lifecycle.Ghost} (td localList : Nat) : Lifecycle.Run s g →
      td ∉ g.live →
      Lifecycle.Run (forkgcUtilThreadDataNew s td localList) { g with live := td :: g.live }
  | fill {s : Lifecycle} {g : Lifecycle.Ghost} (td self : Nat) (stackIsOurs : Bool)
      (low high : Nat) : Lifecycle.Run s g → td ∈ g.live →
      Lifecycle.Run (s.fill td self stackIsOurs low high) g
  | add {s : Lifecycle} {g : Lifecycle.Ghost} (td : Nat) : Lifecycle.Run s g → td ∈ g.live →
      td ∉ g.listed → 0 < (s.reg.records td).refCount →
      Lifecycle.Run { s with reg := forkgcUtilThreadListAdd s.reg td }
        { g with listed := td :: g.listed }
  | remove {s : Lifecycle} {g : Lifecycle.Ghost} (td : Nat) {r' : Registry} :
      Lifecycle.Run s g → td ∈ g.listed → forkgcUtilThreadListRemove s.reg td = some r' →
      Lifecycle.Run { s with reg := r' } { g with listed := g.listed.erase td }
  | find {s : Lifecycle} {g : Lifecycle.Ghost} (addr : Nat) {r' : Registry} {ret : Option Nat} :
      Lifecycle.Run s g → forkgcUtilThreadListFind s.reg addr = some (r', ret) →
      Lifecycle.Run { s with reg := r' } g
  | decr {s : Lifecycle} {g : Lifecycle.Ghost} (td : Nat) : Lifecycle.Run s g → td ∈ g.live →
      0 < (s.reg.records td).refCount →
      ¬ (td ∈ g.listed ∧ (s.reg.records td).refCount = 1) →
      Lifecycle.Run { s with reg := { s.reg with records := (fetchAndSubRef s.reg.records td).1 } }
        (if (fetchAndSubRef s.reg.records td).2 = 0 then { g with dropping := td :: g.dropping }
          else g)
  | stage {s : Lifecycle} {g : Lifecycle.Ghost} (td : Nat) : Lifecycle.Run s g →
      td ∈ g.dropping →
      Lifecycle.Run (stageToFree s td)
        { g with staged := td :: g.staged, dropping := g.dropping.erase td }
  | cleanup {s s' : Lifecycle} {g : Lifecycle.Ghost} (fuel tid : Nat) {td : Nat} : Lifecycle.Run s g →
      g.staged.find? (fun t => (s.idents t).self = tid) = some td →
      forkgcUtilThreadDataCleanup fuel s tid = .ok s' →
      Lifecycle.Run s' { g with staged := g.staged.erase td, live := g.live.erase td }

/-- What a run keeps: the thread list links and counts `listed`, and `g_td_staged_to_free` links
`staged`; no record is staged or dropping twice; listed records hold a reference and staged or
dropping ones none, so that none is listed and staged; and every record of them is live. -/
structure Lifecycle.Inv (s : Lifecycle) (g : Lifecycle.Ghost) : Prop where
  list : s.reg.Inv g.listed
  staged : Links s.reg.records s.staged g.staged
  nodup : (g.staged ++ g.dropping).Nodup
  held : ∀ td ∈ g.listed, 0 < (s.reg.records td).refCount
  unheld : ∀ td ∈ g.staged ++ g.dropping, (s.reg.records td).refCount = 0
  live : ∀ td ∈ g.listed ++ (g.staged ++ g.dropping), td ∈ g.live
  live_nodup : g.live.Nodup

namespace Lifecycle.Inv

variable {s : Lifecycle} {g : Lifecycle.Ghost}

theorem not_listed (hi : s.Inv g) {td : Nat} (h : td ∈ g.staged ++ g.dropping) :
    td ∉ g.listed :=
  fun hl => (hi.held td hl).ne' (hi.unheld td h)

/-- A record holding a reference is neither staged nor dropping. -/
theorem ne_of_held (hi : s.Inv g) {td : Nat} (href : 0 < (s.reg.records td).refCount) :
    ∀ k ∈ g.staged ++ g.dropping, k ≠ td :=
  fun k hk e => by have := hi.unheld k hk; subst e; omega

theorem init (records : Nat → ThreadData) (idents : Nat → ThreadIdent) (count : Nat) :
    (Lifecycle.init records idents count).Inv ⟨[], [], [], []⟩ :=
  ⟨Registry.Inv.init records count, .nil, List.nodup_nil, fun _ h => by simp at h,
    fun _ h => by simp at h, fun _ h => by simp at h, List.nodup_nil⟩

theorem new (hi : s.Inv g) {td : Nat} (htd : td ∉ g.live) (localList : Nat) :
    (forkgcUtilThreadDataNew s td localList).Inv { g with live := td :: g.live } := by
  have hne : ∀ k ∈ g.listed ++ (g.staged ++ g.dropping), k ≠ td :=
    fun k hk (e : k = td) => htd (e ▸ hi.live k hk)
  refine ⟨hi.list.of_next rfl fun k _ => setRef_next ..,
    hi.staged.congr fun k _ => setRef_next ..,
    hi.nodup, fun k hk => ?_, fun k hk => ?_, fun k hk => List.mem_cons_of_mem _ (hi.live k hk),
    List.nodup_cons.mpr ⟨htd, hi.live_nodup⟩⟩
  · simpa [hne k (List.mem_append_left _ hk)] using hi.held k hk
  · simpa [hne k (List.mem_append_right _ hk)] using hi.unheld k hk

theorem fill (hi : s.Inv g) (td self : Nat) (stackIsOurs : Bool) (low high : Nat) :
    (s.fill td self stackIsOurs low high).Inv g :=
  ⟨hi.list.of_next rfl fun k _ => setStack_next .., hi.staged.congr fun k _ => setStack_next ..,
    hi.nodup, fun k hk => by simpa using hi.held k hk, fun k hk => by simpa using hi.unheld k hk,
    hi.live, hi.live_nodup⟩

theorem add (hi : s.Inv g) {td : Nat} (hlive : td ∈ g.live) (htd : td ∉ g.listed)
    (href : 0 < (s.reg.records td).refCount) :
    Lifecycle.Inv { s with reg := forkgcUtilThreadListAdd s.reg td }
      { g with listed := td :: g.listed } := by
  have hne := hi.ne_of_held href
  refine ⟨hi.list.add htd, hi.staged.congr fun k hk =>
      congrArg ThreadData.next (setNext_of_ne (hne k (List.mem_append_left _ hk))), hi.nodup,
    fun k hk => ?_, fun k hk => ?_,
    fun k hk => (List.mem_cons.mp hk).elim (fun e => e ▸ hlive) (hi.live k), hi.live_nodup⟩
  · simp only [forkgcUtilThreadListAdd_records, setNext_refCount]
    rcases List.mem_cons.mp hk with rfl | hk
    · exact href
    · exact hi.held k hk
  · simpa [forkgcUtilThreadListAdd_records] using hi.unheld k hk

theorem remove (hi : s.Inv g) {td : Nat} (htd : td ∈ g.listed) {r' : Registry}
    (h : forkgcUtilThreadListRemove s.reg td = some r') :
    Lifecycle.Inv { s with reg := r' } { g with listed := g.listed.erase td } := by
  obtain ⟨r'', h', hinv⟩ := hi.list.remove htd
  obtain rfl : r' = r'' := Option.some_injective _ (h.symm.trans h')
  obtain ⟨hframe, hrefs⟩ := hi.list.remove_frame h
  refine ⟨hinv, hi.staged.congr fun k hk => by
      rw [hframe k (hi.not_listed (List.mem_append_left _ hk))], hi.nodup,
    fun k hk => (hrefs k).symm ▸ hi.held k (List.mem_of_mem_erase hk),
    fun k hk => (hrefs k).trans (hi.unheld k hk),
    fun k hk => hi.live k (((List.erase_sublist _ _).append_right _).subset hk), hi.live_nodup⟩

theorem find (hi : s.Inv g) {addr : Nat} {r' : Registry} {ret : Option Nat}
    (h : forkgcUtilThreadListFind s.reg addr = some (r', ret)) :
    Lifecycle.Inv { s with reg := r' } g := by
  rw [hi.list.find_eq] at h
  obtain ⟨rfl, rfl⟩ := Prod.mk.inj (Option.some_injective _ h)
  refine ⟨hi.list.find _, hi.staged.congr fun k _ => takeRef_next .., hi.nodup, fun k hk => ?_,
    fun k hk => ?_, hi.live, hi.live_nodup⟩
  · have := hi.held k hk
    simp only [takeRef_apply]
    split_ifs
    · show 0 < (s.reg.records k).refCount + 1; omega
    · exact this
  · have hret : g.listed.find? (StackHolds s.reg.records addr) ≠ some k :=
      fun e => hi.not_listed hk (List.mem_of_find?_eq_some e)
    simp only [takeRef_apply, if_neg hret]
    exact hi.unheld k hk

theorem decr (hi : s.Inv g) {td : Nat} (hlive : td ∈ g.live)
    (hpos : 0 < (s.reg.records td).refCount)
    (hlast : ¬ (td ∈ g.listed ∧ (s.reg.records td).refCount = 1)) :
    Lifecycle.Inv { s with reg := { s.reg with records := (fetchAndSubRef s.reg.records td).1 } }
      (if (fetchAndSubRef s.reg.records td).2 = 0 then { g with dropping := td :: g.dropping }
        else g) := by
  simp only [fetchAndSubRef]
  have hne := hi.ne_of_held hpos
  have hlist : Registry.Inv
      { s.reg with records := setRef s.reg.records td ((s.reg.records td).refCount - 1) }
      g.listed :=
    hi.list.of_next rfl fun k _ => setRef_next ..
  have hstaged := hi.staged.congr fun k _ => setRef_next s.reg.records td k
    ((s.reg.records td).refCount - 1)
  split_ifs with hc
  · -- the last reference: the record is dropping
    have htdl : td ∉ g.listed := fun hl => hlast ⟨hl, by omega⟩
    refine ⟨hlist, hstaged, List.nodup_middle.mpr (List.nodup_cons.mpr
      ⟨fun hm => hne td hm rfl, hi.nodup⟩), fun k hk => ?_, fun k hk => ?_, fun k hk => ?_,
      hi.live_nodup⟩
    · have hk' : k ≠ td := fun e => htdl (e ▸ hk)
      simpa [hk'] using hi.held k hk
    · rcases eq_or_ne k td with rfl | hk'
      · simpa using hc
      · simpa [hk'] using hi.unheld k (by simpa [hk'] using hk)
    · rcases eq_or_ne k td with rfl | hk'
      · exact hlive
      · exact hi.live k (by simpa [hk'] using hk)
  · -- references remain
    refine ⟨hlist, hstaged, hi.nodup, fun k hk => ?_, fun k hk => ?_, hi.live, hi.live_nodup⟩
    · rcases eq_or_ne k td with rfl | hk'
      · simp only [setRef_refCount, if_true]; omega
      · simpa [hk'] using hi.held k hk
    · simpa [hne k hk] using hi.unheld k hk

theorem stage (hi : s.Inv g) {td : Nat} (htd : td ∈ g.dropping) :
    (stageToFree s td).Inv
      { g with staged := td :: g.staged, dropping := g.dropping.erase td } := by
  have hnl : td ∉ g.listed := hi.not_listed (List.mem_append_right _ htd)
  have hns : td ∉ g.staged := fun h => (List.nodup_append.mp hi.nodup).2.2 h htd
  have hperm : (td :: (g.staged ++ g.dropping.erase td)).Perm (g.staged ++ g.dropping) :=
    List.perm_middle.symm.trans ((List.perm_cons_erase htd).symm.append_left _)
  refine ⟨hi.list.of_next rfl fun k hk =>
      congrArg ThreadData.next (setNext_of_ne fun (e : k = td) => hnl (e ▸ hk)),
    .cons td g.staged ?_, hperm.nodup_iff.mpr hi.nodup, fun k hk => by simpa using hi.held k hk,
    fun k hk => by simpa using hi.unheld k (hperm.subset hk),
    fun k hk => hi.live k ((hperm.append_left _).subset hk), hi.live_nodup⟩
  rw [stageToFree_records, setNext_same]
  exact hi.staged.congr fun k hk =>
    congrArg ThreadData.next (setNext_of_ne fun (e : k = td) => hns (e ▸ hk))

end Lifecycle.Inv

namespace Lifecycle.Inv

variable {s : Lifecycle} {g : Lifecycle.Ghost}

/-- `cleanup(tid)` with enough fuel, when thread `tid` has a staged record: it unlinks the first,
passes the data-race check, and unmaps the record's stack if it is ours, its pointer buffer and
the record; the record is freed, and the thread list is as it was. -/
theorem cleanup (hi : s.Inv g) {tid td : Nat}
    (hfind : g.staged.find? (fun t => (s.idents t).self = tid) = some td) {fuel : Nat}
    (hfuel : g.staged.length ≤ fuel) :
    ∃ s', forkgcUtilThreadDataCleanup fuel s tid = .ok s' ∧
      s'.Inv { g with staged := g.staged.erase td, live := g.live.erase td } ∧
      s'.reg.tl = s.reg.tl ∧ s'.unmapped = s.unmapped ++
        ((if (s.idents td).stackIsOurs then [(s.reg.records td).userStackLow] else []) ++
          [(s.idents td).ptrList, td]) := by
  have hnd : g.staged.Nodup := (List.nodup_append.mp hi.nodup).1
  have htd : td ∈ g.staged := List.mem_of_find?_eq_some hfind
  have hzero : (s.reg.records td).refCount = 0 := hi.unheld td (List.mem_append_left _ htd)
  obtain ⟨h, last, hh, hw, hlinks, hframe⟩ := hi.staged.findStaged_unlink hnd hfind hfuel
  have hc : forkgcUtilThreadDataCleanup fuel s tid =
      forkgcUtilThreadDataFree (unmapStack (unlinkStaged s last td) td) td := by
    simp [forkgcUtilThreadDataCleanup, hh, hw, hzero]
  rw [hc, forkgcUtilThreadDataFree, if_pos (by simpa using hzero)]
  refine ⟨_, rfl, ⟨?_, by simpa using hlinks,
      hi.nodup.sublist ((List.erase_sublist _ _).append_right _),
      fun k hk => by simpa using hi.held k hk,
      fun k hk => by simpa using hi.unheld k (((List.erase_sublist _ _).append_right _).subset hk),
      fun k hk => ?_, hi.live_nodup.erase td⟩, by simp, by simp [unmapStack_unmapped]⟩
  · exact hi.list.of_next (by simp) fun k hk => by
      simp [hframe k fun hs => hi.not_listed (List.mem_append_left _ hs) hk]
  · -- the record freed was staged only, and once
    have hne : k ≠ td := by
      rcases List.mem_append.mp hk with hk | hk
      · exact fun e => hi.not_listed (List.mem_append_left _ htd) (e ▸ hk)
      · rcases List.mem_append.mp hk with hk | hk
        · exact (hnd.mem_erase_iff.mp hk).1
        · exact fun e => (List.nodup_append.mp hi.nodup).2.2 htd (e ▸ hk)
    exact (List.mem_erase_of_ne hne).mpr
      (hi.live k ((((List.erase_sublist _ _).append_right _).append_left _).subset hk))

/-- `cleanup(tid)` with enough fuel, when thread `tid` has no staged record: it stops at
`assert(td)`. -/
theorem cleanup_none (hi : s.Inv g) {tid : Nat}
    (hno : ∀ td ∈ g.staged, (s.idents td).self ≠ tid)
    {fuel : Nat} (hfuel : g.staged.length ≤ fuel) :
    forkgcUtilThreadDataCleanup fuel s tid = .error "td" := by
  have hl := hi.staged
  cases hg : g.staged with
  | nil => rw [hg] at hl; rw [forkgcUtilThreadDataCleanup, hl.eq_none_of_nil]
  | cons h l =>
    rw [hg] at hl hno hfuel
    have hh := hl.eq_some_of_cons
    rw [forkgcUtilThreadDataCleanup, hh]
    simp only [(hh ▸ hl).findStaged_none hno (show l.length < fuel by simp at hfuel; omega) none]

/-- `cleanup` never reaches its data-race check: the record it finds is staged, with no
reference. -/
theorem cleanup_ne_race (hi : s.Inv g) (fuel tid : Nat) :
    forkgcUtilThreadDataCleanup fuel s tid ≠
      .error "ForkGC: detected data race on exiting thread.\n" := by
  unfold forkgcUtilThreadDataCleanup
  split
  · simp
  · rename_i h hh
    split
    · rename_i e hw
      rcases Links.findStaged_error hw with rfl | rfl <;> simp
    · rename_i last td hw
      have hzero := hi.unheld td (List.mem_append_left _ ((hh ▸ hi.staged).findStaged_mem hw))
      simp [hzero, forkgcUtilThreadDataFree]

/-- The invariant holds along every run. -/
theorem of_run (hrun : Lifecycle.Run s g) : s.Inv g := by
  induction hrun with
  | init records idents count => exact init records idents count
  | new td localList _ htd ih => exact ih.new htd localList
  | fill td self stackIsOurs low high _ _ ih => exact ih.fill td self stackIsOurs low high
  | add _ _ hlive htd href ih => exact ih.add hlive htd href
  | remove _ _ htd h ih => exact ih.remove htd h
  | find _ _ h ih => exact ih.find h
  | decr _ _ hlive hlast h ih => exact ih.decr hlive hlast h
  | stage _ _ htd ih => exact ih.stage htd
  | cleanup _ _ _ hfind hc ih =>
    obtain ⟨_, hc', hinv, -⟩ := ih.cleanup hfind (le_max_right _ _)
    rw [forkgcUtilThreadDataCleanup_mono hc (le_max_left _ _)] at hc'
    cases hc'
    exact hinv

end Lifecycle.Inv

/-- Linking a record's `next` elsewhere cuts the list there and continues with what it links. -/
theorem Links.splice {records records' : Nat → ThreadData} {x : Option Nat}
    {pre post l : List Nat} {td : Nat} (h : Links records x (pre ++ td :: post))
    (hpre : ∀ k ∈ pre, (records' k).next = (records k).next)
    (htd : Links records' (records' td).next l) : Links records' x (pre ++ td :: l) := by
  induction pre generalizing x with
  | nil => obtain rfl := h.eq_some_of_cons; exact .cons td l htd
  | cons p pre ih =>
    obtain rfl := h.eq_some_of_cons
    refine .cons p _ ?_
    rw [hpre p (List.mem_cons_self _ _)]
    exact ih h.cons_next fun k hk => hpre k (List.mem_cons_of_mem _ hk)

/-- **The thread list and the staged list stay well formed and apart, and link no freed
record.** Along every run of `forkgc_util_thread_data_new`, the list functions,
`forkgc_util_thread_data_decr_ref` (its decrement and its push as two steps, other calls between
them) and `forkgc_util_thread_data_cleanup`, in which every record added to the thread list holds
a reference, every `decr_ref` drops a reference its caller holds, and no thread drops the last
reference to a record still in the thread list: `tl->head` links the listed records and `tl->count` counts them,
`g_td_staged_to_free` links the staged ones, no record is on both lists or twice on one, every
record either list links is mapped and not yet freed, every listed record holds a reference and
every staged one none. -/
theorem thread_data_lists_safe {s : Lifecycle} {g : Lifecycle.Ghost} (hrun : Lifecycle.Run s g) :
    Links s.reg.records s.reg.tl.head g.listed ∧ s.reg.tl.count = g.listed.length ∧
      Links s.reg.records s.staged g.staged ∧ (g.listed ++ g.staged).Nodup ∧
      (∀ td ∈ g.listed ++ g.staged, td ∈ g.live) ∧
      (∀ td ∈ g.listed, 0 < (s.reg.records td).refCount) ∧
      ∀ td ∈ g.staged, (s.reg.records td).refCount = 0 := by
  have hi := Lifecycle.Inv.of_run hrun
  refine ⟨hi.list.links, hi.list.count_eq, hi.staged,
    List.nodup_append.mpr ⟨hi.list.nodup, (List.nodup_append.mp hi.nodup).1,
      fun a ha hb => hi.not_listed (List.mem_append_left _ hb) ha⟩,
    fun td htd => hi.live td (((List.sublist_append_left _ _).append_left _).subset htd), hi.held,
    fun td htd => hi.unheld td (List.mem_append_left _ htd)⟩

theorem thread_data_lists_safe_two :
    ∃ s g, Lifecycle.Run s g ∧ g.listed = [2] ∧ g.staged = [1] ∧
      Links s.reg.records s.reg.tl.head g.listed ∧ Links s.reg.records s.staged g.staged := by
  have h₀ := Lifecycle.Run.init (fun _ => ⟨none, 0, 0, 0⟩) (fun _ => ⟨0, false, 0⟩) 0
  have h₁ := (h₀.new 1 10 (by decide)).fill 1 7 false 100 200 (by decide)
  have h₂ := (h₁.add 1 (by decide) (by decide) (by decide)).new 2 20 (by decide)
  have h₃ := (h₂.add 2 (by decide) (by decide) (by decide)).remove 1 (by decide) rfl
  have hr := (h₃.decr 1 (by decide) (by decide) (by decide)).stage 1 (by decide)
  exact ⟨_, _, hr, rfl, rfl, (thread_data_lists_safe hr).1, (thread_data_lists_safe hr).2.2.1⟩

/-- **`cleanup(tid)` frees the first staged record of thread `tid`, and never reaches its
data-race check.** In every state of a run, `forkgc_util_thread_data_cleanup(tid)` never stops
at "ForkGC: detected data race on exiting thread.". Given fuel for the staged list: if thread
`tid` has no staged record, it stops at `assert(td)`; otherwise it unlinks the first staged record
of thread `tid`, leaves the other staged records linked in order and the thread list as it was,
and passes to `forkgc_alloc_munmap` the record's stack if it is ours, then its pointer buffer,
then the record, and nothing else. -/
theorem thread_data_cleanup_spec {s : Lifecycle} {g : Lifecycle.Ghost} (hrun : Lifecycle.Run s g)
    (tid : Nat) :
    (∀ fuel, forkgcUtilThreadDataCleanup fuel s tid ≠
      .error "ForkGC: detected data race on exiting thread.\n") ∧
    ∀ fuel, g.staged.length ≤ fuel →
      ((∀ td ∈ g.staged, (s.idents td).self ≠ tid) →
        forkgcUtilThreadDataCleanup fuel s tid = .error "td") ∧
      ∀ td, g.staged.find? (fun t => (s.idents t).self = tid) = some td →
        ∃ s', forkgcUtilThreadDataCleanup fuel s tid = .ok s' ∧ s'.reg.tl = s.reg.tl ∧
          Links s'.reg.records s'.reg.tl.head g.listed ∧
          Links s'.reg.records s'.staged (g.staged.erase td) ∧
          s'.unmapped = s.unmapped ++
            ((if (s.idents td).stackIsOurs then [(s.reg.records td).userStackLow] else []) ++
              [(s.idents td).ptrList, td]) := by
  have hi := Lifecycle.Inv.of_run hrun
  refine ⟨fun fuel => hi.cleanup_ne_race fuel tid, fun fuel hfuel =>
    ⟨fun hno => hi.cleanup_none hno hfuel, fun td hfind => ?_⟩⟩
  obtain ⟨s', hc, hinv, htl, hun⟩ := hi.cleanup hfind hfuel
  exact ⟨s', hc, htl, hinv.list.links, hinv.staged, hun⟩

theorem thread_data_cleanup_spec_staged :
    ∃ s g, Lifecycle.Run s g ∧ g.staged = [1] ∧
      ∃ s', forkgcUtilThreadDataCleanup 1 s 7 = .ok s' ∧ Links s'.reg.records s'.staged [] ∧
        s'.unmapped = [10, 1] := by
  have h₀ := Lifecycle.Run.init (fun _ => ⟨none, 0, 0, 0⟩) (fun _ => ⟨0, false, 0⟩) 0
  have h₁ := (h₀.new 1 10 (by decide)).fill 1 7 false 100 200 (by decide)
  have h₂ := (h₁.add 1 (by decide) (by decide) (by decide)).remove 1 (by decide) rfl
  have hr := (h₂.decr 1 (by decide) (by decide) (by decide)).stage 1 (by decide)
  obtain ⟨s', hc, -, -, hst, hun⟩ := ((thread_data_cleanup_spec hr 7).2 1 (by decide)).2 1 rfl
  exact ⟨_, _, hr, rfl, s', hc, hst, hun⟩

/-- **Dropping the last reference to a listed record splices the staged list into the thread
list.** In every state of a run, if a record of the thread list holds one reference and
`forkgc_util_thread_data_decr_ref` drops it, the push writes its `next` with
`g_td_staged_to_free`: `tl->head` then links the listed records before it, the record, and then
the staged records, while `tl->count` still counts the listed ones; the records listed after it
are cut off, and the record is on both lists. -/
theorem decr_ref_listed_splices {s : Lifecycle} {g : Lifecycle.Ghost} (hrun : Lifecycle.Run s g)
    {td : Nat} {pre post : List Nat} (hl : g.listed = pre ++ td :: post)
    (hone : (s.reg.records td).refCount = 1) :
    Links (forkgcUtilThreadDataDecrRef s td).reg.records
        (forkgcUtilThreadDataDecrRef s td).reg.tl.head (pre ++ td :: g.staged) ∧
      Links (forkgcUtilThreadDataDecrRef s td).reg.records
        (forkgcUtilThreadDataDecrRef s td).staged (td :: g.staged) ∧
      (forkgcUtilThreadDataDecrRef s td).reg.tl.count = g.listed.length := by
  have hi := Lifecycle.Inv.of_run hrun
  have hne := hi.ne_of_held (show 0 < (s.reg.records td).refCount by omega)
  have htdpre : td ∉ pre := fun h => (List.nodup_cons.mp (List.nodup_middle.mp
    (hl ▸ hi.list.nodup))).1 (List.mem_append_left _ h)
  have hdecr : forkgcUtilThreadDataDecrRef s td = stageToFree
      { s with reg := { s.reg with records := setRef s.reg.records td 0 } } td := by
    simp [forkgcUtilThreadDataDecrRef, fetchAndSubRef, hone]
  -- the staged records keep their links; the record now leads to them
  have hstaged : Links (setNext (setRef s.reg.records td 0) td s.staged) s.staged g.staged :=
    hi.staged.congr fun k hk => by
      rw [setNext_of_ne (hne k (List.mem_append_left _ hk)), setRef_next]
  have hnext : Links (setNext (setRef s.reg.records td 0) td s.staged)
      ((setNext (setRef s.reg.records td 0) td s.staged) td).next g.staged := by
    rwa [setNext_same]
  rw [hdecr]
  refine ⟨(hl ▸ hi.list.links).splice (fun k hk => ?_) hnext, .cons td _ hnext,
    hi.list.count_eq⟩
  rw [stageToFree_records, setNext_of_ne fun (e : k = td) => htdpre (e ▸ hk), setRef_next]

theorem decr_ref_listed_splices_one :
    ∃ s g, Lifecycle.Run s g ∧ g.listed = [1] ∧ g.staged = [2] ∧
      Links (forkgcUtilThreadDataDecrRef s 1).reg.records
        (forkgcUtilThreadDataDecrRef s 1).reg.tl.head [1, 2] := by
  have h₀ := Lifecycle.Run.init (fun _ => ⟨none, 0, 0, 0⟩) (fun _ => ⟨0, false, 0⟩) 0
  have h₁ := ((h₀.new 1 10 (by decide)).add 1 (by decide) (by decide) (by decide)).new 2 20
    (by decide)
  have hr := (h₁.decr 2 (by decide) (by decide) (by decide)).stage 2 (by decide)
  exact ⟨_, _, hr, rfl, rfl,
    (decr_ref_listed_splices hr (show _ = [] ++ 1 :: [] from rfl) rfl).1⟩

end ForkScan
