import ForkScan.Sweep.Machine

/-!
# ForkScan — what one step of a sweep thread can do

`stepWorker` is a nest of matches; every invariant of the sweep would otherwise unfold it
again. This module says once what a step can do:

* **`WorkerStep`** — one constructor per atomic action of `address_range` and `unref_addr`,
  each with its guard and its exact effect on the shared state and on the thread;
  `stepWorker_spec` shows that every step of an unfinished thread is one of them.
* field lemmas — the fields no step writes (`nAddrs`, `allocSz`, the window), the masked
  addresses (only the collected bit is ever set), and which single constructor writes
  `addrs`, `refs`, `mem` or `freed`.
* the arithmetic of the collected bit and the contract of `binarySearch`.
-/

namespace ForkScan

/-! ## The collected bit -/

@[simp] theorem ptrMask_setLowBit (x : Nat) : ptrMask (setLowBit x) = ptrMask x := by
  simp only [ptrMask, setLowBit]; omega

@[simp] theorem setLowBit_mod_two (x : Nat) : setLowBit x % 2 = 1 := by
  simp only [ptrMask, setLowBit]; omega

@[simp] theorem ptrMask_mod_two (x : Nat) : ptrMask x % 2 = 0 := by
  simp only [ptrMask]; omega

theorem ptrMask_of_even {x : Nat} (h : x % 2 = 0) : ptrMask x = x := by
  simp only [ptrMask]; omega

@[simp] theorem ptrMask_zero : ptrMask 0 = 0 := rfl

/-- For a non-negative `int` size, `elements` is the plain quotient. -/
theorem elementsOf_of_nonneg {sz : Int} (h₀ : 0 ≤ sz) (h₁ : sz < 2 ^ 31) :
    elementsOf sz = sz / 8 := by
  have hmod : sz % 2 ^ 64 = sz := Int.emod_eq_of_lt h₀ (by omega)
  simp only [elementsOf, toInt32, WORD_SIZE, hmod]
  rw [if_pos (by omega)]
  omega

/-! ## The contract of `binarySearch` -/

theorem binarySearch_some {a : Nat → Nat} {lo hi w k : Nat}
    (h : binarySearch a lo hi w = some k) : lo ≤ k ∧ k < hi ∧ ptrMask (a k) = w := by
  have hmem := List.mem_of_find?_eq_some h
  have hk := List.find?_some h
  simp only [List.mem_range'_1, decide_eq_true_eq] at hmem hk
  exact ⟨hmem.1, by omega, hk⟩

theorem binarySearch_none {a : Nat → Nat} {lo hi w : Nat}
    (h : binarySearch a lo hi w = none) : ∀ k, lo ≤ k → k < hi → ptrMask (a k) ≠ w := by
  intro k hk₁ hk₂ hk
  have := List.find?_eq_none.mp h k (List.mem_range'_1.mpr ⟨hk₁, by omega⟩)
  simp [hk] at this

/-- A slot found by the search is an index whose masked entry is the word searched for. -/
theorem searchLoc_some {h : Heap} {n addr deep loc : Nat} (hs : searchLoc h n addr deep = some loc)
    (hn : n ≤ h.nAddrs) : loc < h.nAddrs ∧ ptrMask (h.addrs loc) = deep := by
  unfold searchLoc at hs
  split_ifs at hs
  · obtain ⟨-, hk, hm⟩ := binarySearch_some hs; exact ⟨by omega, hm⟩
  · obtain ⟨-, hk, hm⟩ := binarySearch_some hs; exact ⟨hk, hm⟩

/-! ## The steps of a thread -/

/-- The atomic actions of one sweep thread, with their guards and effects. -/
inductive WorkerStep : Heap → Worker → Heap → Worker → Prop
  /-- `addr = addrs[i]` and `assert(addr != 0)` -/
  | rangeRead {h w} (hf : w.frames = []) (hpc : w.pc = .read) (hi : w.i < w.rangeEnd) :
      WorkerStep h w { h with assertFailed := h.assertFailed || decide (h.addrs w.i = 0) }
        { w with pc := .assertRefs (h.addrs w.i) }
  /-- `assert(refs[i] >= 0)` -/
  | rangeAssert {h w addr} (hf : w.frames = []) (hpc : w.pc = .assertRefs addr) :
      WorkerStep h w { h with assertFailed := h.assertFailed || decide (h.refs w.i < 0) }
        { w with pc := .test addr }
  /-- the test passes: the entry looked unclaimed with no references -/
  | rangePass {h w addr} (hf : w.frames = []) (hpc : w.pc = .test addr)
      (hpass : addr % 2 = 0 ∧ h.refs w.i = 0) :
      WorkerStep h w h { w with pc := .cas addr }
  /-- the test fails: go on with the next index -/
  | rangeFail {h w addr} (hf : w.frames = []) (hpc : w.pc = .test addr)
      (hfail : ¬ (addr % 2 = 0 ∧ h.refs w.i = 0)) :
      WorkerStep h w h { w with i := w.i + 1, pc := .read }
  /-- the `BCAS` claims `addrs[i]`; `unref_addr(i, 30)` is called -/
  | rangeClaim {h w addr} (hf : w.frames = []) (hpc : w.pc = .cas addr)
      (heq : h.addrs w.i = addr) :
      WorkerStep h w { h with addrs := Function.update h.addrs w.i (setLowBit addr) }
        { w with i := w.i + 1, pc := .read, frames := [⟨w.i, 30, .entry⟩] }
  /-- the `BCAS` fails: another thread claimed the entry first -/
  | rangeLose {h w addr} (hf : w.frames = []) (hpc : w.pc = .cas addr)
      (hne : h.addrs w.i ≠ addr) :
      WorkerStep h w h { w with i := w.i + 1, pc := .read }
  /-- `addr = addrs[n]`, `assert(addr & 1)`, `elements = alloc_sz[n] / sizeof(size_t)` -/
  | frameEntry {h w f rest} (hf : w.frames = f :: rest) (hpc : f.pc = .entry) :
      WorkerStep h w { h with assertFailed := h.assertFailed || decide (h.addrs f.n % 2 = 0) }
        { w with frames :=
          { f with pc := .scan (h.addrs f.n) (elementsOf (h.allocSz f.n)) 0 .read } :: rest }
  /-- the read of `p[i]` finds a word inside `[min_val, max_val]` -/
  | frameRead {h w f rest addr e} {i : Nat} (hf : w.frames = f :: rest)
      (hpc : f.pc = .scan addr e i .read) (hi : (i : Int) < e)
      (hin : ptrMask (h.mem (blockWord (ptrMask addr) i)) ≥ h.minVal ∧
        ptrMask (h.mem (blockWord (ptrMask addr) i)) ≤ h.maxVal) :
      WorkerStep h w h { w with frames :=
        { f with pc := .scan addr e i (.zero (ptrMask (h.mem (blockWord (ptrMask addr) i)))) }
          :: rest }
  /-- the read of `p[i]` finds a word outside `[min_val, max_val]` -/
  | frameSkip {h w f rest addr e} {i : Nat} (hf : w.frames = f :: rest)
      (hpc : f.pc = .scan addr e i .read) (hi : (i : Int) < e)
      (hout : ¬ (ptrMask (h.mem (blockWord (ptrMask addr) i)) ≥ h.minVal ∧
        ptrMask (h.mem (blockWord (ptrMask addr) i)) ≤ h.maxVal)) :
      WorkerStep h w h { w with frames := { f with pc := .scan addr e (i + 1) .read } :: rest }
  /-- the loop is done: `free(p)` and return -/
  | frameFree {h w f rest addr e} {i : Nat} (hf : w.frames = f :: rest)
      (hpc : f.pc = .scan addr e i .read) (hi : ¬ (i : Int) < e) :
      WorkerStep h w { h with freed := h.freed ++ [ptrMask addr] } { w with frames := rest }
  /-- `p[i] = 0` -/
  | frameZero {h w f rest addr e deep} {i : Nat} (hf : w.frames = f :: rest)
      (hpc : f.pc = .scan addr e i (.zero deep)) :
      WorkerStep h w { h with mem := Function.update h.mem (blockWord (ptrMask addr) i) 0 }
        { w with frames := { f with pc := .scan addr e i (.search deep) } :: rest }
  /-- the search finds the word among the candidates -/
  | frameFound {h w f rest addr e deep loc} {i : Nat} (hf : w.frames = f :: rest)
      (hpc : f.pc = .scan addr e i (.search deep)) (hloc : searchLoc h f.n addr deep = some loc) :
      WorkerStep h w h { w with frames := { f with pc := .scan addr e i (.dec deep loc) } :: rest }
  /-- the search does not find the word -/
  | frameMiss {h w f rest addr e deep} {i : Nat} (hf : w.frames = f :: rest)
      (hpc : f.pc = .scan addr e i (.search deep)) (hloc : searchLoc h f.n addr deep = none) :
      WorkerStep h w h { w with frames := { f with pc := .scan addr e (i + 1) .read } :: rest }
  /-- `__sync_fetch_and_sub(&refs[loc], 1)` -/
  | frameDec {h w f rest addr e deep loc} {i : Nat} (hf : w.frames = f :: rest)
      (hpc : f.pc = .scan addr e i (.dec deep loc)) :
      WorkerStep h w { h with refs := Function.update h.refs loc (h.refs loc - 1) }
        { w with frames := { f with pc := .scan addr e i (.reread deep loc) } :: rest }
  /-- `remaining_refs = refs[loc]` is zero and the depth permits: try to claim -/
  | frameGo {h w f rest addr e deep loc} {i : Nat} (hf : w.frames = f :: rest)
      (hpc : f.pc = .scan addr e i (.reread deep loc)) (hgo : 0 < f.maxDepth ∧ h.refs loc = 0) :
      WorkerStep h w { h with assertFailed := h.assertFailed || decide (h.refs loc < 0) }
        { w with frames := { f with pc := .scan addr e i (.cas deep loc) } :: rest }
  /-- `remaining_refs = refs[loc]`, no claim: go on with the next word -/
  | frameStop {h w f rest addr e deep loc} {i : Nat} (hf : w.frames = f :: rest)
      (hpc : f.pc = .scan addr e i (.reread deep loc))
      (hstop : ¬ (0 < f.maxDepth ∧ h.refs loc = 0)) :
      WorkerStep h w { h with assertFailed := h.assertFailed || decide (h.refs loc < 0) }
        { w with frames := { f with pc := .scan addr e (i + 1) .read } :: rest }
  /-- the `BCAS` claims `addrs[loc]`; the recursive call starts -/
  | frameClaim {h w f rest addr e deep loc} {i : Nat} (hf : w.frames = f :: rest)
      (hpc : f.pc = .scan addr e i (.cas deep loc)) (heq : h.addrs loc = deep) :
      WorkerStep h w { h with addrs := Function.update h.addrs loc (setLowBit deep) }
        { w with frames := ⟨loc, f.maxDepth - 1, .entry⟩ ::
          { f with pc := .scan addr e (i + 1) .read } :: rest }
  /-- the `BCAS` fails -/
  | frameLose {h w f rest addr e deep loc} {i : Nat} (hf : w.frames = f :: rest)
      (hpc : f.pc = .scan addr e i (.cas deep loc)) (hne : h.addrs loc ≠ deep) :
      WorkerStep h w h { w with frames := { f with pc := .scan addr e (i + 1) .read } :: rest }

/-- Every step of an unfinished thread is one of the `WorkerStep` actions. -/
theorem stepWorker_spec (h : Heap) (w : Worker) (hw : ¬ w.Finished) :
    WorkerStep h w (stepWorker h w).1 (stepWorker h w).2 := by
  rcases w with ⟨b, e, i, pc, _ | ⟨f, rest⟩⟩
  · cases pc with
    | read =>
      have hi : i < e := by
        by_contra hie; exact hw ⟨rfl, rfl, Nat.le_of_not_lt hie⟩
      simp only [stepWorker, stepRange, if_pos hi]
      exact .rangeRead rfl rfl hi
    | assertRefs addr => exact .rangeAssert rfl rfl
    | test addr =>
      simp only [stepWorker, stepRange]
      split_ifs with hp
      · exact .rangePass rfl rfl hp
      · exact .rangeFail rfl rfl hp
    | cas addr =>
      simp only [stepWorker, stepRange]
      split_ifs with hp
      · exact .rangeClaim rfl rfl hp
      · exact .rangeLose rfl rfl hp
  · rcases hfp : f.pc with _ | ⟨addr, el, j, _ | deep | deep | ⟨deep, loc⟩ | ⟨deep, loc⟩ | ⟨deep, loc⟩⟩
    · simp only [stepWorker, stepFrame, hfp]
      exact .frameEntry rfl hfp
    · simp only [stepWorker, stepFrame, hfp]
      split_ifs with hj hin
      · exact .frameRead rfl hfp hj hin
      · exact .frameSkip rfl hfp hj hin
      · exact .frameFree rfl hfp hj
    · simp only [stepWorker, stepFrame, hfp]
      exact .frameZero rfl hfp
    · simp only [stepWorker, stepFrame, hfp]
      cases hloc : searchLoc h f.n addr deep with
      | none => exact .frameMiss rfl hfp hloc
      | some loc => exact .frameFound rfl hfp hloc
    · simp only [stepWorker, stepFrame, hfp]
      exact .frameDec rfl hfp
    · simp only [stepWorker, stepFrame, hfp]
      split_ifs with hgo
      · exact .frameGo rfl hfp hgo
      · exact .frameStop rfl hfp hgo
    · simp only [stepWorker, stepFrame, hfp]
      split_ifs with hc
      · exact .frameClaim rfl hfp hc
      · exact .frameLose rfl hfp hc

/-! ## What a step leaves alone -/

theorem mask_update_setLowBit {a : Nat → Nat} {k x : Nat} (hx : a k = x) (k' : Nat) :
    ptrMask (Function.update a k (setLowBit x) k') = ptrMask (a k') := by
  rw [Function.update_apply]; split_ifs with h
  · rw [h, hx, ptrMask_setLowBit]
  · rfl

theorem parity_update_setLowBit (a : Nat → Nat) (k x k' : Nat) :
    a k' % 2 ≤ Function.update a k (setLowBit x) k' % 2 := by
  rw [Function.update_apply]; split_ifs
  · rw [setLowBit_mod_two]; omega
  · exact le_rfl

section Fields

variable {h h' : Heap} {w w' : Worker} (hs : WorkerStep h w h' w')
include hs

theorem WorkerStep.nAddrs_eq : h'.nAddrs = h.nAddrs := by cases hs <;> rfl

theorem WorkerStep.allocSz_eq : h'.allocSz = h.allocSz := by cases hs <;> rfl

theorem WorkerStep.window_eq : h'.minVal = h.minVal ∧ h'.maxVal = h.maxVal := by
  cases hs <;> exact ⟨rfl, rfl⟩

theorem WorkerStep.range_eq : w'.rangeBegin = w.rangeBegin ∧ w'.rangeEnd = w.rangeEnd := by
  cases hs <;> exact ⟨rfl, rfl⟩

/-- A step sets at most a collected bit: the masked entries never change. -/
theorem WorkerStep.mask_eq (k : Nat) : ptrMask (h'.addrs k) = ptrMask (h.addrs k) := by
  cases hs with
  | rangeClaim _ _ heq | frameClaim _ _ heq => exact mask_update_setLowBit heq k
  | _ => rfl

/-- A collected bit, once set, stays set. -/
theorem WorkerStep.parity_le (k : Nat) : h.addrs k % 2 ≤ h'.addrs k % 2 := by
  cases hs with
  | rangeClaim | frameClaim => exact parity_update_setLowBit _ _ _ k
  | _ => exact le_rfl

/-- The counts only go down. -/
theorem WorkerStep.refs_le (k : Nat) : h'.refs k ≤ h.refs k := by
  cases hs with
  | frameDec =>
    dsimp only
    rw [Function.update_apply]; split_ifs with hk
    · rw [hk]; omega
    · exact le_rfl
  | _ => exact le_rfl

/-- Only `p[i] = 0` writes memory, and only the word the top frame is at. -/
theorem WorkerStep.mem_cases : h'.mem = h.mem ∨ ∃ f rest addr e deep, ∃ i : Nat,
    w.frames = f :: rest ∧ f.pc = .scan addr e i (.zero deep) ∧
      h'.mem = Function.update h.mem (blockWord (ptrMask addr) i) 0 := by
  cases hs with
  | frameZero hf hpc => exact Or.inr ⟨_, _, _, _, _, _, hf, hpc, rfl⟩
  | _ => exact Or.inl rfl

/-- Only `free(p)` at the end of a frame adds to the freed blocks. -/
theorem WorkerStep.freed_cases : h'.freed = h.freed ∨ ∃ f rest addr e, ∃ i : Nat,
    w.frames = f :: rest ∧ f.pc = .scan addr e i .read ∧ ¬ (i : Int) < e ∧
      h'.freed = h.freed ++ [ptrMask addr] := by
  cases hs with
  | frameFree hf hpc hi => exact Or.inr ⟨_, _, _, _, _, hf, hpc, hi, rfl⟩
  | _ => exact Or.inl rfl

/-- Only `__sync_fetch_and_sub` lowers a count, and only inside a frame. -/
theorem WorkerStep.frame_of_refs_lt {k : Nat} (hk : h'.refs k < h.refs k) :
    ∃ f rest, w.frames = f :: rest := by
  cases hs with
  | frameDec hf _ => exact ⟨_, _, hf⟩
  | _ => exact absurd hk (lt_irrefl _)

/-- Only a successful `BCAS` sets a collected bit: in `address_range` on its own index, or in
`unref_addr` on the slot it found. -/
theorem WorkerStep.newly_odd {k : Nat} (heven : h.addrs k % 2 = 0) (hodd : h'.addrs k % 2 = 1) :
    (w.frames = [] ∧ ∃ addr, w.pc = .cas addr ∧ w.i = k) ∨
      ∃ f rest addr e deep, ∃ i : Nat, w.frames = f :: rest ∧ f.pc = .scan addr e i (.cas deep k) := by
  cases hs with
  | @rangeClaim addr hf hpc _ =>
    left; refine ⟨hf, addr, hpc, ?_⟩
    by_contra hne
    simp only [Function.update_noteq (Ne.symm hne)] at hodd; omega
  | @frameClaim f rest addr e deep loc i hf hpc _ =>
    right; refine ⟨f, rest, addr, e, deep, i, hf, ?_⟩
    by_cases hne : loc = k
    · rw [← hne]; exact hpc
    · simp only [Function.update_noteq (Ne.symm hne)] at hodd; omega
  | _ => (try dsimp only at hodd); omega

/-- Nothing is taken out of the list of freed blocks. -/
theorem WorkerStep.freed_mono {v : Nat} (hv : v ∈ h.freed) : v ∈ h'.freed := by
  cases hs with
  | frameFree => exact List.mem_append_left _ hv
  | _ => exact hv

end Fields

end ForkScan
