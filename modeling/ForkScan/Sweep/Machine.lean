import Mathlib

/-!
# ForkScan — the reference-count sweep as an interleaving machine

The parent's half of a collection cycle (`garbage_collect` after the child has written its
counts): the `do { find_unreferenced_nodes } while (savings > 0 && n_addrs > 0)` loop. Each
pass of `find_unreferenced_nodes` splits `[0, n_addrs)` into worker ranges, runs one
`address_range` worker per range, joins them and compacts the arrays.

The workers share the dataset and the candidate blocks. Every shared access a worker makes
is one step of the machine, so the steps of different workers interleave freely:

* `address_range` at index `i`: the read of `addrs[i]`, the read of `refs[i]` for its
  assertion, the read of `refs[i]` for the test, and the claiming `BCAS` on `addrs[i]`.
* `unref_addr(n, max_depth)`: the read of `addrs[n]`, then per word `p[i]` of the block the
  read of the word, its zeroing, the search, the `__sync_fetch_and_sub` on `refs[loc]`, the
  re-read of `refs[loc]`, and the claiming `BCAS` on `addrs[loc]`; last the `free(p)`.

A worker is a range cursor plus a stack of `unref_addr` frames, innermost first: the
recursive call of `unref_addr` pushes a frame, the `free` at its end pops it. A failed
`assert` does not stop the machine (the build with `NDEBUG`); it sets `assertFailed`,
which records that a debug build would have aborted there.
-/

namespace ForkScan

/-! ## Words and the collected bit -/

/-- `sizeof(size_t)`. -/
def WORD_SIZE : Nat := 8

/-- Modelled from the spec: `PTR_MASK` (its header is not among the sources) clears the low
bit of an address, the collected flag. -/
def ptrMask (x : Nat) : Nat := x - x % 2

/-- `x | 1`: the address with its collected bit set. -/
def setLowBit (x : Nat) : Nat := ptrMask x + 1

/-- The byte address of `p[i]` for `size_t *p`. -/
def blockWord (p i : Nat) : Nat := p + WORD_SIZE * i

/-- `(int)` of an unsigned value: reduction modulo `2^32` read as two's complement. -/
def toInt32 (q : Nat) : Int :=
  if q % 2 ^ 32 < 2 ^ 31 then (q % 2 ^ 32 : Nat) else (q % 2 ^ 32 : Nat) - 2 ^ 32

/-- `int elements = alloc_sz[n] / sizeof(size_t)`: the `int` is converted to `size_t`, divided,
and the quotient converted back to `int`. -/
def elementsOf (allocSz : Int) : Int :=
  toInt32 ((allocSz % 2 ^ 64).toNat / WORD_SIZE)

/-- Modelled from the spec: `binary_search(w, addrs, lo, hi)` followed by `is_ref` (their
header is not among the sources). Together they yield the index in `[lo, hi)` whose masked
entry is `w`, when there is one; `none` stands for an index `is_ref` rejects. -/
def binarySearch (addrs : Nat → Nat) (lo hi w : Nat) : Option Nat :=
  (List.range' lo (hi - lo)).find? fun k => ptrMask (addrs k) = w

/-! ## The shared state -/

/-- The fields of `gc_data_t` and `unref_config_t` the sweep reads and writes, the words of
the candidate blocks by byte address, and the sequence of arguments passed to `free`. -/
structure Heap where
  addrs : Nat → Nat
  refs : Nat → Int
  allocSz : Nat → Int
  nAddrs : Nat
  mem : Nat → Nat
  minVal : Nat
  maxVal : Nat
  freed : List Nat
  assertFailed : Bool

/-- Where `unref_addr` stands inside the body of its loop over the words of the block. -/
inductive WordPc where
  /-- the loop test `i < elements` and the read of `p[i]` -/
  | read
  /-- `p[i] = 0` for a word `deep` inside `[min_val, max_val]` -/
  | zero (deep : Nat)
  /-- `binary_search` and `is_ref` for `deep` -/
  | search (deep : Nat)
  /-- `__sync_fetch_and_sub(&refs[loc], 1)` -/
  | dec (deep loc : Nat)
  /-- `remaining_refs = refs[loc]` -/
  | reread (deep loc : Nat)
  /-- `BCAS(&addrs[loc], deep, deep | 1)` -/
  | cas (deep loc : Nat)
  deriving DecidableEq, Repr

/-- The program counter of one `unref_addr` frame. -/
inductive FramePc where
  /-- before `addr = addrs[n]` -/
  | entry
  /-- in the loop, with the locals `addr`, `elements` and `i` -/
  | scan (addr : Nat) (elements : Int) (i : Nat) (pc : WordPc)
  deriving DecidableEq, Repr

/-- An activation of `unref_addr(unref_config, n, max_depth)`. -/
structure Frame where
  n : Nat
  maxDepth : Nat
  pc : FramePc
  deriving DecidableEq, Repr

/-- Where `address_range` stands at index `i`. -/
inductive RangePc where
  /-- the loop test `i < range_end` and `addr = addrs[i]` -/
  | read
  /-- `assert(refs[i] >= 0)` -/
  | assertRefs (addr : Nat)
  /-- `0 == (addr & 1) && refs[i] == 0` -/
  | test (addr : Nat)
  /-- `BCAS(&addrs[i], addr, addr | 1)` -/
  | cas (addr : Nat)
  deriving DecidableEq, Repr

/-- One sweep thread: the cursor of `address_range` and the `unref_addr` call stack. -/
structure Worker where
  rangeBegin : Nat
  rangeEnd : Nat
  i : Nat
  pc : RangePc
  frames : List Frame
  deriving DecidableEq, Repr

/-- The thread has returned from `address_range`. -/
def Worker.Finished (w : Worker) : Prop :=
  w.frames = [] ∧ w.pc = .read ∧ w.rangeEnd ≤ w.i

instance (w : Worker) : Decidable w.Finished :=
  inferInstanceAs (Decidable (_ ∧ _ ∧ _))

/-! ## `unref_addr` -/

/-- `loc` in `unref_addr`: the search runs below `n` for words below `addr`, from `n` up
otherwise. -/
def searchLoc (h : Heap) (n addr deep : Nat) : Option Nat :=
  if deep < addr then binarySearch h.addrs 0 n deep else binarySearch h.addrs n h.nAddrs deep

/-- What a frame does after its step. -/
inductive FrameNext where
  /-- it continues as the given frame -/
  | stay (f : Frame)
  /-- it continues as the first frame after the recursive call to the second returns -/
  | call (f g : Frame)
  /-- it has freed its block and returns -/
  | done

/-- One step of the innermost `unref_addr` frame. -/
def stepFrame (h : Heap) (f : Frame) : Heap × FrameNext :=
  match f.pc with
  | .entry =>
    let addr := h.addrs f.n
    ({ h with assertFailed := h.assertFailed || decide (addr % 2 = 0) },
      .stay { f with pc := .scan addr (elementsOf (h.allocSz f.n)) 0 .read })
  | .scan addr elements i .read =>
    if (i : Int) < elements then
      let deep := ptrMask (h.mem (blockWord (ptrMask addr) i))
      if deep ≥ h.minVal ∧ deep ≤ h.maxVal then
        (h, .stay { f with pc := .scan addr elements i (.zero deep) })
      else (h, .stay { f with pc := .scan addr elements (i + 1) .read })
    else ({ h with freed := h.freed ++ [ptrMask addr] }, .done)
  | .scan addr elements i (.zero deep) =>
    ({ h with mem := Function.update h.mem (blockWord (ptrMask addr) i) 0 },
      .stay { f with pc := .scan addr elements i (.search deep) })
  | .scan addr elements i (.search deep) =>
    match searchLoc h f.n addr deep with
    | some loc => (h, .stay { f with pc := .scan addr elements i (.dec deep loc) })
    | none => (h, .stay { f with pc := .scan addr elements (i + 1) .read })
  | .scan addr elements i (.dec deep loc) =>
    ({ h with refs := Function.update h.refs loc (h.refs loc - 1) },
      .stay { f with pc := .scan addr elements i (.reread deep loc) })
  | .scan addr elements i (.reread deep loc) =>
    let remaining := h.refs loc
    ({ h with assertFailed := h.assertFailed || decide (remaining < 0) },
      .stay (if 0 < f.maxDepth ∧ remaining = 0
        then { f with pc := .scan addr elements i (.cas deep loc) }
        else { f with pc := .scan addr elements (i + 1) .read }))
  | .scan addr elements i (.cas deep loc) =>
    if h.addrs loc = deep then
      ({ h with addrs := Function.update h.addrs loc (setLowBit deep) },
        .call { f with pc := .scan addr elements (i + 1) .read } ⟨loc, f.maxDepth - 1, .entry⟩)
    else (h, .stay { f with pc := .scan addr elements (i + 1) .read })

/-! ## `address_range` -/

/-- One step of `address_range` when no `unref_addr` call is active. -/
def stepRange (h : Heap) (w : Worker) : Heap × Worker :=
  match w.pc with
  | .read =>
    if w.i < w.rangeEnd then
      let addr := h.addrs w.i
      ({ h with assertFailed := h.assertFailed || decide (addr = 0) }, { w with pc := .assertRefs addr })
    else (h, w)
  | .assertRefs addr =>
    ({ h with assertFailed := h.assertFailed || decide (h.refs w.i < 0) }, { w with pc := .test addr })
  | .test addr =>
    if addr % 2 = 0 ∧ h.refs w.i = 0 then (h, { w with pc := .cas addr })
    else (h, { w with i := w.i + 1, pc := .read })
  | .cas addr =>
    if h.addrs w.i = addr then
      ({ h with addrs := Function.update h.addrs w.i (setLowBit addr) },
        { w with i := w.i + 1, pc := .read, frames := [⟨w.i, 30, .entry⟩] })
    else (h, { w with i := w.i + 1, pc := .read })

/-- One step of a sweep thread: its innermost frame, or its range loop when no call is
active. -/
def stepWorker (h : Heap) (w : Worker) : Heap × Worker :=
  match w.frames with
  | f :: rest =>
    match stepFrame h f with
    | (h', .stay f') => (h', { w with frames := f' :: rest })
    | (h', .call f' g) => (h', { w with frames := g :: f' :: rest })
    | (h', .done) => (h', { w with frames := rest })
  | [] => stepRange h w

/-! ## `find_unreferenced_nodes` and the loop of `garbage_collect` -/

/-- `MAX_THREADS`. -/
def MAX_THREADS : Nat := 80

/-- `ADDRS_PER_THREAD`. -/
def ADDRS_PER_THREAD : Nat := 128 * 1024

/-- `thread_count` for `n_addrs = n`. -/
def threadCount (n : Nat) : Nat :=
  if n / ADDRS_PER_THREAD + 1 > MAX_THREADS then MAX_THREADS else n / ADDRS_PER_THREAD + 1

/-- `addrs_per_thread` for `n_addrs = n`. -/
def addrsPerThread (n : Nat) : Nat := n / threadCount n

/-- `ara[w].range_begin` and `ara[w].range_end`: the last range is stretched to `n_addrs`. -/
def rangeOf (n w : Nat) : Nat × Nat :=
  (w * addrsPerThread n, if w = threadCount n - 1 then n else (w + 1) * addrsPerThread n)

/-- Thread `w` as `find_unreferenced_nodes` starts it on `address_range`. -/
def rangeWorker (n w : Nat) : Worker :=
  ⟨(rangeOf n w).1, (rangeOf n w).2, (rangeOf n w).1, .read, []⟩

/-- The sweep: the shared state, the threads of the current pass, and whether the loop of
`garbage_collect` is still running. -/
structure Sweep where
  heap : Heap
  nWorkers : Nat
  workers : Nat → Worker
  running : Bool

/-- The start of a pass of `find_unreferenced_nodes`: `min_val` and `max_val` from the ends of
the array, and one thread per range. -/
def startPass (h : Heap) : Sweep where
  heap := { h with minVal := h.addrs 0, maxVal := h.addrs (h.nAddrs - 1) }
  nWorkers := threadCount h.nAddrs
  workers := rangeWorker h.nAddrs
  running := true

/-- The compaction loop of `find_unreferenced_nodes` from index `i`, with `write_position`
and `savings` so far and `k` iterations left: entries with the low bit set are dropped, the
others packed to the left with their `refs` and `alloc_sz`. -/
def compactFrom (h : Heap) (i writePosition savings : Nat) : Nat → Heap × Nat
  | 0 => ({ h with nAddrs := writePosition }, savings)
  | k + 1 =>
    if h.addrs i % 2 = 1 then compactFrom h (i + 1) writePosition (savings + 1) k
    else
      let h' := if writePosition ≠ i then
          { h with addrs := Function.update h.addrs writePosition (h.addrs i),
                   refs := Function.update h.refs writePosition (h.refs i),
                   allocSz := Function.update h.allocSz writePosition (h.allocSz i) }
        else h
      compactFrom h' (i + 1) (writePosition + 1) savings k

/-- The compaction after the join, `for (i = 0; i < n_addrs; ++i)`; returns the compacted
state and `savings`. -/
def compact (h : Heap) : Heap × Nat := compactFrom h 0 0 0 h.nAddrs

/-- Run one step of thread `w`. -/
def Sweep.runWorker (s : Sweep) (w : Nat) : Sweep :=
  let r := stepWorker s.heap (s.workers w)
  { s with heap := r.1, workers := Function.update s.workers w r.2 }

/-- After the join: compact, then either start the next pass or leave the loop. -/
def Sweep.afterJoin (s : Sweep) : Sweep :=
  let r := compact s.heap
  if r.2 > 0 ∧ r.1.nAddrs > 0 then startPass r.1
  else { heap := r.1, nWorkers := 0, workers := fun _ => ⟨0, 0, 0, .read, []⟩, running := false }

/-- One step of the sweep: a step of any unfinished thread, or the join once all threads of
the pass have returned. -/
inductive Sweep.Step : Sweep → Sweep → Prop
  | worker (s : Sweep) (w : Nat) (hw : w < s.nWorkers) (hrun : s.running = true)
      (hbusy : ¬ (s.workers w).Finished) : Sweep.Step s (s.runWorker w)
  | join (s : Sweep) (hrun : s.running = true)
      (hdone : ∀ w < s.nWorkers, (s.workers w).Finished) : Sweep.Step s s.afterJoin

/-- The aggregated dataset the sweep starts from: the sorted addresses, the counts the child
scanner wrote into `refs`, the block sizes, and the memory holding the candidate blocks. -/
structure Dataset where
  n : Nat
  addrs : Nat → Nat
  refs : Nat → Int
  allocSz : Nat → Int
  mem : Nat → Nat

/-- The shared state before the first pass. -/
def Dataset.toHeap (D : Dataset) : Heap :=
  ⟨D.addrs, D.refs, D.allocSz, D.n, D.mem, 0, 0, [], false⟩

/-- The first pass of the `do ... while` loop. -/
def Sweep.init (D : Dataset) : Sweep := startPass D.toHeap

/-- The states the sweep can reach from `D`, under every interleaving of its threads. -/
def Sweep.Reachable (D : Dataset) (s : Sweep) : Prop :=
  Relation.ReflTransGen Sweep.Step (Sweep.init D) s

end ForkScan
