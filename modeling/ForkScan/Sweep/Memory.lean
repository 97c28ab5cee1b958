import ForkScan.Sweep.Counting

/-!
# ForkScan — the candidate blocks during the sweep

The second invariant of the sweep, `MemInv`, is about the memory of the candidate blocks:
the sweep only ever writes zeros (`p[i] = 0`), only into the block of a frame that holds
its slot, and a frame walks its block from the first word to the last. So:

* every word is the one the sweep started from, or zero;
* the block of a candidate nobody has claimed is untouched;
* no word a frame has passed, and no word of a freed block, still points at a candidate of
  the array (it was zeroed, or it lies outside `[min_val, max_val]`).

The last fact is what makes the sweep complete: when a block is freed, all its references to
candidates have been taken out. `FrameCounted` collects what a frame's locals say about the
heap; `MemInv.step` shows every step keeps the invariant, `MemInv.afterJoin` the join.
-/

namespace ForkScan

/-! ## What a frame's locals say about the heap -/

/-- How many words beyond the first `i` a frame at word `i` is done with: `p[i]` is done
once it has been zeroed. -/
def WordPc.passed : WordPc → Nat
  | .read | .zero _ => 0
  | _ => 1

/-- A word about to be zeroed still holds the value read, and a `BCAS` is only tried on a
count read as zero. -/
def WordCounted (h : Heap) (addr i : Nat) : WordPc → Prop
  | .zero deep => deep = ptrMask (h.mem (blockWord (ptrMask addr) i))
  | .cas _ loc => h.refs loc ≤ 0
  | _ => True

/-- A frame at word `i` of its block: `elements` is computed from the block's size, `i` stays
in `[0, elements]` (and below it while the word is worked on), and no word passed still points
at a candidate of the array. -/
def FrameCounted (h : Heap) (f : Frame) : Prop :=
  match f.pc with
  | .entry => True
  | .scan addr e i pc => e = elementsOf (h.allocSz f.n) ∧ (i : Int) ≤ e ∧
      (pc ≠ .read → (i : Int) < e) ∧ WordCounted h addr i pc ∧
      ∀ m < i + pc.passed, ∀ k < h.nAddrs,
        ptrMask (h.mem (blockWord (ptrMask addr) m)) ≠ ptrMask (h.addrs k)

theorem passed_lt {pc : WordPc} {i m : Nat} {e : Int} (hle : (i : Int) ≤ e)
    (hlt : pc ≠ .read → (i : Int) < e) (hm : m < i + pc.passed) : (m : Int) < e := by
  cases pc with
  | read | zero => simp only [WordPc.passed] at hm; omega
  | _ => have := hlt (by simp); simp only [WordPc.passed] at hm; omega

/-- A frame's facts survive a step that keeps sizes and masks, only lowers counts, and
leaves the frame's own block alone. -/
theorem FrameCounted.stable {h h' : Heap} {g : Frame} (hg : FrameCounted h g)
    (hsz : h'.allocSz = h.allocSz) (hn : h'.nAddrs = h.nAddrs)
    (hmask : ∀ k, ptrMask (h'.addrs k) = ptrMask (h.addrs k))
    (hrefs : ∀ k, h'.refs k ≤ h.refs k)
    (hmem : ∀ addr e i pc, g.pc = .scan addr e i pc → ∀ m : Nat, (m : Int) < e →
      h'.mem (blockWord (ptrMask addr) m) = h.mem (blockWord (ptrMask addr) m)) :
    FrameCounted h' g := by
  unfold FrameCounted at hg ⊢
  rcases hpc : g.pc with _ | ⟨addr, e, i, pc⟩
  · trivial
  · rw [hpc] at hg
    obtain ⟨hsz', hle, hlt, hword, hpassed⟩ := hg
    have hm := hmem addr e i pc hpc
    refine ⟨by rw [hsz]; exact hsz', hle, hlt, ?_, fun m hmi k hk => ?_⟩
    · cases pc with
      | zero deep =>
        simp only [WordCounted] at hword ⊢; rw [hm i (hlt (by simp))]; exact hword
      | cas deep loc => exact le_trans (hrefs loc) hword
      | _ => trivial
    · rw [hm m (passed_lt hle hlt hmi), hmask]; exact hpassed m hmi k (hn ▸ hk)

/-- A frame that moves on within words it has already read keeps its facts. -/
theorem FrameCounted.advance {h h' : Heap} {f : Frame} {addr i i' : Nat} {e : Int}
    {pc pc' : WordPc} (hold : FrameCounted h f) (hpc : f.pc = .scan addr e i pc)
    (hsz : h'.allocSz = h.allocSz) (hn : h'.nAddrs = h.nAddrs)
    (hmask : ∀ k, ptrMask (h'.addrs k) = ptrMask (h.addrs k)) (hmem : h'.mem = h.mem)
    (hle : (i' : Int) ≤ e) (hlt : pc' ≠ .read → (i' : Int) < e)
    (hword : WordCounted h' addr i' pc') (hpassed : i' + pc'.passed ≤ i + pc.passed) :
    FrameCounted h' { f with pc := .scan addr e i' pc' } := by
  unfold FrameCounted at hold ⊢
  rw [hpc] at hold
  refine ⟨by rw [hsz]; exact hold.1, hle, hlt, hword, fun m hm k hk => ?_⟩
  rw [hmem, hmask]; exact hold.2.2.2.2 m (by omega) k (hn ▸ hk)

/-- The candidate whose slot a frame holds is claimed. -/
theorem Owned.claimed_of_held {D : Dataset} {s : Sweep} (hown : Owned D s) {f : Frame}
    (hf : s.HasFrame f) {j : Nat} (hj : ptrMask (s.heap.addrs f.n) = D.addrs j) :
    s.Claimed D j :=
  Or.inr ⟨f.n, (hown.held f hf).1.1, hj, (hown.held f hf).1.2.1⟩

/-! ## The invariant -/

/-- The memory invariant of the sweep started from `D`. -/
structure MemInv (D : Dataset) (s : Sweep) : Prop where
  sizes : ∀ k < s.heap.nAddrs, ∀ j < D.n, D.addrs j = ptrMask (s.heap.addrs k) →
    s.heap.allocSz k = D.allocSz j
  window : s.running = true → ∀ k < s.heap.nAddrs,
    s.heap.minVal ≤ ptrMask (s.heap.addrs k) ∧ ptrMask (s.heap.addrs k) ≤ s.heap.maxVal
  zero_or_orig : ∀ a, s.heap.mem a = D.mem a ∨ s.heap.mem a = 0
  untouched : ∀ j < D.n, ¬ s.Claimed D j → ∀ m < D.elems j,
    s.heap.mem (blockWord (D.addrs j) m) = D.mem (blockWord (D.addrs j) m)
  freed_clear : ∀ j < D.n, D.addrs j ∈ s.heap.freed → ∀ m < D.elems j, ∀ k < s.heap.nAddrs,
    ptrMask (s.heap.mem (blockWord (D.addrs j) m)) ≠ ptrMask (s.heap.addrs k)
  frames : ∀ f, s.HasFrame f → FrameCounted s.heap f

/-- Claims are never undone: a step keeps every claimed candidate claimed. -/
theorem Sweep.claimed_step {D : Dataset} {s : Sweep} {w : Nat} {h' : Heap} {wk' : Worker}
    (hstep : WorkerStep s.heap (s.workers w) h' wk') {j : Nat} (hc : s.Claimed D j) :
    (s.setWorker h' w wk').Claimed D j := by
  rcases hc with hfr | ⟨k, hk, hm, hodd⟩
  · exact Or.inl (hstep.freed_mono hfr)
  · refine Or.inr ⟨k, by rw [Sweep.setWorker_heap, hstep.nAddrs_eq]; exact hk,
      by rw [Sweep.setWorker_heap, hstep.mask_eq]; exact hm, ?_⟩
    have := hstep.parity_le k
    simp only [Sweep.setWorker_heap]; omega

namespace MemInv

variable {D : Dataset} {s : Sweep} (hD : SweepReady D) (hown : Owned D s) (hmi : MemInv D s)
include hD hown hmi

/-- The block a frame scans is a candidate's block, and its `elements` that candidate's. -/
theorem scan_block {f : Frame} (hf : s.HasFrame f) {addr i : Nat} {e : Int} {pc : WordPc}
    (hpc : f.pc = .scan addr e i pc) :
    ∃ j < D.n, ptrMask (s.heap.addrs f.n) = D.addrs j ∧ ptrMask addr = D.addrs j ∧
      e = elementsOf (D.allocSz j) ∧ 0 ≤ e := by
  obtain ⟨⟨hn, -, -⟩, hown'⟩ := hown.held f hf
  obtain ⟨j, hj, hmj⟩ := hown.masks f.n hn
  have hfc := hmi.frames f hf
  unfold FrameOwned at hown'
  unfold FrameCounted at hfc
  rw [hpc] at hown' hfc
  have he : e = elementsOf (D.allocSz j) := by rw [hfc.1, hmi.sizes f.n hn j hj hmj.symm]
  refine ⟨j, hj, hmj, by rw [hown'.1, hmj], he, ?_⟩
  rw [he, hD.elementsOf_eq hj]
  exact Int.ediv_nonneg (le_of_lt (hD.size_pos j hj)) (by decide)

/-- After a step, a frame of another slot than the stepping frame `f` still reads its block
as before. -/
theorem mem_other {w : Nat} {h' : Heap} {wk' : Worker}
    (hstep : WorkerStep s.heap (s.workers w) h' wk') (hw : w < s.nWorkers) {f : Frame}
    {rest : List Frame} (hf : (s.workers w).frames = f :: rest) {g : Frame} (hg : s.HasFrame g)
    (hne : g.n ≠ f.n) {addr i : Nat} {e : Int} {pc : WordPc} (hpc : g.pc = .scan addr e i pc)
    (m : Nat) (hm : (m : Int) < e) :
    h'.mem (blockWord (ptrMask addr) m) = s.heap.mem (blockWord (ptrMask addr) m) := by
  rcases hstep.mem_cases with heq | ⟨f₀, rest₀, addr₀, e₀, deep, i₀, hf₀, hpc₀, heq⟩
  · rw [heq]
  · rw [hf] at hf₀
    obtain ⟨rfl, rfl⟩ := List.cons.inj hf₀
    have hfm : s.HasFrame f := ⟨w, hw, hf ▸ List.mem_cons_self f rest⟩
    obtain ⟨jg, hjg, hmg, hag, heg, -⟩ := scan_block hD hown hmi hg hpc
    obtain ⟨jf, hjf, hmf, haf, hef, -⟩ := scan_block hD hown hmi hfm hpc₀
    have hlt : (i₀ : Int) < e₀ := by
      have := hmi.frames f hfm; unfold FrameCounted at this; rw [hpc₀] at this
      exact this.2.2.1 (by simp)
    have hjne : jg ≠ jf := fun h => hown.mask_ne (hown.held g hg).1.1 (hown.held f hfm).1.1 hne
      (by rw [hmg, hmf, h])
    rw [heq, haf, hag, Function.update_noteq]
    refine hD.blockWord_ne hjg hjf hjne ?_ ?_
    · simp only [Dataset.elems]; rw [← heg]; omega
    · simp only [Dataset.elems]; rw [← hef]; omega

omit hD hown in
theorem top_counted {w : Nat} (hw : w < s.nWorkers) {f : Frame} {rest : List Frame}
    (hf : (s.workers w).frames = f :: rest) : FrameCounted s.heap f :=
  hmi.frames f ⟨w, hw, hf ▸ List.mem_cons_self f rest⟩

/-- The frames after a step of a frame keep their facts, given the new ones. -/
theorem frames_top {w : Nat} {h' : Heap} {wk' : Worker}
    (hstep : WorkerStep s.heap (s.workers w) h' wk') (hw : w < s.nWorkers) {f : Frame}
    {rest : List Frame} (hf : (s.workers w).frames = f :: rest) {l : List Frame}
    (hwk : wk'.frames = l ++ rest) (hnew : ∀ g ∈ l, FrameCounted h' g) :
    ∀ g, (s.setWorker h' w wk').HasFrame g → FrameCounted (s.setWorker h' w wk').heap g := by
  intro g hg
  rcases Sweep.hasFrame_top hw hf (hown.owners_le f.n) hwk hg with hg | ⟨hg, hne⟩
  · exact hnew g hg
  · exact (hmi.frames g hg).stable hstep.allocSz_eq hstep.nAddrs_eq hstep.mask_eq
      hstep.refs_le fun _ _ _ _ hpc m hm => mem_other hD hown hmi hstep hw hf hg hne hpc m hm

omit hD hown in
/-- The frames after a step of a thread outside its frames keep their facts. -/
theorem frames_range {w : Nat} {h' : Heap} {wk' : Worker}
    (hstep : WorkerStep s.heap (s.workers w) h' wk') (hw : w < s.nWorkers)
    (hf : (s.workers w).frames = []) (hnew : ∀ g ∈ wk'.frames, FrameCounted h' g) :
    ∀ g, (s.setWorker h' w wk').HasFrame g → FrameCounted (s.setWorker h' w wk').heap g := by
  have hmem : h'.mem = s.heap.mem := by
    rcases hstep.mem_cases with heq | ⟨_, _, _, _, _, _, hf₀, -⟩
    · exact heq
    · rw [hf] at hf₀; exact absurd hf₀ (List.cons_ne_nil _ _).symm
  intro g hg
  rcases Sweep.hasFrame_range hw hg with hg | hg
  · exact hnew g hg
  · exact (hmi.frames g hg).stable hstep.allocSz_eq hstep.nAddrs_eq hstep.mask_eq
      hstep.refs_le fun _ _ _ _ _ _ _ => by rw [Sweep.setWorker_heap, hmem]

omit hmi in
theorem slot_mask_pos {k : Nat} (hk : k < s.heap.nAddrs) : 0 < ptrMask (s.heap.addrs k) := by
  obtain ⟨j, hj, hmj⟩ := hown.masks k hk
  rw [hmj]; exact hD.nonzero j hj

theorem elementsOf_slot_nonneg {k : Nat} (hk : k < s.heap.nAddrs) :
    0 ≤ elementsOf (s.heap.allocSz k) := by
  obtain ⟨j, hj, hmj⟩ := hown.masks k hk
  rw [hmi.sizes k hk j hj hmj.symm, hD.elementsOf_eq hj]
  exact Int.ediv_nonneg (le_of_lt (hD.size_pos j hj)) (by decide)

omit hD hown hmi in
/-- The facts of a frame at the step that ends its word `i`: it moves on to `i + 1`. -/
theorem next_word {f : Frame} {addr i : Nat} {e : Int} {pc : WordPc} {h' : Heap}
    (hold : FrameCounted s.heap f) (hpc : f.pc = .scan addr e i pc) (hpass : pc.passed = 1)
    (hsz : h'.allocSz = s.heap.allocSz) (hn : h'.nAddrs = s.heap.nAddrs)
    (hmask : ∀ k, ptrMask (h'.addrs k) = ptrMask (s.heap.addrs k)) (hmem : h'.mem = s.heap.mem) :
    FrameCounted h' { f with pc := .scan addr e (i + 1) .read } := by
  have hlt : (i : Int) < e := by
    unfold FrameCounted at hold; rw [hpc] at hold
    exact hold.2.2.1 fun h => by rw [h] at hpass; exact absurd hpass (by decide)
  refine hold.advance hpc hsz hn hmask hmem ?_ (fun h => absurd rfl h) trivial ?_
  · push_cast; omega
  · rw [hpass]; exact le_rfl

omit hD hown hmi in
/-- The facts of a frame kept at the same word in a phase that has already zeroed it. -/
theorem same_word {f : Frame} {addr i : Nat} {e : Int} {pc pc' : WordPc} {h' : Heap}
    (hold : FrameCounted s.heap f) (hpc : f.pc = .scan addr e i pc)
    (hpass : pc'.passed ≤ pc.passed) (hread : pc ≠ .read)
    (hsz : h'.allocSz = s.heap.allocSz) (hn : h'.nAddrs = s.heap.nAddrs)
    (hmask : ∀ k, ptrMask (h'.addrs k) = ptrMask (s.heap.addrs k)) (hmem : h'.mem = s.heap.mem)
    (hword : WordCounted h' addr i pc') :
    FrameCounted h' { f with pc := .scan addr e i pc' } := by
  have hlt : (i : Int) < e := by
    unfold FrameCounted at hold; rw [hpc] at hold; exact hold.2.2.1 hread
  exact hold.advance hpc hsz hn hmask hmem (by omega) (fun _ => hlt) hword (by omega)

/-- The words of a block no frame holds are not written by a step. -/
theorem mem_of_unheld {w : Nat} (hw : w < s.nWorkers) {h' : Heap} {wk' : Worker}
    (hstep : WorkerStep s.heap (s.workers w) h' wk') {j : Nat} (hj : j < D.n)
    (hfree : ∀ f, s.HasFrame f → ptrMask (s.heap.addrs f.n) ≠ D.addrs j) {m : Nat}
    (hm : m < D.elems j) :
    h'.mem (blockWord (D.addrs j) m) = s.heap.mem (blockWord (D.addrs j) m) := by
  rcases hstep.mem_cases with heq | ⟨f, rest, addr, e, deep, i, hf, hpc, heq⟩
  · rw [heq]
  · have hfm : s.HasFrame f := ⟨w, hw, hf ▸ List.mem_cons_self f rest⟩
    obtain ⟨jf, hjf, hmf, haf, hef, -⟩ := scan_block hD hown hmi hfm hpc
    have hlt : (i : Int) < e := by
      have := hmi.top_counted hw hf; unfold FrameCounted at this; rw [hpc] at this
      exact this.2.2.1 (by simp)
    have hne : j ≠ jf := fun h => hfree f hfm (by rw [hmf, h])
    rw [heq, haf, Function.update_noteq (hD.blockWord_ne hj hjf hne hm
      (by simp only [Dataset.elems]; rw [← hef]; omega))]

/-- A step keeps the freed blocks clear of pointers into the array: the block it frees has had
all its words passed by its frame. -/
theorem freed_clear_step {w : Nat} (hw : w < s.nWorkers) {h' : Heap} {wk' : Worker}
    (hstep : WorkerStep s.heap (s.workers w) h' wk') :
    ∀ j < D.n, D.addrs j ∈ (s.setWorker h' w wk').heap.freed → ∀ m < D.elems j,
      ∀ k < (s.setWorker h' w wk').heap.nAddrs,
        ptrMask ((s.setWorker h' w wk').heap.mem (blockWord (D.addrs j) m)) ≠
          ptrMask ((s.setWorker h' w wk').heap.addrs k) := by
  intro j hj hjf' m hm k hk
  have hn := hstep.nAddrs_eq
  have hmask := hstep.mask_eq
  simp only [Sweep.setWorker_heap, hmask, hn] at hjf' hk ⊢
  -- a freed block is held by no frame
  have hnot : D.addrs j ∈ s.heap.freed → ∀ f, s.HasFrame f →
      ptrMask (s.heap.addrs f.n) ≠ D.addrs j :=
    fun hfr f hf hfj => (hown.held f hf).1.2.2 (hfj ▸ hfr)
  rcases hstep.freed_cases with hfr | ⟨f, rest, addr, e, i, hf, hpc, hi, hfr⟩
  · rw [hfr] at hjf'
    rw [mem_of_unheld hD hown hmi hw hstep hj (hnot hjf') hm]
    exact hmi.freed_clear j hj hjf' m hm k hk
  · rw [hfr, List.mem_append, List.mem_singleton] at hjf'
    rcases hjf' with hold | hnew
    · rw [mem_of_unheld hD hown hmi hw hstep hj (hnot hold) hm]
      exact hmi.freed_clear j hj hold m hm k hk
    · -- the block freed now: its frame has passed all its words
      have hfm : s.HasFrame f := ⟨w, hw, hf ▸ List.mem_cons_self f rest⟩
      obtain ⟨jf, hjf, -, haf, hef, -⟩ := scan_block hD hown hmi hfm hpc
      obtain rfl := hD.addrs_inj hj hjf (hnew.trans haf)
      have hmeq : h'.mem = s.heap.mem := by
        rcases hstep.mem_cases with heq | ⟨f₀, _, _, _, _, _, hf₀, hpc₀, -⟩
        · exact heq
        · rw [hf] at hf₀; obtain ⟨rfl, -⟩ := List.cons.inj hf₀
          rw [hpc] at hpc₀; cases hpc₀
      have hold := hmi.top_counted hw hf
      unfold FrameCounted at hold; rw [hpc] at hold
      rw [hmeq, hnew]
      refine hold.2.2.2.2 m ?_ k hk
      simp only [Dataset.elems] at hm; simp only [WordPc.passed]; omega

/-- A step keeps every frame's facts about the words it has read. -/
theorem frames_step (hrun : s.running = true) {w : Nat} (hw : w < s.nWorkers) {h' : Heap}
    {wk' : Worker} (hstep : WorkerStep s.heap (s.workers w) h' wk') :
    ∀ f, (s.setWorker h' w wk').HasFrame f → FrameCounted (s.setWorker h' w wk').heap f := by
  have hs := hstep
  cases hs with
  | rangeRead hf _ _ | rangeAssert hf _ | rangePass hf _ _ | rangeFail hf _ _
  | rangeLose hf _ _ =>
    exact frames_range hmi hstep hw hf fun g hg => by simp [hf] at hg
  | rangeClaim hf _ _ =>
    exact frames_range hmi hstep hw hf fun g hg => by
      rw [List.mem_singleton.mp hg]; exact trivial
  | frameEntry hf hpc =>
    refine frames_top hD hown hmi hstep hw hf (l := [_]) rfl fun g hg => ?_
    rw [List.mem_singleton.mp hg]
    exact ⟨rfl, elementsOf_slot_nonneg hD hown hmi (hown.top_held hw hf).1.1,
      fun h => absurd rfl h, trivial, fun m hm => absurd hm (Nat.not_lt_zero m)⟩
  | frameRead hf hpc hi _ =>
    refine frames_top hD hown hmi hstep hw hf (l := [_]) rfl fun g hg => ?_
    rw [List.mem_singleton.mp hg]
    have hold := hmi.top_counted hw hf
    exact hold.advance hpc rfl rfl (fun _ => rfl) rfl
      (by unfold FrameCounted at hold; rw [hpc] at hold; exact hold.2.1)
      (fun _ => hi) rfl le_rfl
  | frameSkip hf hpc hi hout =>
    refine frames_top hD hown hmi hstep hw hf (l := [_]) rfl fun g hg => ?_
    rw [List.mem_singleton.mp hg]
    have hold := hmi.top_counted hw hf
    unfold FrameCounted at hold ⊢; rw [hpc] at hold
    refine ⟨hold.1, by omega, fun h => absurd rfl h, trivial, fun m hm k hk => ?_⟩
    rcases Nat.lt_succ_iff_lt_or_eq.mp hm with hm | rfl
    · exact hold.2.2.2.2 m hm k hk
    · have := hmi.window hrun k hk
      exact fun h => hout ⟨h ▸ this.1, h ▸ this.2⟩
  | frameFree hf _ _ =>
    exact frames_top hD hown hmi hstep hw hf (l := []) rfl fun g hg => absurd hg (by simp)
  | @frameZero f rest addr e deep i hf hpc =>
    refine frames_top hD hown hmi hstep hw hf (l := [_]) rfl fun g hg => ?_
    rw [List.mem_singleton.mp hg]
    have hold := hmi.top_counted hw hf
    unfold FrameCounted at hold ⊢; rw [hpc] at hold
    have hlt := hold.2.2.1 (by simp)
    refine ⟨hold.1, hold.2.1, fun _ => hlt, trivial, fun m hm k hk => ?_⟩
    dsimp only at hk ⊢
    rw [Function.update_apply]
    split_ifs with hmi'
    · rw [ptrMask_zero]; exact (Nat.ne_of_lt (slot_mask_pos hD hown hk))
    · refine hold.2.2.2.2 m ?_ k hk
      simp only [WordPc.passed] at hm ⊢
      rcases Nat.lt_succ_iff_lt_or_eq.mp hm with hm | rfl
      · exact hm
      · exact absurd rfl hmi'
  | frameFound hf hpc _ | frameDec hf hpc | frameGo hf hpc _ =>
    refine frames_top hD hown hmi hstep hw hf (l := [_]) rfl fun g hg => ?_
    rw [List.mem_singleton.mp hg]
    first
    | exact same_word (hmi.top_counted hw hf) hpc le_rfl (by simp) rfl rfl (fun _ => rfl) rfl
        trivial
    | exact same_word (hmi.top_counted hw hf) hpc le_rfl (by simp) rfl rfl (fun _ => rfl) rfl
        (by simp only [WordCounted]; omega)
  | frameMiss hf hpc _ | frameStop hf hpc _ | frameLose hf hpc _ =>
    refine frames_top hD hown hmi hstep hw hf (l := [_]) rfl fun g hg => ?_
    rw [List.mem_singleton.mp hg]
    exact next_word (hmi.top_counted hw hf) hpc rfl rfl rfl (fun _ => rfl) rfl
  | frameClaim hf hpc heq =>
    refine frames_top hD hown hmi hstep hw hf (l := [_, _]) rfl fun g hg => ?_
    rcases List.mem_pair.mp hg with rfl | rfl
    · exact trivial
    · exact next_word (hmi.top_counted hw hf) hpc rfl rfl rfl
        (mask_update_setLowBit heq) rfl

/-- **Every step of a thread keeps the memory invariant.** -/
theorem step (hrun : s.running = true) {w : Nat} (hw : w < s.nWorkers) {h' : Heap}
    {wk' : Worker} (hstep : WorkerStep s.heap (s.workers w) h' wk') :
    MemInv D (s.setWorker h' w wk') := by
  have hn := hstep.nAddrs_eq
  have hmask := hstep.mask_eq
  refine ⟨fun k hk j hj hjk => ?_, fun hr k hk => ?_, fun a => ?_, fun j hj hnc m hm => ?_,
    freed_clear_step hD hown hmi hw hstep, frames_step hD hown hmi hrun hw hstep⟩
  · simp only [Sweep.setWorker_heap, hstep.allocSz_eq, hmask, hn] at hk hjk ⊢
    exact hmi.sizes k hk j hj hjk
  · simp only [Sweep.setWorker_heap, Sweep.setWorker_running, hstep.window_eq, hmask, hn]
      at hr hk ⊢
    exact hmi.window hr k hk
  · simp only [Sweep.setWorker_heap]
    rcases hstep.mem_cases with heq | ⟨_, _, _, _, _, _, _, _, heq⟩
    · rw [heq]; exact hmi.zero_or_orig a
    · rw [heq, Function.update_apply]; split_ifs
      · exact Or.inr rfl
      · exact hmi.zero_or_orig a
  · have hnc₀ : ¬ s.Claimed D j := fun hc => hnc (Sweep.claimed_step hstep hc)
    simp only [Sweep.setWorker_heap]
    rw [mem_of_unheld hD hown hmi hw hstep hj
      (fun f hf hfj => hnc₀ (hown.claimed_of_held hf hfj)) hm]
    exact hmi.untouched j hj hnc₀ m hm

omit hD hmi in
/-- Compaction drops the claimed entries, and each of them was freed by then: after the join
a candidate is claimed exactly when it was before. -/
theorem claimed_afterJoin (hdone : ∀ w < s.nWorkers, (s.workers w).Finished) {j : Nat}
    (hc : s.Claimed D j) : s.afterJoin.Claimed D j := by
  left; rw [s.afterJoin_mem.2]
  rcases hc with hfr | ⟨k, hk, hm, hodd⟩
  · exact hfr
  · rcases hown.odd k hk hodd with h1 | h1
    · rw [Sweep.owners, Sweep.countFrames_eq_zero (Sweep.noFrames_of_done hdone)] at h1
      cases h1
    · rwa [← hm]

omit hD hown hmi in
/-- A pass starts with `min_val` and `max_val` the ends of an ascending array of unclaimed
entries, so every entry lies in the window. -/
theorem startPass_window {h : Heap} (hn : 0 < h.nAddrs) (heven : ∀ k < h.nAddrs, h.addrs k % 2 = 0)
    (hasc : ∀ k k', k < k' → k' < h.nAddrs → ptrMask (h.addrs k) < ptrMask (h.addrs k'))
    (k : Nat) (hk : k < h.nAddrs) :
    (startPass h).heap.minVal ≤ ptrMask ((startPass h).heap.addrs k) ∧
      ptrMask ((startPass h).heap.addrs k) ≤ (startPass h).heap.maxVal := by
  have hle : ∀ a b, a ≤ b → b < h.nAddrs → ptrMask (h.addrs a) ≤ ptrMask (h.addrs b) :=
    fun a b hab hb => (Nat.lt_or_eq_of_le hab).elim (fun h => le_of_lt (hasc a b h hb))
      fun h => h ▸ le_rfl
  simp only [startPass]
  rw [← ptrMask_of_even (heven 0 hn), ← ptrMask_of_even (heven (h.nAddrs - 1) (by omega))]
  exact ⟨hle 0 k (Nat.zero_le k) hk, hle k _ (by omega) (by omega)⟩

omit hD in
/-- **The join keeps the memory invariant.** -/
theorem afterJoin (hdone : ∀ w < s.nWorkers, (s.workers w).Finished) :
    MemInv D s.afterJoin := by
  have hown' := hown.afterJoin hdone
  have hmem := s.afterJoin_mem
  refine ⟨fun k hk j hj hjk => ?_, fun hr k hk => ?_, fun a => ?_, fun j hj hnc m hm => ?_,
    fun j hj hfr m hm k hk => ?_,
    fun f hf => absurd hf (Sweep.not_hasFrame s.afterJoin_noFrames f)⟩
  · obtain ⟨hk', ha, -, hz⟩ := s.afterJoin_slot hk
    rw [hz]; rw [ha] at hjk
    exact hmi.sizes _ (survivors_get_mem _ hk').1 j hj hjk
  · have heven : ∀ k < s.afterJoin.heap.nAddrs, s.afterJoin.heap.addrs k % 2 = 0 :=
      fun k hk => by
        obtain ⟨hk', ha, -⟩ := s.afterJoin_slot hk
        rw [ha]; exact (survivors_get_mem _ hk').2
    simp only [Sweep.afterJoin] at hr ⊢
    split_ifs at hr ⊢ with hc
    have hasc := hown'.ascending
    simp only [Sweep.afterJoin, if_pos hc] at hasc heven hk
    exact startPass_window hc.2 heven hasc k hk
  · rw [hmem.1]; exact hmi.zero_or_orig a
  · rw [hmem.1]
    exact hmi.untouched j hj (fun hc => hnc (claimed_afterJoin hown hdone hc)) m hm
  · obtain ⟨hk', ha, -⟩ := s.afterJoin_slot hk
    rw [hmem.1, ha]; rw [hmem.2] at hfr
    exact hmi.freed_clear j hj hfr m hm _ (survivors_get_mem _ hk').1

end MemInv

/-- **The first pass starts in the memory invariant.** -/
theorem MemInv.init {D : Dataset} (hD : SweepReady D) : MemInv D (Sweep.init D) := by
  have heven := hD.ascending.aligned
  refine ⟨fun k hk j hj hjk => ?_, fun _ k hk => ?_, fun a => Or.inl rfl, fun _ _ _ _ _ => rfl,
    fun j _ hfr => absurd hfr (List.not_mem_nil _), fun f hf => absurd hf
      (Sweep.not_hasFrame (fun _ _ => rfl) f)⟩
  · change k < D.n at hk
    change D.addrs j = ptrMask (D.addrs k) at hjk
    rw [ptrMask_of_even (heven k hk)] at hjk
    change D.allocSz k = D.allocSz j
    rw [hD.addrs_inj hj hk hjk]
  · exact startPass_window hD.pos heven (fun a b hab hb => by
      change ptrMask (D.addrs a) < ptrMask (D.addrs b)
      rw [ptrMask_of_even (heven a (by change b < D.n at hb; omega)), ptrMask_of_even (heven b hb)]
      exact hD.ascending.lt b hb a hab) k hk

/-- **Every reachable state of the sweep satisfies the memory invariant.** -/
theorem MemInv.reachable {D : Dataset} (hD : SweepReady D) {s : Sweep}
    (hr : Sweep.Reachable D s) : MemInv D s := by
  induction hr with
  | refl => exact MemInv.init hD
  | tail hab hstep ih =>
    have hown := Owned.reachable hD.ascending hab
    cases hstep with
    | worker w hw hrun hbusy =>
      rw [Sweep.runWorker_eq]; exact ih.step hD hown hrun hw (stepWorker_spec _ _ hbusy)
    | join _ hdone => exact ih.afterJoin hown hdone

end ForkScan
