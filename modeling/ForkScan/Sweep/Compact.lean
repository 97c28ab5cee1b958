import ForkScan.Sweep.Steps

/-!
# ForkScan — the compaction after the join

After its threads have joined, `find_unreferenced_nodes` walks `[0, n_addrs)` once with a
read cursor `i` and a write cursor `write_position`, dropping every entry whose collected
bit is set and packing the others to the left together with their `refs` and `alloc_sz`.

* **`survivors h`** — the indices of the entries whose low bit is clear, in order.
* **`compact_spec`** — the compacted arrays, read over `[0, n_addrs)`, are the arrays read
  at the survivors; `n_addrs` becomes their number and `savings` the number dropped.
  The loop invariant (`compactFrom_spec`) holds because the write cursor never passes the
  read cursor: every write lands below every index still to be read.
-/

namespace ForkScan

/-- The indices in `[0, n_addrs)` whose entry has its collected bit clear. -/
def survivors (h : Heap) : List Nat :=
  (List.range h.nAddrs).filter fun j => h.addrs j % 2 = 0

theorem mem_survivors {h : Heap} {j : Nat} :
    j ∈ survivors h ↔ j < h.nAddrs ∧ h.addrs j % 2 = 0 := by
  simp [survivors]

/-- The survivors are listed in increasing order. -/
theorem survivors_lt (h : Heap) {a b : Nat} (ha : a < (survivors h).length)
    (hb : b < (survivors h).length) (hab : a < b) : (survivors h)[a] < (survivors h)[b] :=
  List.pairwise_iff_getElem.mp ((List.pairwise_lt_range _).filter _) a b ha hb hab

theorem survivors_get_mem (h : Heap) {a : Nat} (ha : a < (survivors h).length) :
    (survivors h)[a] < h.nAddrs ∧ h.addrs (survivors h)[a] % 2 = 0 :=
  mem_survivors.mp (List.getElem_mem ha)

/-- A compaction that drops nothing found every entry unclaimed. -/
theorem even_of_survivors_length {h : Heap} (hlen : (survivors h).length = h.nAddrs) {k : Nat}
    (hk : k < h.nAddrs) : h.addrs k % 2 = 0 := by
  have := List.filter_length_eq_length.mp (by rw [List.length_range]; exact hlen) k
    (List.mem_range.mpr hk)
  simpa using this

/-- An array that reads, over `[0, n)`, as `g` read along `l`. -/
theorem eq_getElem_of_map_range {α : Type} {f g : Nat → α} {n : Nat} {l : List Nat}
    (h : (List.range n).map f = l.map g) {k : Nat} (hk : k < n) :
    ∃ hk' : k < l.length, f k = g l[k] := by
  have hlen : n = l.length := by simpa using congrArg List.length h
  refine ⟨hlen ▸ hk, ?_⟩
  have := congrArg (fun l' => l'[k]?) h
  simpa [List.getElem?_map, List.getElem?_range hk, List.getElem?_eq_getElem (hlen ▸ hk)]
    using this

/-- The survivors below `i`. -/
def survivorsBelow (h : Heap) (i : Nat) : List Nat :=
  (List.range i).filter fun j => h.addrs j % 2 = 0

theorem survivorsBelow_succ (h : Heap) (i : Nat) :
    survivorsBelow h (i + 1) =
      survivorsBelow h i ++ if h.addrs i % 2 = 0 then [i] else [] := by
  simp only [survivorsBelow, List.range_succ, List.filter_append]
  split_ifs with hi <;> simp [hi]

/-- The invariant of the compaction loop at read cursor `i`, for the state `h₀` it started
from: the packed prefix holds the survivors below `i`, and nothing at or above `i` has been
written yet. -/
structure CompactInv (h₀ h : Heap) (i writePosition savings : Nat) : Prop where
  wp_eq : writePosition = (survivorsBelow h₀ i).length
  savings_eq : savings + writePosition = i
  addrs_pre : (List.range writePosition).map h.addrs = (survivorsBelow h₀ i).map h₀.addrs
  refs_pre : (List.range writePosition).map h.refs = (survivorsBelow h₀ i).map h₀.refs
  allocSz_pre : (List.range writePosition).map h.allocSz = (survivorsBelow h₀ i).map h₀.allocSz
  addrs_rest : ∀ j, i ≤ j → h.addrs j = h₀.addrs j
  refs_rest : ∀ j, i ≤ j → h.refs j = h₀.refs j
  allocSz_rest : ∀ j, i ≤ j → h.allocSz j = h₀.allocSz j
  others : h.mem = h₀.mem ∧ h.freed = h₀.freed ∧ h.minVal = h₀.minVal ∧
    h.maxVal = h₀.maxVal ∧ h.assertFailed = h₀.assertFailed

/-- A write at the write cursor extends the packed prefix by one entry. -/
theorem map_range_update_succ {α : Type} (g : Nat → α) (wp : Nat) (x : α) :
    (List.range (wp + 1)).map (Function.update g wp x) = (List.range wp).map g ++ [x] := by
  rw [List.range_succ, List.map_append]
  congr 1
  · exact List.map_congr_left fun m hm =>
      Function.update_noteq (Nat.ne_of_lt (List.mem_range.mp hm)) _ _
  · simp

/-- Copying a survivor at the read cursor to the write cursor extends the packed prefix. -/
theorem map_range_pack {α : Type} {h₀ : Heap} {f g : Nat → α} {wp i : Nat}
    (hpre : (List.range wp).map f = (survivorsBelow h₀ i).map g) (heven : h₀.addrs i % 2 = 0) :
    (List.range (wp + 1)).map (Function.update f wp (g i)) =
      (survivorsBelow h₀ (i + 1)).map g := by
  rw [map_range_update_succ, hpre, survivorsBelow_succ, if_pos heven, List.map_append]; rfl

theorem compactFrom_spec (h₀ : Heap) :
    ∀ (k : Nat) (h : Heap) (i wp sv : Nat), i + k = h₀.nAddrs → CompactInv h₀ h i wp sv →
      CompactInv h₀ (compactFrom h i wp sv k).1 h₀.nAddrs (compactFrom h i wp sv k).1.nAddrs
        (compactFrom h i wp sv k).2 ∧
      (compactFrom h i wp sv k).1.nAddrs = wp + (survivorsBelow h₀ h₀.nAddrs).length -
        (survivorsBelow h₀ i).length := by
  intro k
  induction k with
  | zero =>
    intro h i wp sv hk inv
    simp only [Nat.add_zero] at hk
    subst hk
    refine ⟨{ inv with addrs_pre := ?_ }, ?_⟩ <;> simp [compactFrom, inv.addrs_pre]
  | succ k ih =>
    intro h i wp sv hk inv
    have hsucc := survivorsBelow_succ h₀ i
    have hi : h.addrs i = h₀.addrs i := inv.addrs_rest i le_rfl
    by_cases hodd : h.addrs i % 2 = 1
    · -- a claimed entry is dropped: the survivors below `i + 1` are those below `i`
      have hsb : survivorsBelow h₀ (i + 1) = survivorsBelow h₀ i := by
        rw [hsucc, if_neg (by omega), List.append_nil]
      simp only [compactFrom, if_pos hodd]
      have := ih h (i + 1) wp (sv + 1) (by omega)
        { inv with
          wp_eq := hsb ▸ inv.wp_eq
          savings_eq := by have := inv.savings_eq; omega
          addrs_pre := hsb ▸ inv.addrs_pre
          refs_pre := hsb ▸ inv.refs_pre
          allocSz_pre := hsb ▸ inv.allocSz_pre
          addrs_rest := fun j hj => inv.addrs_rest j (by omega)
          refs_rest := fun j hj => inv.refs_rest j (by omega)
          allocSz_rest := fun j hj => inv.allocSz_rest j (by omega) }
      rwa [hsb] at this
    · have heven₀ : h₀.addrs i % 2 = 0 := by omega
      have hwp : wp ≤ i := by have := inv.savings_eq; omega
      simp only [compactFrom, if_neg hodd]
      -- the state after the (possibly skipped) copy to the write cursor
      set h' : Heap := if wp ≠ i then
          { h with addrs := Function.update h.addrs wp (h.addrs i),
                   refs := Function.update h.refs wp (h.refs i),
                   allocSz := Function.update h.allocSz wp (h.allocSz i) } else h with hh'
      have hcopy : h'.addrs = Function.update h.addrs wp (h.addrs i) ∧
          h'.refs = Function.update h.refs wp (h.refs i) ∧
          h'.allocSz = Function.update h.allocSz wp (h.allocSz i) ∧
          h'.mem = h.mem ∧ h'.freed = h.freed ∧ h'.minVal = h.minVal ∧ h'.maxVal = h.maxVal ∧
          h'.assertFailed = h.assertFailed := by
        by_cases hw : wp = i
        · subst hw; simp [hh']
        · simp [hh', hw]
      obtain ⟨ha, hr, hs, hm, hf, hmin, hmax, hfail⟩ := hcopy
      have := ih h' (i + 1) (wp + 1) sv (by omega)
        { wp_eq := by rw [hsucc, if_pos heven₀, List.length_append, inv.wp_eq]; rfl
          savings_eq := by have := inv.savings_eq; omega
          addrs_pre := by rw [ha, hi]; exact map_range_pack inv.addrs_pre heven₀
          refs_pre := by rw [hr, inv.refs_rest i le_rfl]; exact map_range_pack inv.refs_pre heven₀
          allocSz_pre := by
            rw [hs, inv.allocSz_rest i le_rfl]; exact map_range_pack inv.allocSz_pre heven₀
          addrs_rest := fun j hj => by
            rw [ha, Function.update_noteq (by omega)]; exact inv.addrs_rest j (by omega)
          refs_rest := fun j hj => by
            rw [hr, Function.update_noteq (by omega)]; exact inv.refs_rest j (by omega)
          allocSz_rest := fun j hj => by
            rw [hs, Function.update_noteq (by omega)]; exact inv.allocSz_rest j (by omega)
          others := by rw [hm, hf, hmin, hmax, hfail]; exact inv.others }
      rw [hsucc, if_pos heven₀, List.length_append] at this
      refine ⟨this.1, ?_⟩
      rw [this.2]
      simp only [List.length_singleton]
      omega

/-- The postcondition of the compaction. -/
structure CompactSpec (h h' : Heap) (savings : Nat) : Prop where
  nAddrs_eq : h'.nAddrs = (survivors h).length
  savings_eq : savings + h'.nAddrs = h.nAddrs
  addrs_eq : (List.range h'.nAddrs).map h'.addrs = (survivors h).map h.addrs
  refs_eq : (List.range h'.nAddrs).map h'.refs = (survivors h).map h.refs
  allocSz_eq : (List.range h'.nAddrs).map h'.allocSz = (survivors h).map h.allocSz
  others : h'.mem = h.mem ∧ h'.freed = h.freed ∧ h'.minVal = h.minVal ∧
    h'.maxVal = h.maxVal ∧ h'.assertFailed = h.assertFailed

theorem compact_spec (h : Heap) : CompactSpec h (compact h).1 (compact h).2 := by
  unfold compact
  have hinit : CompactInv h h 0 0 0 :=
    ⟨rfl, rfl, rfl, rfl, rfl, fun _ _ => rfl, fun _ _ => rfl, fun _ _ => rfl,
      ⟨rfl, rfl, rfl, rfl, rfl⟩⟩
  obtain ⟨inv, hn⟩ := compactFrom_spec h h.nAddrs h 0 0 0 (by omega) hinit
  simp only [survivorsBelow, List.range_zero, List.filter_nil, List.length_nil,
    Nat.sub_zero, Nat.zero_add] at hn
  have hsurv : survivorsBelow h h.nAddrs = survivors h := rfl
  exact ⟨hn, by have := inv.savings_eq; omega, hsurv ▸ inv.addrs_pre, hsurv ▸ inv.refs_pre,
    hsurv ▸ inv.allocSz_pre, inv.others⟩

end ForkScan
