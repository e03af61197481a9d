import Dora.Gc.Copy

/-!
# The copy collector keeps the object graph

The copies stand in to-space in the order in which the objects were reached, and the scan has
settled the slots of a first part of them. When it has caught up, all slots are settled.

## Main definitions

* `Copied`, `Scanned`: what holds between two visits, and between two rounds of the scan

## Main results

* `copyCollect_isomorphic`: a collection keeps the graph
* `copyCollect_finalizers`: finalizers follow their objects
-/

namespace Dora.Gc

open List Layout

namespace CopyCollector

variable (c : CopyCollector)

/-- The two spaces: they do not overlap, have one size, and lie inside the heap. -/
theorem spaces :
    (c.fromSpace.stop ≤ c.toSpace.start ∨ c.toSpace.stop ≤ c.fromSpace.start) ∧
      c.toSpace.stop - c.toSpace.start = c.fromSpace.stop - c.fromSpace.start ∧
      c.toSpace.start ≤ c.toSpace.stop ∧ 8 ∣ c.toSpace.start ∧
      c.total.start ≤ c.toSpace.start ∧ c.toSpace.stop ≤ c.total.stop ∧
      c.total.start ≤ c.fromSpace.start ∧ c.fromSpace.stop ≤ c.total.stop := by
  have hstart := c.start_le
  have hhalves := c.halves
  unfold fromSpace toSpace
  split_ifs with h
  · refine ⟨.inl (le_refl _), ?_, ?_, c.aligned_separator, ?_, ?_, ?_, ?_⟩ <;> dsimp only <;> omega
  · refine ⟨.inr (le_refl _), ?_, ?_, c.aligned_start, ?_, ?_, ?_, ?_⟩ <;> dsimp only <;> omega

end CopyCollector

variable {classes : Classes} {c : CopyCollector} {objects : Finset ℕ} {roots : List ℕ} {m : Memory}
  (hobj : Objects classes c.fromSpace objects m)
  (hroots : Roots c.total c.fromSpace objects roots m)

include hobj hroots in
theorem mem_objects_of_reaches {o : ℕ}
    (ho : (objectGraph classes c.fromSpace {s | s ∈ roots} m).Reaches o) : o ∈ objects := by
  refine ho.subset ?_ ?_
  · intro s hs hmov
    exact hroots.refers s hs hmov
  · intro o _ ho k hk hmov
    exact hobj.refers o ho k hk hmov

/-- **The objects of from-space** as a heap, with the roots as slots. -/
def copyHeap : Heap where
  toObjectGraph := objectGraph classes c.fromSpace {s | s ∈ roots} m
  objects := objects
  forward a := a ||| 1
  reaches_mem _ ho := mem_objects_of_reaches hobj hroots ho
  offsets_pos o ho k hk := by
    have := ClassInstance.refOffsets_bounds (hobj.wellFormed o ho) hk
    omega
  offsets_lt o ho k hk := by
    have hbounds := ClassInstance.refOffsets_bounds (hobj.wellFormed o ho) hk
    have : k < size classes m o := by rw [size_eq]; omega
    exact this
  size_pos o ho := by
    have := (ClassInstance.objectSize_bounds (hobj.wellFormed o ho) (arrayLength m o)).2
    have : 0 < size classes m o := by rw [size_eq]; omega
    exact this
  objects_apart := hobj.apart
  slots_apart s hs o ho := by
    have houtside := hroots.outside s hs
    have hinside := hobj.inside o ho
    have hspaces := c.spaces
    have : Apart s 1 o (size classes m o) := by unfold Apart; omega
    exact this

/-- The copies of the objects of `order`, one behind the other from `start`. -/
def copiesAt (size : ℕ → ℕ) (start : ℕ) (order : List ℕ) : Copies :=
  (place size start order).map Prod.swap

section CopiesAt

variable {size : ℕ → ℕ} {start : ℕ} {order : List ℕ}

theorem map_fst_copiesAt : (copiesAt size start order).map Prod.fst = order := by
  simp only [copiesAt, map_map]
  exact map_snd_place size start order

theorem copiesAt_snoc (v : ℕ) :
    copiesAt size start (order ++ [v]) =
      copiesAt size start order ++ [(v, start + extent size order)] := by
  simp [copiesAt, place_append, place]

theorem copiesAt_bounds {p : ℕ × ℕ} (hp : p ∈ copiesAt size start order) :
    start ≤ p.2 ∧ p.2 + size p.1 ≤ start + extent size order := by
  obtain ⟨q, hq, rfl⟩ := mem_map.mp hp
  exact place_bounds hq

theorem copiesAt_dvd {p : ℕ × ℕ} (hp : p ∈ copiesAt size start order) (hstart : 8 ∣ start)
    (hsize : ∀ o ∈ order, 8 ∣ size o) : 8 ∣ p.2 := by
  induction order generalizing start with
  | nil => simp [copiesAt, place] at hp
  | cons o order ih =>
    rcases mem_cons.mp hp with rfl | hp
    · exact hstart
    · refine ih hp ?_ fun o ho => hsize o (mem_cons_of_mem _ ho)
      exact Nat.dvd_add hstart (hsize o mem_cons_self)

end CopiesAt

/-! ## Visits -/

/-- The copies of the objects of `order` in to-space. -/
def copies (classes : Classes) (c : CopyCollector) (m : Memory) (order : List ℕ) : Copies :=
  copiesAt (size classes m) c.toSpace.start order

/-- **Between two visits**: the objects of `order` have been copied, in that order, and the slots
of `done` are settled. -/
structure Copied (st : CopyState) (order : List ℕ) (done : Set ℕ) : Prop where
  evacuated : Evacuated (copyHeap hobj hroots) st.memory (copies classes c m order) done
  closed : Closed (copyHeap hobj hroots) (copies classes c m order) done
  top_eq : st.top = c.toSpace.start + extent (size classes m) order

variable {hobj hroots}

section Visits

variable {st : CopyState} {order : List ℕ} {done : Set ℕ}

theorem map_fst_copies : (copies classes c m order).map Prod.fst = order := map_fst_copiesAt

theorem isSlot_copies_append {s s0 : ℕ} (more : List ℕ)
    (hs : (copyHeap hobj hroots).IsSlot (copies classes c m order) s s0) :
    (copyHeap hobj hroots).IsSlot (copies classes c m (order ++ more)) s s0 := by
  rw [copies, copiesAt, place_append, map_append]
  exact hs.append _

section

variable (h : Copied hobj hroots st order done)
include h

theorem Copied.nodup : order.Nodup := by
  have := h.evacuated.nodup
  rwa [map_fst_copies] at this

theorem Copied.mem_objects {o : ℕ} (ho : o ∈ order) : o ∈ objects := by
  have hmap : (copies classes c m order).map Prod.fst = order := map_fst_copies
  obtain ⟨p, hp, rfl⟩ := mem_map.mp (hmap ▸ ho)
  exact h.evacuated.mem_objects hp

theorem Copied.size_pos {o : ℕ} (ho : o ∈ order) : 0 < size classes m o :=
  (copyHeap hobj hroots).size_pos o (h.mem_objects ho)

omit h in
theorem extent_le (hobj : Objects classes c.fromSpace objects m) {order : List ℕ}
    (hnodup : order.Nodup) (hmem : ∀ o ∈ order, o ∈ objects) :
    c.toSpace.start + extent (size classes m) order ≤ c.toSpace.stop := by
  have hsum : extent (size classes m) order = ∑ o ∈ order.toFinset, size classes m o :=
    (sum_toFinset _ hnodup).symm
  have hle : ∑ o ∈ order.toFinset, size classes m o ≤ c.fromSpace.stop - c.fromSpace.start := by
    refine sum_size_le ?_ ?_
    · intro o ho
      exact hobj.inside o (hmem o (mem_toFinset.mp ho))
    · intro o ho o' ho' hne
      exact hobj.apart o (hmem o (mem_toFinset.mp ho)) o' (hmem o' (mem_toFinset.mp ho')) hne
  have hspaces := c.spaces
  omega

theorem Copied.top_le : st.top ≤ c.toSpace.stop := by
  rw [h.top_eq]
  exact extent_le hobj h.nodup fun o ho => h.mem_objects ho

/-- There is room behind the copies for an object that has not been copied. -/
theorem Copied.fresh {v : ℕ} (hv : v ∈ objects) (hnew : v ∉ order) :
    Fresh (copyHeap hobj hroots) (copies classes c m order) v
      st.top := by
  have hnodup : (order ++ [v]).Nodup := by
    refine nodup_append.mpr ⟨h.nodup, nodup_singleton v, ?_⟩
    rintro x hx y hy rfl
    obtain rfl := mem_singleton.mp hy
    exact hnew hx
  have hroom : st.top + size classes m v ≤ c.toSpace.stop := by
    have hle := extent_le hobj hnodup (by
      intro o ho
      rcases mem_append.mp ho with ho | ho
      · exact h.mem_objects ho
      · obtain rfl := mem_singleton.mp ho
        exact hv)
    have htop := h.top_eq
    simp only [extent_append, extent_cons] at hle
    omega
  have hstart : c.toSpace.start ≤ st.top := by
    rw [h.top_eq]
    omega
  have hspaces := c.spaces
  refine ⟨?_, ?_, ?_⟩
  · intro o ho
    have hinside := hobj.inside o ho
    have : Apart st.top (size classes m v) o (size classes m o) := by unfold Apart; omega
    exact this
  · intro s hs
    have houtside := hroots.outside s hs
    have : Apart s 1 st.top (size classes m v) := by unfold Apart; omega
    exact this
  · intro p hp
    exact .inl (h.top_eq ▸ (copiesAt_bounds hp).2)

theorem Copied.forwarded {v a : ℕ}
    (hv : (v, a) ∈ copies classes c m order) :
    vtblptrForwarded st.memory v = some a := by
  have hdvd : 8 ∣ a := by
    refine copiesAt_dvd hv c.spaces.2.2.2.1 fun o ho => ?_
    exact (ClassInstance.objectSize_bounds (hobj.wellFormed o (h.mem_objects ho)) _).1
  exact vtblptrForwarded_of_forward (by omega) (h.evacuated.header _ hv)

theorem Copied.original {v k : ℕ} (hv : v ∈ objects) (hnew : v ∉ order)
    (hk : k < size classes m v) : st.memory (v + k) = m (v + k) := by
  refine h.evacuated.originals v hv k hk fun _ => ?_
  rwa [map_fst_copies]

/-- **The spec of `copy`**: the object has a copy afterwards, at the address that is returned. -/
theorem Copied.copy {v : ℕ} (hv : (copyHeap hobj hroots).Reaches v) :
    ∃ more, Copied hobj hroots (copy classes st v).2 (order ++ more)
        done ∧
      (v, (Gc.copy classes st v).1) ∈
        copies classes c m (order ++ more) := by
  have hmem : v ∈ objects := mem_objects_of_reaches hobj hroots hv
  have hwf := hobj.wellFormed v hmem
  have hmap : (copies classes c m order).map Prod.fst = order := map_fst_copies
  by_cases hnew : v ∈ order
  · -- the object has a copy: its header is the address
    obtain ⟨p, hp, rfl⟩ := mem_map.mp (hmap.symm ▸ hnew)
    have hcopy : Gc.copy classes st p.1 = (p.2, st) := by
      simp [Gc.copy, h.forwarded hp]
    refine ⟨[], ?_, ?_⟩
    · rw [hcopy, append_nil]
      exact h
    · rw [hcopy, append_nil]
      exact hp
  · -- the object is as it was, and is copied to the top
    have hsize16 := (ClassInstance.objectSize_bounds hwf (arrayLength m v)).2
    rw [← size_eq] at hsize16
    have hvtbl : st.memory v = m v := h.original (k := 0) hmem hnew (by omega)
    have hsize : size classes st.memory v = size classes m v :=
      (layout_eq hwf hvtbl fun hlt _ => h.original hmem hnew hlt).1
    have hcopy : Gc.copy classes st v = (st.top,
        { memory := (copyHeap hobj hroots).evacuate st.memory v st.top,
          top := st.top + size classes m v }) := by
      have hnone : vtblptrForwarded st.memory v = none := by
        refine vtblptrForwarded_of_even ?_
        have := hobj.vtbl_aligned v hmem
        omega
      simp only [Gc.copy, hnone, hsize]
      rfl
    have hfresh := h.fresh hmem hnew
    have hnew' : v ∉ (copies classes c m order).map Prod.fst := by
      rwa [hmap]
    have hsnoc : copies classes c m (order ++ [v]) = copies classes c m order ++ [(v, st.top)] := by
      rw [h.top_eq]
      exact copiesAt_snoc v
    refine ⟨[v], ⟨?_, ?_, ?_⟩, ?_⟩
    · rw [hcopy, hsnoc]
      exact h.evacuated.evacuate h.closed hv hnew' hfresh
    · rw [hsnoc]
      exact h.evacuated.closed_evacuate h.closed hv hfresh
    · rw [hcopy, extent_append, extent_cons, extent_nil, Nat.add_zero, ← Nat.add_assoc, ← h.top_eq]
    · rw [hcopy, hsnoc]
      exact mem_append_right _ (mem_singleton.mpr rfl)

theorem Copied.reaches_of_slot {s s0 : ℕ}
    (hs : (copyHeap hobj hroots).IsSlot (copies classes c m order) s s0)
    (hmov : c.fromSpace.contains (m s0) = true) :
    (copyHeap hobj hroots).Reaches (m s0) := by
  rcases hs with ⟨hs, rfl⟩ | ⟨p, hp, k, hk, rfl, rfl⟩
  · exact .slot hs hmov
  · exact .field (h.evacuated.reaches p hp) hk hmov

theorem Copied.not_contains {p : ℕ × ℕ}
    (hp : p ∈ copies classes c m order) :
    c.fromSpace.contains p.2 = false := by
  have hbounds := copiesAt_bounds hp
  have htop := h.top_le
  have hpos : 0 < size classes m p.1 :=
    (copyHeap hobj hroots).size_pos _ (h.evacuated.mem_objects hp)
  have hspaces := c.spaces
  rw [h.top_eq] at htop
  rw [Region.contains_eq_false_iff]
  omega

/-- **The spec of a visit**: the slot is settled afterwards. -/
theorem Copied.visitSlot {s s0 : ℕ}
    (hs : (copyHeap hobj hroots).IsSlot (copies classes c m order) s s0) :
    ∃ more, Copied hobj hroots
      (visitSlot classes c.fromSpace st s) (order ++ more) (insert s done) := by
  by_cases hdone : s ∈ done
  · -- a slot that is settled does not lead to from-space any more
    have hnot : c.fromSpace.contains (st.memory s) = false := by
      rw [h.evacuated.settled s s0 hs hdone]
      cases hmov : (copyHeap hobj hroots).movable ((copyHeap hobj hroots).memory s0) with
      | false => rwa [ObjectGraph.redirect_of_not_movable hmov]
      | true =>
        rw [ObjectGraph.redirect_of_movable hmov]
        obtain ⟨p, hp, heq⟩ := mem_map.mp (h.closed s s0 hs hdone hmov)
        rw [← heq, Copies.target_eq h.evacuated.nodup hp]
        exact h.not_contains hp
    refine ⟨[], ?_⟩
    simpa [Gc.visitSlot, hnot, Set.insert_eq_of_mem hdone] using h
  · have htodo : st.memory s = m s0 := h.evacuated.todo s s0 hs hdone
    cases hmov : c.fromSpace.contains (m s0) with
    | false =>
      have hsame : (copyHeap hobj hroots).redirect
          (copies classes c m order).target (m s0) =
          st.memory s := by
        rw [htodo]
        exact ObjectGraph.redirect_of_not_movable hmov
      have hsettle := h.evacuated.settle hs
      have hclosed := h.evacuated.closed_settle h.closed hs fun ht => by
        exact absurd (hmov.symm.trans ht) (by decide)
      refine ⟨[], ?_, ?_, ?_⟩
      · rw [append_nil]
        simp only [Gc.visitSlot, htodo, hmov]
        have hmem : (copyHeap hobj hroots).memory s0 = m s0 := rfl
        rwa [hmem, hsame, Function.update_eq_self] at hsettle
      · rwa [append_nil]
      · simp [Gc.visitSlot, htodo, hmov, h.top_eq]
    | true =>
      obtain ⟨more, hcopied, hpair⟩ := h.copy (h.reaches_of_slot hs hmov)
      have hslot := isSlot_copies_append more hs
      have hsettle := hcopied.evacuated.settle hslot
      have hclosed := hcopied.evacuated.closed_settle hcopied.closed hslot fun _ =>
        mem_map.mpr ⟨_, hpair, rfl⟩
      have htarget : (copyHeap hobj hroots).redirect
          (copies classes c m (order ++ more)).target
          ((copyHeap hobj hroots).memory s0) = (Gc.copy classes st (m s0)).1 := by
        have hmov' : (copyHeap hobj hroots).movable ((copyHeap hobj hroots).memory s0) = true :=
          hmov
        rw [ObjectGraph.redirect_of_movable hmov']
        exact Copies.target_eq hcopied.evacuated.nodup hpair
      rw [htarget] at hsettle
      refine ⟨more, ?_, hclosed, ?_⟩
      · simp only [Gc.visitSlot, htodo, hmov]
        exact hsettle
      · simp only [Gc.visitSlot, htodo, hmov]
        exact hcopied.top_eq

theorem Copied.visitSlots {slots : List ℕ} (hs : ∀ s ∈ slots, ∃ s0, (copyHeap hobj hroots).IsSlot
      (copies classes c m order) s s0) :
    ∃ more, Copied hobj hroots
      (slots.foldl (Gc.visitSlot classes c.fromSpace) st) (order ++ more)
      (done ∪ {s | s ∈ slots}) := by
  induction slots generalizing st order done with
  | nil => exact ⟨[], by simpa using h⟩
  | cons s slots ih =>
    obtain ⟨s0, hs0⟩ := hs s mem_cons_self
    obtain ⟨more, hvisit⟩ := h.visitSlot hs0
    -- the slots of the copies that were there are slots of the copies that are there now
    have hlater : ∀ s ∈ slots, ∃ s0, (copyHeap hobj hroots).IsSlot
        (copies classes c m (order ++ more)) s s0 := by
      intro s hmem
      obtain ⟨s0, hs0⟩ := hs s (mem_cons_of_mem _ hmem)
      exact ⟨s0, isSlot_copies_append more hs0⟩
    obtain ⟨rest, hrest⟩ := ih hvisit hlater
    refine ⟨more ++ rest, ?_⟩
    have hset : insert s done ∪ {s | s ∈ slots} = done ∪ {s' | s' ∈ s :: slots} := by
      ext x
      simp only [Set.mem_union, Set.mem_insert_iff, Set.mem_ofPred_eq, mem_cons]
      tauto
    rw [← hset, ← append_assoc]
    exact hrest

end

end Visits

/-! ## The scan -/

variable (hobj hroots) in
/-- **Between two rounds of the scan**: the slots of the objects of `black` are settled, those of
`gray` are copied and not scanned. -/
structure Scanned (st : ScanState) (black gray : List ℕ) : Prop where
  copied : Copied hobj hroots st.toCopyState (black ++ gray)
    {s | ∃ s0, (copyHeap hobj hroots).IsSlot (copies classes c m black) s s0}
  scan_eq : st.scan = c.toSpace.start + extent (size classes m) black

section Scan

variable {st : ScanState} {black gray : List ℕ}

theorem Copied.layout {st : CopyState} {order : List ℕ} {done : Set ℕ}
    (h : Copied hobj hroots st order done) {p : ℕ × ℕ}
    (hp : p ∈ copies classes c m order) :
    size classes st.memory p.2 = size classes m p.1 ∧ visitReferenceFields classes st.memory p.2 =
        some ((offsets classes m p.1).map (p.2 + ·)) := by
  have hmem := h.evacuated.mem_objects hp
  refine layout_eq (hobj.wellFormed p.1 hmem) ?_ ?_
  · refine h.evacuated.contents p hp 0 ((copyHeap hobj hroots).size_pos _ hmem) ?_
    intro h0
    exact absurd ((copyHeap hobj hroots).offsets_pos _ hmem 0 h0) (lt_irrefl 0)
  · intro hlt hoff
    exact h.evacuated.contents p hp 16 hlt hoff

/-- The object at the scan pointer is the copy of the first gray object. -/
theorem Scanned.mem_copies {o : ℕ}
    (h : Scanned hobj hroots st black (o :: gray)) (more : List ℕ) :
    (o, st.scan) ∈
      copies classes c m (black ++ o :: gray ++ more) := by
  rw [copies, copiesAt, append_assoc, place_append, map_append]
  refine mem_append_right _ ?_
  rw [h.scan_eq]
  exact mem_cons_self

theorem isSlot_copies_snoc {o scan : ℕ}
    (hscan : scan = c.toSpace.start + extent (size classes m) black) :
    {s | ∃ s0, (copyHeap hobj hroots).IsSlot (copies classes c m black) s s0} ∪
        {s | s ∈ (offsets classes m o).map (scan + ·)} =
      {s | ∃ s0, (copyHeap hobj hroots).IsSlot (copies classes c m (black ++ [o])) s s0} := by
  have hsnoc : copies classes c m (black ++ [o]) = copies classes c m black ++ [(o, scan)] :=
    hscan ▸ copiesAt_snoc o
  rw [hsnoc]
  ext s
  constructor
  · rintro (⟨s0, hs⟩ | hs)
    · exact ⟨s0, hs.append _⟩
    · obtain ⟨k, hk, rfl⟩ := mem_map.mp hs
      exact ⟨o + k, .inr ⟨(o, scan), by simp, k, hk, rfl, rfl⟩⟩
  · rintro ⟨s0, hs⟩
    rcases Evacuated.isSlot_append_cases hs with hs | ⟨k, hk, rfl, -⟩
    · exact .inl ⟨s0, hs⟩
    · exact .inr (mem_map.mpr ⟨k, hk, rfl⟩)

/-- **The spec of a round**: the first gray object gets black. -/
theorem Scanned.scanObject {o : ℕ}
    (h : Scanned hobj hroots st black (o :: gray)) :
    ∃ st' more, scanObject classes c.fromSpace st = some st' ∧
      Scanned hobj hroots st' (black ++ [o]) (gray ++ more) := by
  have hcopy := h.mem_copies []
  rw [append_nil] at hcopy
  obtain ⟨-, hfields⟩ := h.copied.layout hcopy
  have hslots : ∀ s ∈ (offsets classes m o).map (st.scan + ·), ∃ s0, (copyHeap hobj hroots).IsSlot
        (copies classes c m (black ++ o :: gray)) s s0 := by
    intro s hs
    obtain ⟨k, hk, rfl⟩ := mem_map.mp hs
    exact ⟨o + k, .inr ⟨_, hcopy, k, hk, rfl, rfl⟩⟩
  obtain ⟨more, hvisit⟩ := h.copied.visitSlots hslots
  obtain ⟨hsize, -⟩ := hvisit.layout (h.mem_copies more)
  refine ⟨_, more, by simp only [Gc.scanObject, hfields]; rfl, ?_, ?_⟩
  · rw [append_assoc, singleton_append, ← cons_append, ← append_assoc,
      ← isSlot_copies_snoc h.scan_eq]
    exact hvisit
  · dsimp only at hsize ⊢
    rw [hsize, extent_append, extent_cons, extent_nil, Nat.add_zero, ← Nat.add_assoc, ← h.scan_eq]

section

variable (h : Scanned hobj hroots st black gray)
include h

theorem Scanned.gray_of_lt (hlt : st.scan < st.top) : ∃ o gray', gray = o :: gray' := by
  cases gray with
  | nil =>
    have htop := h.copied.top_eq
    rw [append_nil, ← h.scan_eq] at htop
    exact absurd hlt (by omega)
  | cons o gray => exact ⟨o, gray, rfl⟩

theorem Scanned.gray_eq_nil (hle : st.top ≤ st.scan) : gray = [] := by
  cases gray with
  | nil => rfl
  | cons o gray =>
    have hpos := h.copied.size_pos (o := o) (by simp)
    have htop := h.copied.top_eq
    have hscan := h.scan_eq
    rw [extent_append, extent_cons] at htop
    omega

omit h in
variable (hobj hroots) in
theorem scanned_roots : ∃ gray, Scanned hobj hroots
      { roots.foldl (visitSlot classes c.fromSpace) ⟨m, c.toSpace.start⟩ with
        scan := c.toSpace.start } [] gray := by
  have hinit : Copied hobj hroots ⟨m, c.toSpace.start⟩ [] ∅ :=
    ⟨Evacuated.init _, Evacuated.closed_init _, rfl⟩
  have hslots : ∀ s ∈ roots, ∃ s0, (copyHeap hobj hroots).IsSlot
      (copies classes c m []) s s0 :=
    fun s hs => ⟨s, .inl ⟨hs, rfl⟩⟩
  obtain ⟨gray, hvisit⟩ := hinit.visitSlots hslots
  refine ⟨gray, ?_, by simp⟩
  have hset : ∅ ∪ {s | s ∈ roots} = {s | ∃ s0, (copyHeap hobj hroots).IsSlot
      (copies classes c m []) s s0} := by
    rw [Set.empty_union]
    ext s
    refine ⟨hslots s, ?_⟩
    rintro ⟨s0, ⟨hs, -⟩ | ⟨p, hp, -⟩⟩
    · exact hs
    · simp [copies, copiesAt, place] at hp
  rw [← hset]
  exact hvisit

theorem whileLoop_scanObject {fuel : ℕ} (hfuel : c.toSpace.stop - st.scan < fuel) :
    ∃ st' order, whileLoop (fun st => decide (st.scan < st.top))
        (scanObject classes c.fromSpace) fuel st = some st' ∧
      Scanned hobj hroots st' order [] := by
  have hstep : ∀ st : ScanState, (∃ black gray, Scanned hobj hroots st black gray) →
      decide (st.scan < st.top) = true →
      ∃ st', scanObject classes c.fromSpace st = some st' ∧
        (∃ black gray, Scanned hobj hroots st' black gray) ∧
        c.toSpace.stop - st'.scan < c.toSpace.stop - st.scan := by
    rintro st ⟨black, gray, h⟩ hlt
    rw [decide_eq_true_iff] at hlt
    obtain ⟨o, gray, rfl⟩ := h.gray_of_lt hlt
    obtain ⟨st', more, hround, h'⟩ := h.scanObject
    refine ⟨st', hround, ⟨_, _, h'⟩, ?_⟩
    -- the scan pointer moves behind an object, and not beyond the top
    have hpos := h.copied.size_pos (o := o) (by simp)
    have hscan := h.scan_eq
    have hscan' := h'.scan_eq
    have htop := h.copied.top_le
    rw [extent_append, extent_cons, extent_nil] at hscan'
    omega
  obtain ⟨st', hloop, ⟨black, gray, h'⟩, hend⟩ :=
    whileLoop_total (fun st : ScanState => c.toSpace.stop - st.scan) hstep ⟨black, gray, h⟩ hfuel
  rw [decide_eq_false_iff_not, Nat.not_lt] at hend
  obtain rfl := h'.gray_eq_nil hend
  exact ⟨st', black, hloop, h'⟩

end

variable (hobj hroots) in
theorem copyCollect_scanned {θ : Type} (finalizers : List (ℕ × θ)) {fuel : ℕ}
    (hfuel : c.toSpace.size < fuel) :
    ∃ st order, copyCollect classes fuel c roots finalizers m =
        some ⟨st.top, c.toSpace.stop, st.memory, iterateWeakRoots st.memory finalizers⟩ ∧
      Scanned hobj hroots st order [] := by
  obtain ⟨gray, hstart⟩ := scanned_roots hobj hroots
  obtain ⟨st, order, hloop, hend⟩ := whileLoop_scanObject hstart hfuel
  refine ⟨st, order, ?_, hend⟩
  simp only [copyCollect, hloop, Option.bind_eq_bind, Option.bind_some]

end Scan

/-! ## The collection -/

section Collection

theorem place_eq_map_target {size : ℕ → ℕ} {start : ℕ} {order : List ℕ} (hnodup : order.Nodup) :
    place size start order = order.map fun o => ((copiesAt size start order).target o, o) := by
  have hnodup' : ((copiesAt size start order).map Prod.fst).Nodup := by
    rwa [map_fst_copiesAt]
  have hpair : ∀ p ∈ place size start order, ((copiesAt size start order).target p.2, p.2) = p := by
    intro p hp
    have htarget : (copiesAt size start order).target p.2 = p.1 :=
      Copies.target_eq hnodup' (mem_map.mpr ⟨p, hp, rfl⟩)
    rw [htarget]
  calc place size start order
      = (place size start order).map fun p => ((copiesAt size start order).target p.2, p.2) :=
        ((map_congr_left hpair).trans (map_id _)).symm
    _ = ((place size start order).map Prod.snd).map
          fun o => ((copiesAt size start order).target o, o) := by
        rw [map_map]
        rfl
    _ = order.map fun o => ((copiesAt size start order).target o, o) := by
        rw [map_snd_place]

/-- **A collection keeps the graph.** It ends, and then the roots and to-space hold the graph of
the objects that the roots reached: every one of them has one copy, no other object has, and the
copies stand one behind the other from the start of to-space up to the new top. -/
theorem copyCollect_isomorphic {θ : Type} (hobj : Objects classes c.fromSpace objects m)
    (hroots : Roots c.total c.fromSpace objects roots m) (finalizers : List (ℕ × θ)) {fuel : ℕ}
    (hfuel : c.toSpace.size < fuel) :
    ∃ r ψ order, copyCollect classes fuel c roots finalizers m = some r ∧
      (objectGraph classes c.fromSpace {s | s ∈ roots} m).Isomorphic (fun _ => True) r.memory ψ ∧
      order.Nodup ∧
      (∀ o, o ∈ order ↔ (objectGraph classes c.fromSpace {s | s ∈ roots} m).Reaches o) ∧
      place (size classes m) c.toSpace.start order = order.map (fun o => (ψ o, o)) ∧
      r.top = c.toSpace.start + extent (size classes m) order ∧
      r.top ≤ c.toSpace.stop ∧ r.limit = c.toSpace.stop := by
  obtain ⟨st, order, hcollect, h⟩ := copyCollect_scanned hobj hroots finalizers hfuel
  have hcopied := h.copied
  rw [append_nil] at hcopied
  have hall : ∀ s s0, (copyHeap hobj hroots).IsSlot
      (copies classes c m order) s s0 →
      s ∈ {s | ∃ s0, (copyHeap hobj hroots).IsSlot
        (copies classes c m order) s s0} :=
    fun s s0 hs => ⟨s0, hs⟩
  refine ⟨_, (copies classes c m order).target, order, hcollect,
    ?_, hcopied.nodup, ?_, ?_, hcopied.top_eq, hcopied.top_le, rfl⟩
  · exact hcopied.evacuated.isomorphic hcopied.closed hall
  · intro o
    have hiff := hcopied.evacuated.reaches_iff hcopied.closed hall (o := o)
    rw [map_fst_copies] at hiff
    exact hiff.symm
  · exact place_eq_map_target hcopied.nodup

/-- **Finalizers** of the objects that the roots reach follow the objects; the others are
dropped. -/
theorem copyCollect_finalizers {θ : Type} (hobj : Objects classes c.fromSpace objects m)
    (hroots : Roots c.total c.fromSpace objects roots m) {finalizers : List (ℕ × θ)}
    (hfin : ∀ p ∈ finalizers, p.1 ∈ objects) {fuel : ℕ} (hfuel : c.toSpace.size < fuel) :
    ∃ r ψ, ∃ order : List ℕ, copyCollect classes fuel c roots finalizers m = some r ∧
      (objectGraph classes c.fromSpace {s | s ∈ roots} m).Isomorphic (fun _ => True) r.memory ψ ∧
      (∀ o, o ∈ order ↔ (objectGraph classes c.fromSpace {s | s ∈ roots} m).Reaches o) ∧
      r.finalizers = finalizers.filterMap fun p =>
        if p.1 ∈ order then some (ψ p.1, p.2) else none := by
  obtain ⟨st, order, hcollect, h⟩ := copyCollect_scanned hobj hroots finalizers hfuel
  have hcopied := h.copied
  rw [append_nil] at hcopied
  have hev := hcopied.evacuated
  refine ⟨_, _, _, hcollect, hev.isomorphic hcopied.closed fun _ s0 hs => ⟨s0, hs⟩,
    fun o => (hev.reaches_iff hcopied.closed fun _ s0 hs => ⟨s0, hs⟩).symm,
    filterMap_congr fun p hp => ?_⟩
  by_cases hcopy : p.1 ∈ (copies classes c m order).map Prod.fst
  · obtain ⟨q, hq, heq⟩ := mem_map.mp hcopy
    rw [if_pos hcopy, ← heq, hcopied.forwarded hq, Copies.target_eq hev.nodup hq]
    rfl
  · -- the header is still the address of the vtable
    have hmem := hfin p hp
    have hold := hev.originals p.1 hmem 0 ((copyHeap hobj hroots).size_pos _ hmem) fun _ => hcopy
    have heven : 2 ∣ st.memory p.1 := hold ▸ Nat.dvd_trans (by decide) (hobj.vtbl_aligned _ hmem)
    rw [if_neg hcopy, vtblptrForwarded_of_even heven]
    rfl

end Collection

/-! ## A heap with a cycle -/

/-- One class of objects with a reference behind the header. -/
def sampleClasses : Classes := fun _ => ⟨.fixed 24, [16]⟩

def sampleCollector : CopyCollector where
  total := ⟨64, 256⟩
  separator := 160
  top := 136
  limit := 160
  start_le := by decide
  halves := by decide
  aligned_start := by decide
  aligned_separator := by decide
  limit_eq := by decide

/-- The objects at 64 and 88 refer to each other, the one at 112 is garbage; the root is at 8. -/
def sampleMemory : Memory := fun a =>
  if a = 8 then 64 else if a = 80 then 88 else if a = 104 then 64 else if a = 128 then 64
  else if a = 64 ∨ a = 88 ∨ a = 112 then 1000 else 0

theorem copyCollect_isomorphic_sample :
    ∃ r ψ order,
      copyCollect sampleClasses 97 sampleCollector [8] ([] : List (ℕ × Unit)) sampleMemory =
        some r ∧
      (objectGraph sampleClasses sampleCollector.fromSpace {s | s ∈ [8]} sampleMemory).Isomorphic
        (fun _ => True) r.memory ψ ∧
      order.Nodup ∧
      (∀ o, o ∈ order ↔ (objectGraph sampleClasses sampleCollector.fromSpace {s | s ∈ [8]}
        sampleMemory).Reaches o) ∧
      place (size sampleClasses sampleMemory) sampleCollector.toSpace.start order =
        order.map (fun o => (ψ o, o)) ∧
      r.top = sampleCollector.toSpace.start + extent (size sampleClasses sampleMemory) order ∧
      r.top ≤ sampleCollector.toSpace.stop ∧ r.limit = sampleCollector.toSpace.stop :=
  have hobj : Objects sampleClasses sampleCollector.fromSpace {64, 88, 112} sampleMemory :=
    ⟨by decide, by decide, by decide, by decide, by decide, by decide⟩
  copyCollect_isomorphic hobj ⟨by decide, by decide⟩ [] (by decide)

/-- The object at 88 is reached, the one at 112 is not. -/
theorem copyCollect_finalizers_sample : ∃ r, ∃ ψ : ℕ → ℕ, ∃ order : List ℕ,
    copyCollect sampleClasses 97 sampleCollector [8] [(88, 1), (112, 2)] sampleMemory = some r ∧
      r.finalizers = [(88, 1), (112, 2)].filterMap fun p =>
        if p.1 ∈ order then some (ψ p.1, p.2) else none :=
  have hobj : Objects sampleClasses sampleCollector.fromSpace {64, 88, 112} sampleMemory :=
    ⟨by decide, by decide, by decide, by decide, by decide, by decide⟩
  have ⟨r, ψ, order, hr, _, _, hfinalizers⟩ :=
    copyCollect_finalizers hobj ⟨by decide, by decide⟩ (by decide) (by decide)
  ⟨r, ψ, order, hr, hfinalizers⟩

end Dora.Gc
