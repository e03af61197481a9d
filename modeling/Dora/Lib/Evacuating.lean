import Dora.Lib.Evacuation

/-!
# Evacuation with pending slots

An evacuation in which the slots that are still to be visited are known, as a multiset. Memory that
holds no object, no slot and no copy may hold anything, so that a copy can be made before the object
is evacuated.

## Main results

* `Evacuating.settle`, `Evacuating.evacuate`, `Evacuating.write`: the steps of an evacuation
* `Evacuating.isomorphic`: without pending slots, the copies are the graph
-/

namespace Heap

variable (H : Heap) (copies : Copies)

/-- The words of objects, slots and copies. -/
def Relevant (x : ℕ) : Prop :=
  x ∈ H.slots ∨ (∃ o ∈ H.objects, o ≤ x ∧ x < o + H.size o) ∨
    ∃ p ∈ copies, p.2 ≤ x ∧ x < p.2 + H.size p.1

/-- The slots of a copy. -/
def fieldsOf (p : ℕ × ℕ) : List ℕ := (H.offsets p.1).map (p.2 + ·)

/-- The slots that are not pending. -/
def settled (pending : Multiset ℕ) : Set ℕ := {x | (∃ x0, H.IsSlot copies x x0) ∧ x ∉ pending}

variable {H copies} {x x0 : ℕ}

theorem IsSlot.relevant (hx : H.IsSlot copies x x0)
    (hcopies : ∀ p ∈ copies, p.1 ∈ H.objects) : H.Relevant copies x := by
  rcases hx with ⟨hx, -⟩ | ⟨p, hp, k, hk, rfl, -⟩
  · exact .inl hx
  · have hlt := H.offsets_lt _ (hcopies p hp) k hk
    exact .inr (.inr ⟨p, hp, by omega, by omega⟩)

theorem IsSlot.reaches (hx : H.IsSlot copies x x0) (hcopies : ∀ p ∈ copies, H.Reaches p.1)
    (hmov : H.movable (H.memory x0) = true) : H.Reaches (H.memory x0) := by
  rcases hx with ⟨hx, rfl⟩ | ⟨p, hp, k, hk, -, rfl⟩
  · exact .slot hx hmov
  · exact .field (hcopies p hp) hk hmov

end Heap

/-- **An evacuation with pending slots**: the memory `m` is the one of an evacuation as far as it is
relevant, and the slots that are not pending are settled. -/
structure Evacuating (H : Heap) (m : Memory) (copies : Copies) (pending : Multiset ℕ) : Prop where
  evacuated : ∃ virtual : Memory, Evacuated H virtual copies (H.settled copies pending) ∧
    ∀ x, H.Relevant copies x → m x = virtual x
  closed : Closed H copies (H.settled copies pending)
  nodup : pending.Nodup
  slots : ∀ x ∈ pending, ∃ x0, H.IsSlot copies x x0

namespace Evacuating

variable {H : Heap} {m m' : Memory} {copies : Copies} {pending : Multiset ℕ} {x x0 v a : ℕ}

theorem init (H : Heap) {pending : Multiset ℕ} (hnodup : pending.Nodup)
    (hslots : ∀ x, x ∈ pending ↔ x ∈ H.slots) : Evacuating H H.memory [] pending := by
  have hempty : H.settled [] pending = ∅ := by
    refine Set.eq_empty_iff_forall_notMem.mpr ?_
    rintro x ⟨⟨x0, ⟨hx, -⟩ | ⟨p, hp, -⟩⟩, hnot⟩
    · exact hnot ((hslots x).mpr hx)
    · simp at hp
  refine ⟨⟨H.memory, ?_, fun _ _ => rfl⟩, ?_, hnodup, fun x hx => ⟨x, .inl ⟨(hslots x).mp hx, rfl⟩⟩⟩
  · rw [hempty]
    exact Evacuated.init H
  · rw [hempty]
    exact Evacuated.closed_init H

section

variable (h : Evacuating H m copies pending)
include h

theorem reaches : ∀ p ∈ copies, H.Reaches p.1 := by
  obtain ⟨virtual, hv, -⟩ := h.evacuated
  exact hv.reaches

theorem mem_objects : ∀ p ∈ copies, p.1 ∈ H.objects :=
  fun p hp => H.reaches_mem _ (h.reaches p hp)

theorem copies_nodup : (copies.map Prod.fst).Nodup := by
  obtain ⟨virtual, hv, -⟩ := h.evacuated
  exact hv.nodup

theorem read (hx : x ∈ pending) (hslot : H.IsSlot copies x x0) : m x = H.memory x0 := by
  obtain ⟨virtual, hv, hagree⟩ := h.evacuated
  rw [hagree x (hslot.relevant h.mem_objects)]
  exact hv.todo x x0 hslot fun hsettled => hsettled.2 hx

/-- The header of an object that has been evacuated, and of another one. -/
theorem header :
    (∀ p ∈ copies, m p.1 = H.forward p.2) ∧
      ∀ o ∈ H.objects, o ∉ copies.map Prod.fst → m o = H.memory o := by
  obtain ⟨virtual, hv, hagree⟩ := h.evacuated
  constructor
  · intro p hp
    have ho := h.mem_objects p hp
    have hpos := H.size_pos _ ho
    rw [hagree p.1 (.inr (.inl ⟨p.1, ho, le_rfl, by omega⟩))]
    exact hv.header p hp
  · intro o ho hnot
    have hpos := H.size_pos o ho
    rw [hagree o (.inr (.inl ⟨o, ho, le_rfl, by omega⟩))]
    exact hv.originals o ho 0 hpos fun _ => hnot

theorem body {o k : ℕ} (ho : o ∈ H.objects) (hk : k < H.size o) (hpos : 0 < k) :
    m (o + k) = H.memory (o + k) := by
  obtain ⟨virtual, hv, hagree⟩ := h.evacuated
  rw [hagree (o + k) (.inr (.inl ⟨o, ho, by omega, by omega⟩))]
  exact hv.originals o ho k hk fun hzero => absurd hzero hpos.ne'

theorem contents {p : ℕ × ℕ} (hp : p ∈ copies) {k : ℕ} (hk : k < H.size p.1)
    (hoff : k ∉ H.offsets p.1) : m (p.2 + k) = H.memory (p.1 + k) := by
  obtain ⟨virtual, hv, hagree⟩ := h.evacuated
  rw [hagree (p.2 + k) (.inr (.inr ⟨p, hp, by omega, by omega⟩))]
  exact hv.contents p hp k hk hoff

/-- **Writing elsewhere**. -/
theorem write (heq : ∀ x, H.Relevant copies x → m' x = m x) : Evacuating H m' copies pending := by
  obtain ⟨virtual, hv, hagree⟩ := h.evacuated
  exact ⟨⟨virtual, hv, fun x hx => (heq x hx).trans (hagree x hx)⟩, h.closed, h.nodup, h.slots⟩

end

/-- **Settling a slot**: it refers to where its target is now. -/
theorem settle (h : Evacuating H m copies (x ::ₘ pending)) (hslot : H.IsSlot copies x x0)
    (htarget : H.movable (H.memory x0) = true → H.memory x0 ∈ copies.map Prod.fst) :
    Evacuating H (Function.update m x (H.redirect copies.target (H.memory x0))) copies pending := by
  obtain ⟨virtual, hv, hagree⟩ := h.evacuated
  have hnodup := Multiset.nodup_cons.mp h.nodup
  have hsettled : H.settled copies pending = insert x (H.settled copies (x ::ₘ pending)) := by
    ext y
    constructor
    · rintro ⟨hy, hnot⟩
      by_cases hyx : y = x
      · exact .inl hyx
      · exact .inr ⟨hy, by simp [hyx, hnot]⟩
    · rintro (rfl | ⟨hy, hnot⟩)
      · exact ⟨⟨x0, hslot⟩, hnodup.1⟩
      · exact ⟨hy, fun hmem => hnot (Multiset.mem_cons_of_mem hmem)⟩
  refine ⟨⟨_, hsettled ▸ hv.settle hslot, fun y hy => ?_⟩, ?_, hnodup.2, fun y hy => ?_⟩
  · by_cases hyx : y = x
    · rw [hyx, Function.update_self, Function.update_self]
    · rw [Function.update_of_ne hyx, Function.update_of_ne hyx]
      exact hagree y hy
  · rw [hsettled]
    exact hv.closed_settle h.closed hslot htarget
  · exact h.slots y (Multiset.mem_cons_of_mem hy)

/-- **Evacuating an object** whose copy has been made. -/
theorem evacuate (h : Evacuating H m copies pending) (hv : H.Reaches v)
    (hnew : v ∉ copies.map Prod.fst) (hfresh : Fresh H copies v a)
    (hoffsets : (H.offsets v).Nodup) (hcopy : ∀ k < H.size v, m (a + k) = H.memory (v + k)) :
    Evacuating H (Function.update m v (H.forward a)) (copies ++ [(v, a)])
      (pending + H.fieldsOf (v, a)) := by
  obtain ⟨virtual, hvirt, hagree⟩ := h.evacuated
  have hmem := H.reaches_mem v hv
  have hfield : ∀ k ∈ H.offsets v, a + k ∉ pending := by
    intro k hk hpending
    obtain ⟨x0, hslot⟩ := h.slots _ hpending
    have hlt := H.offsets_lt v hmem k hk
    exact (hvirt.slot_apart hfresh.slots hfresh.copies hslot).ne Nat.one_pos hlt rfl
  -- the fields of the copy are new slots, and pending
  have hsettled : H.settled (copies ++ [(v, a)]) (pending + H.fieldsOf (v, a)) =
      H.settled copies pending := by
    ext y
    constructor
    · rintro ⟨⟨y0, hy⟩, hnot⟩
      rw [Multiset.mem_add, not_or] at hnot
      rcases Evacuated.isSlot_append_cases hy with hy | ⟨k, hk, rfl, -⟩
      · exact ⟨⟨y0, hy⟩, hnot.1⟩
      · exact absurd (Multiset.mem_coe.mpr (List.mem_map_of_mem hk)) hnot.2
    · rintro ⟨⟨y0, hy⟩, hnot⟩
      refine ⟨⟨y0, hy.append _⟩, ?_⟩
      rw [Multiset.mem_add, not_or]
      refine ⟨hnot, fun hfieldy => ?_⟩
      obtain ⟨k, hk, rfl⟩ := List.mem_map.mp (Multiset.mem_coe.mp hfieldy)
      exact hvirt.new_slot_todo hmem hfresh hk ⟨⟨y0, hy⟩, hnot⟩
  refine ⟨⟨H.evacuate virtual v a, hsettled ▸ hvirt.evacuate h.closed hv hnew hfresh, ?_⟩,
    ?_, ?_, ?_⟩
  · intro y hy
    by_cases hyv : y = v
    · rw [hyv, Function.update_self, Heap.evacuate, Function.update_self]
    rw [Function.update_of_ne hyv]
    by_cases hcopied : a ≤ y ∧ y < a + H.size v
    · obtain ⟨k, rfl⟩ := Nat.exists_eq_add_of_le hcopied.1
      have hk : k < H.size v := by omega
      rw [Evacuated.evacuate_copy hmem hfresh hk, hcopy k hk]
      exact (hvirt.originals v hmem k hk fun _ => hnew).symm
    · have hold : H.Relevant copies y := by
        rcases hy with hy | hy | ⟨p, hp, hy⟩
        · exact .inl hy
        · exact .inr (.inl hy)
        · rcases List.mem_append.mp hp with hp | hp
          · exact .inr (.inr ⟨p, hp, hy⟩)
          · obtain rfl := List.mem_singleton.mp hp
            exact absurd hy hcopied
      have hapart : Apart y 1 a (H.size v) := by
        unfold Apart
        omega
      rw [Evacuated.evacuate_outside hapart hyv]
      exact hagree y hold
  · rw [hsettled]
    exact hvirt.closed_evacuate h.closed hv hfresh
  · refine Multiset.nodup_add.mpr ⟨h.nodup, ?_, ?_⟩
    · exact Multiset.coe_nodup.mpr (hoffsets.map fun i j hij => Nat.add_left_cancel hij)
    · refine Multiset.disjoint_left.mpr ?_
      intro y hy hfieldy
      obtain ⟨k, hk, rfl⟩ := List.mem_map.mp (Multiset.mem_coe.mp hfieldy)
      exact hfield k hk hy
  · intro y hy
    rcases Multiset.mem_add.mp hy with hy | hy
    · obtain ⟨y0, hy0⟩ := h.slots y hy
      exact ⟨y0, hy0.append _⟩
    · obtain ⟨k, hk, rfl⟩ := List.mem_map.mp (Multiset.mem_coe.mp hy)
      exact ⟨v + k, .inr ⟨(v, a), by simp, k, hk, rfl, rfl⟩⟩

/-- **The end**: without pending slots, the copies are the graph. -/
theorem isomorphic (h : Evacuating H m copies 0) :
    H.Isomorphic (fun _ => True) m copies.target ∧ ∀ o, H.Reaches o ↔ o ∈ copies.map Prod.fst := by
  obtain ⟨virtual, hv, hagree⟩ := h.evacuated
  have hall : ∀ s s0, H.IsSlot copies s s0 → s ∈ H.settled copies 0 :=
    fun s s0 hs => ⟨⟨s0, hs⟩, Multiset.notMem_zero s⟩
  have hiff : ∀ o, H.Reaches o ↔ o ∈ copies.map Prod.fst := fun o => hv.reaches_iff h.closed hall
  have hiso := hv.isomorphic h.closed hall
  have hword : ∀ o, H.Reaches o → ∀ k < H.size o,
      m (copies.target o + k) = virtual (copies.target o + k) := by
    intro o ho k hk
    obtain ⟨p, hp, rfl⟩ := List.mem_map.mp ((hiff o).mp ho)
    rw [Copies.target_eq hv.nodup hp]
    exact hagree _ (.inr (.inr ⟨p, hp, by omega, by omega⟩))
  refine ⟨⟨hiso.injOn, fun s hs => ?_, fun o ho k hk => ?_, fun o ho k hk hoff _ => ?_⟩, hiff⟩
  · rw [hagree s (.inl hs)]
    exact hiso.slots s hs
  · rw [hword o ho k (H.offsets_lt o (H.reaches_mem o ho) k hk)]
    exact hiso.fields o ho k hk
  · rw [hword o ho k hk]
    exact hiso.contents o ho k hk hoff trivial

end Evacuating
