import Dora.Lib.ObjectGraph

/-!
# Evacuation

A copying collector copies an object to a fresh place, leaves the new address in the header word of
the original, and redirects the slots and the reference fields of the copies. In between, some slots
hold what they held at first and the others refer to copies.

## Main definitions

* `Heap`, `Copies`: objects and slots, and where the objects have gone
* `Evacuated`: what holds at any point, whatever order the collector takes

## Main results

* `Evacuated.settle`, `Evacuated.evacuate`: one more slot is settled, one more object evacuated
* `Evacuated.isomorphic`: when all slots are settled, the copies are the graph
-/

/-- An object graph whose objects stand apart from each other and from the slots. -/
structure Heap extends ObjectGraph where
  objects : Finset ℕ
  forward : ℕ → ℕ
  reaches_mem : ∀ o, toObjectGraph.Reaches o → o ∈ objects
  offsets_pos : ∀ o ∈ objects, ∀ k ∈ offsets o, 0 < k
  offsets_lt : ∀ o ∈ objects, ∀ k ∈ offsets o, k < size o
  size_pos : ∀ o ∈ objects, 0 < size o
  objects_apart : ∀ o ∈ objects, ∀ o' ∈ objects, o ≠ o' → Apart o (size o) o' (size o')
  slots_apart : ∀ s ∈ slots, ∀ o ∈ objects, Apart s 1 o (size o)

/-- Objects that have been copied, with the addresses of their copies. -/
abbrev Copies := List (ℕ × ℕ)

/-- Where the object `v` is now. -/
def Copies.target (copies : Copies) (v : ℕ) : ℕ := (copies.lookup v).getD v

namespace Copies

open List

variable {copies : Copies} {v a : ℕ}

theorem lookup_eq_some (h : (copies.map Prod.fst).Nodup) (hv : (v, a) ∈ copies) :
    copies.lookup v = some a := by
  obtain ⟨before, after, rfl⟩ := append_of_mem hv
  refine lookup_eq_some_iff.mpr ⟨before, after, rfl, fun p hp => bne_iff_ne.mpr ?_⟩
  -- another entry for the same object would stand twice
  rintro rfl
  rw [map_append, map_cons] at h
  exact (nodup_append.mp h).2.2 _ (mem_map_of_mem hp) _ mem_cons_self rfl

theorem target_eq (h : (copies.map Prod.fst).Nodup) (hv : (v, a) ∈ copies) :
    copies.target v = a := by
  rw [target, lookup_eq_some h hv, Option.getD_some]

theorem target_append (h : v ∈ copies.map Prod.fst) (more : Copies) :
    (copies ++ more : Copies).target v = copies.target v := by
  obtain ⟨p, hp, rfl⟩ := mem_map.mp h
  have hsome : copies.lookup p.1 ≠ none := by
    intro hnone
    simpa using lookup_eq_none_iff.mp hnone p hp
  obtain ⟨a, ha⟩ := Option.ne_none_iff_exists'.mp hsome
  rw [target, target, lookup_append, ha, Option.some_or]

end Copies

namespace Heap

variable {H : Heap} {copies : Copies}

/-- The slots of the heap and the reference fields of the copies: the slot at `s` has been filled
from the word at `s0`. -/
def IsSlot (H : Heap) (copies : Copies) (s s0 : ℕ) : Prop :=
  (s ∈ H.slots ∧ s0 = s) ∨ ∃ p ∈ copies, ∃ k ∈ H.offsets p.1, s = p.2 + k ∧ s0 = p.1 + k

theorem IsSlot.append {s s0 : ℕ} (h : H.IsSlot copies s s0) (more : Copies) :
    H.IsSlot (copies ++ more) s s0 := by
  rcases h with h | ⟨p, hp, h⟩
  · exact .inl h
  · exact .inr ⟨p, List.mem_append_left _ hp, h⟩

end Heap

/-- **An evacuation in between**: the objects of `copies` have been copied and the slots of `done`
are settled. The originals are as they were but for their headers, which hold the new addresses;
a settled slot refers to where its target is now, the others hold what they held at first. -/
structure Evacuated (H : Heap) (m : Memory) (copies : Copies) (done : Set ℕ) : Prop where
  nodup : (copies.map Prod.fst).Nodup
  reaches : ∀ p ∈ copies, H.Reaches p.1
  apart : ∀ p ∈ copies, ∀ q ∈ copies, p.1 ≠ q.1 → Apart p.2 (H.size p.1) q.2 (H.size q.1)
  fresh : ∀ p ∈ copies, ∀ o ∈ H.objects, Apart p.2 (H.size p.1) o (H.size o)
  fresh_slots : ∀ p ∈ copies, ∀ s ∈ H.slots, Apart s 1 p.2 (H.size p.1)
  header : ∀ p ∈ copies, m p.1 = H.forward p.2
  originals : ∀ o ∈ H.objects, ∀ k < H.size o, (k = 0 → o ∉ copies.map Prod.fst) →
    m (o + k) = H.memory (o + k)
  contents : ∀ p ∈ copies, ∀ k < H.size p.1, k ∉ H.offsets p.1 → m (p.2 + k) = H.memory (p.1 + k)
  todo : ∀ s s0, H.IsSlot copies s s0 → s ∉ done → m s = H.memory s0
  settled : ∀ s s0, H.IsSlot copies s s0 → s ∈ done → m s = H.redirect copies.target (H.memory s0)
  known : ∀ s ∈ done, ∃ s0, H.IsSlot copies s s0
  frame : ∀ x, x ∉ H.slots → (∀ o ∈ H.objects, Apart x 1 o (H.size o)) →
    (∀ p ∈ copies, Apart x 1 p.2 (H.size p.1)) → m x = H.memory x

/-- Copy the object `v` to `a` and leave the new address in its header. -/
def Heap.evacuate (H : Heap) (m : Memory) (v a : ℕ) : Memory :=
  Function.update (m.move v a (H.size v)) v (H.forward a)

/-- At the address `a` there is room for a copy of the object `v`. -/
structure Fresh (H : Heap) (copies : Copies) (v a : ℕ) : Prop where
  objects : ∀ o ∈ H.objects, Apart a (H.size v) o (H.size o)
  slots : ∀ s ∈ H.slots, Apart s 1 a (H.size v)
  copies : ∀ p ∈ copies, Apart p.2 (H.size p.1) a (H.size v)

/-- The targets of the settled slots have all been copied. -/
def Closed (H : Heap) (copies : Copies) (done : Set ℕ) : Prop :=
  ∀ s s0, H.IsSlot copies s s0 → s ∈ done → H.movable (H.memory s0) = true →
    H.memory s0 ∈ copies.map Prod.fst

namespace Evacuated

variable {H : Heap} {m : Memory} {copies : Copies} {done : Set ℕ} {s s0 s1 v a : ℕ}

theorem init (H : Heap) : Evacuated H H.memory [] ∅ where
  nodup := List.nodup_nil
  reaches := by simp
  apart := by simp
  fresh := by simp
  fresh_slots := by simp
  header := by simp
  originals _ _ _ _ _ := rfl
  contents := by simp
  todo := by
    rintro s s0 (⟨-, rfl⟩ | ⟨p, hp, -⟩) -
    · rfl
    · simp at hp
  settled := by simp
  known := by simp
  frame _ _ _ _ := rfl

theorem closed_init (H : Heap) : Closed H [] ∅ := by
  intro s s0 _ hs
  simp at hs

section

variable (h : Evacuated H m copies done)
include h

variable {p : ℕ × ℕ} {k o : ℕ}

theorem mem_objects (hp : p ∈ copies) : p.1 ∈ H.objects := H.reaches_mem _ (h.reaches p hp)

theorem eq_of_fst {q : ℕ × ℕ} (hp : p ∈ copies) (hq : q ∈ copies) (heq : p.1 = q.1) : p = q :=
  List.inj_on_of_nodup_map h.nodup hp hq heq

/-- A span that is apart from the slots of the heap and from the copies holds no slot. -/
theorem slot_apart {b n : ℕ} (hslots : ∀ s ∈ H.slots, Apart s 1 b n)
    (hcopies : ∀ p ∈ copies, Apart p.2 (H.size p.1) b n) (hs : H.IsSlot copies s s0) :
    Apart s 1 b n := by
  rcases hs with ⟨hs, -⟩ | ⟨p, hp, k, hk, rfl, -⟩
  · exact hslots s hs
  · have hlt := H.offsets_lt _ (h.mem_objects hp) k hk
    exact (hcopies p hp).mono (by omega) (by omega)

section

variable (hs : H.IsSlot copies s s0)
include hs

theorem slot_apart_object (ho : o ∈ H.objects) :
    Apart s 1 o (H.size o) :=
  h.slot_apart (fun s hs => H.slots_apart s hs o ho) (fun p hp => h.fresh p hp o ho) hs

theorem slot_ne_content (hp : p ∈ copies) (hk : k < H.size p.1) (hoff : k ∉ H.offsets p.1) :
    s ≠ p.2 + k := by
  rcases hs with ⟨hs, -⟩ | ⟨q, hq, j, hj, rfl, -⟩
  · exact (h.fresh_slots p hp s hs).ne Nat.one_pos hk
  · have hlt := H.offsets_lt _ (h.mem_objects hq) j hj
    by_cases hpq : q.1 = p.1
    · obtain rfl := h.eq_of_fst hq hp hpq
      have hne : j ≠ k := fun he => hoff (he ▸ hj)
      omega
    · exact (h.apart q hq p hp hpq).ne hlt hk

theorem slot_unique (hs' : H.IsSlot copies s s1) : s0 = s1 := by
  rcases hs with ⟨hs, rfl⟩ | ⟨p, hp, k, hk, rfl, rfl⟩ <;>
    rcases hs' with ⟨hs', rfl⟩ | ⟨q, hq, j, hj, he, rfl⟩
  · rfl
  · have hlt := H.offsets_lt _ (h.mem_objects hq) j hj
    exact absurd he ((h.fresh_slots q hq _ hs).ne Nat.one_pos hlt)
  · have hlt := H.offsets_lt _ (h.mem_objects hp) k hk
    exact absurd rfl ((h.fresh_slots p hp _ hs').ne Nat.one_pos hlt)
  · have hltp := H.offsets_lt _ (h.mem_objects hp) k hk
    have hltq := H.offsets_lt _ (h.mem_objects hq) j hj
    by_cases hpq : p.1 = q.1
    · obtain rfl := h.eq_of_fst hp hq hpq
      omega
    · exact absurd he ((h.apart p hp q hq hpq).ne hltp hltq)

/-- **Settling a slot**: it is made to refer to where its target is now. -/
theorem settle :
    Evacuated H (Function.update m s (H.redirect copies.target (H.memory s0))) copies
      (insert s done) where
  nodup := h.nodup
  reaches := h.reaches
  apart := h.apart
  fresh := h.fresh
  fresh_slots := h.fresh_slots
  header p hp := by
    have ho := h.mem_objects hp
    have hne := (h.slot_apart_object hs ho).ne Nat.one_pos (H.size_pos _ ho)
    rw [Function.update_of_ne (by omega)]
    exact h.header p hp
  originals o ho k hk hcopied := by
    have hne := (h.slot_apart_object hs ho).ne Nat.one_pos hk
    rw [Function.update_of_ne (by omega)]
    exact h.originals o ho k hk hcopied
  contents p hp k hk hoff := by
    rw [Function.update_of_ne (h.slot_ne_content hs hp hk hoff).symm]
    exact h.contents p hp k hk hoff
  todo s' s1 hs' hnot := by
    rw [Set.mem_insert_iff, not_or] at hnot
    rw [Function.update_of_ne hnot.1]
    exact h.todo s' s1 hs' hnot.2
  settled s' s1 hs' hdone := by
    by_cases heq : s' = s
    · subst heq
      rw [Function.update_self, h.slot_unique hs hs']
    · rw [Function.update_of_ne heq]
      exact h.settled s' s1 hs' (Set.mem_of_mem_insert_of_ne hdone heq)
  known s' hdone := by
    rcases Set.mem_insert_iff.mp hdone with rfl | hdone
    · exact ⟨s0, hs⟩
    · exact h.known s' hdone
  frame x hx hobjects hcopies := by
    -- the slot is one of the heap or lies in a copy, where the frame is not
    have hne : x ≠ s := by
      rcases hs with ⟨hs, -⟩ | ⟨p, hp, k, hk, rfl, -⟩
      · exact fun he => hx (he ▸ hs)
      · have hlt := H.offsets_lt _ (h.mem_objects hp) k hk
        exact (hcopies p hp).ne Nat.one_pos hlt
    rw [Function.update_of_ne hne]
    exact h.frame x hx hobjects hcopies

end

theorem closed_settle (hc : Closed H copies done) (hs : H.IsSlot copies s s0)
    (hcopied : H.movable (H.memory s0) = true → H.memory s0 ∈ copies.map Prod.fst) :
    Closed H copies (insert s done) := by
  intro s' s1 hs' hdone hmov
  rcases Set.mem_insert_iff.mp hdone with rfl | hdone
  · obtain rfl := h.slot_unique hs hs'
    exact hcopied hmov
  · exact hc s' s1 hs' hdone hmov

omit h in
theorem evacuate_copy (hv : v ∈ H.objects) (hf : Fresh H copies v a) (hk : k < H.size v) :
    H.evacuate m v a (a + k) = m (v + k) := by
  have hne := (hf.objects v hv).ne hk (H.size_pos v hv)
  rw [Heap.evacuate, Function.update_of_ne (by omega), Memory.move_dest hk]

omit h in
theorem evacuate_outside {x : ℕ} (hx : Apart x 1 a (H.size v)) (hne : x ≠ v) :
    H.evacuate m v a x = m x := by
  rw [Heap.evacuate, Function.update_of_ne hne]
  exact Memory.move_apart hx Nat.one_pos

theorem evacuate_slot (hv : v ∈ H.objects) (hf : Fresh H copies v a) (hs : H.IsSlot copies s s0) :
    H.evacuate m v a s = m s := by
  have hne := (h.slot_apart_object hs hv).ne Nat.one_pos (H.size_pos v hv)
  exact evacuate_outside (h.slot_apart hf.slots hf.copies hs) (by omega)

theorem evacuate_copied (hv : v ∈ H.objects) (hf : Fresh H copies v a) (hp : p ∈ copies)
    (hk : k < H.size p.1) :
    H.evacuate m v a (p.2 + k) = m (p.2 + k) := by
  have hne := (h.fresh p hp v hv).ne hk (H.size_pos v hv)
  exact evacuate_outside ((hf.copies p hp).mono (by omega) (by omega)) (by omega)

omit h in
theorem evacuate_object (hf : Fresh H copies v a) (hv : v ∈ H.objects) (ho : o ∈ H.objects)
    (hk : k < H.size o) (hne : o = v → k ≠ 0) :
    H.evacuate m v a (o + k) = m (o + k) := by
  have hov : o + k ≠ v := by
    by_cases heq : o = v
    · have := hne heq
      omega
    · exact (H.objects_apart o ho v hv heq).ne hk (H.size_pos v hv)
  exact evacuate_outside ((hf.objects o ho).symm.mono (by omega) (by omega)) hov

theorem new_slot_todo (hv : v ∈ H.objects) (hf : Fresh H copies v a) (hk : k ∈ H.offsets v) :
    a + k ∉ done := by
  intro hdone
  obtain ⟨s0, hs⟩ := h.known _ hdone
  have hlt := H.offsets_lt v hv k hk
  exact (h.slot_apart hf.slots hf.copies hs).ne Nat.one_pos hlt rfl

omit h in
theorem isSlot_append_cases (hs : H.IsSlot (copies ++ [(v, a)]) s s0) :
    H.IsSlot copies s s0 ∨ ∃ k ∈ H.offsets v, s = a + k ∧ s0 = v + k := by
  rcases hs with hs | ⟨p, hp, k, hk, rfl, rfl⟩
  · exact .inl (.inl hs)
  · rcases List.mem_append.mp hp with hp | hp
    · exact .inl (.inr ⟨p, hp, k, hk, rfl, rfl⟩)
    · obtain rfl := List.mem_singleton.mp hp
      exact .inr ⟨k, hk, rfl, rfl⟩

omit h in
theorem mem_fst_append {x : ℕ} (hx : x ∈ copies.map Prod.fst) :
    x ∈ (copies ++ [(v, a)]).map Prod.fst := by
  rw [List.map_append]
  exact List.mem_append_left _ hx

section

variable (hc : Closed H copies done)
include hc

theorem closed_evacuate (hv : H.Reaches v) (hf : Fresh H copies v a) :
    Closed H (copies ++ [(v, a)]) done := by
  intro s s0 hs hdone hmov
  rcases isSlot_append_cases hs with hs | ⟨k, hk, rfl, rfl⟩
  · exact mem_fst_append (hc s s0 hs hdone hmov)
  · exact absurd hdone (h.new_slot_todo (H.reaches_mem v hv) hf hk)

/-- **Evacuating an object**: it is copied to a fresh place. -/
theorem evacuate (hv : H.Reaches v) (hnew : v ∉ copies.map Prod.fst) (hf : Fresh H copies v a) :
    Evacuated H (H.evacuate m v a) (copies ++ [(v, a)]) done := by
  have hmem := H.reaches_mem v hv
  have hall {P : ℕ × ℕ → Prop} (hold : ∀ p ∈ copies, P p) (hlast : P (v, a)) :
      ∀ p ∈ copies ++ [(v, a)], P p :=
    List.forall_mem_append.mpr ⟨hold, List.forall_mem_singleton.mpr hlast⟩
  refine ⟨?_, hall h.reaches hv, ?_, hall h.fresh hf.objects, hall h.fresh_slots hf.slots,
    hall (fun p hp => ?_) (Function.update_self ..), ?_,
    hall (fun p hp k hk hoff => ?_) fun k hk _ => ?_, ?_, ?_, ?_, ?_⟩
  · -- nodup
    rw [List.map_append]
    exact h.nodup.append (List.nodup_singleton v) (List.disjoint_singleton.mpr hnew)
  · -- apart
    exact hall (fun p hp => hall (h.apart p hp) fun _ => hf.copies p hp)
      (hall (fun q hq _ => (hf.copies q hq).symm) fun hne => absurd rfl hne)
  · -- header
    have ho := h.mem_objects hp
    have hne : p.1 ≠ v := fun he => hnew (he ▸ List.mem_map_of_mem hp)
    have hkeep := evacuate_object (m := m) hf hmem ho (H.size_pos _ ho) fun he => absurd he hne
    exact hkeep.trans (h.header p hp)
  · -- originals
    intro o ho k hk hcopied
    rw [List.map_append, List.mem_append, not_or] at hcopied
    rw [evacuate_object hf hmem ho hk]
    · exact h.originals o ho k hk fun hk => (hcopied hk).1
    · rintro rfl rfl
      exact (hcopied rfl).2 (List.mem_singleton.mpr rfl)
  · -- contents of the earlier copies
    rw [h.evacuate_copied hmem hf hp hk]
    exact h.contents p hp k hk hoff
  · -- contents of the new one
    rw [evacuate_copy hmem hf hk]
    exact h.originals v hmem k hk fun _ => hnew
  · -- todo
    intro s s0 hs hnot
    rcases isSlot_append_cases hs with hs | ⟨k, hk, rfl, rfl⟩
    · rw [h.evacuate_slot hmem hf hs]
      exact h.todo s s0 hs hnot
    · have hlt := H.offsets_lt v hmem k hk
      rw [evacuate_copy hmem hf hlt]
      exact h.originals v hmem k hlt fun _ => hnew
  · -- settled
    intro s s0 hs hdone
    rcases isSlot_append_cases hs with hs | ⟨k, hk, rfl, rfl⟩
    · rw [h.evacuate_slot hmem hf hs, h.settled s s0 hs hdone]
      -- a target that has been copied before stays where it is
      unfold ObjectGraph.redirect
      split_ifs with hmov
      · rw [Copies.target_append (hc s s0 hs hdone hmov)]
      · rfl
    · exact absurd hdone (h.new_slot_todo hmem hf hk)
  · -- known
    intro s hdone
    obtain ⟨s0, hs⟩ := h.known s hdone
    exact ⟨s0, hs.append _⟩
  · -- frame
    intro x hx hobjects hcopies
    have hne := (hobjects v hmem).ne Nat.one_pos (H.size_pos v hmem)
    rw [evacuate_outside (hcopies (v, a) (by simp)) (by omega)]
    exact h.frame x hx hobjects fun p hp => hcopies p (List.mem_append_left _ hp)

/-- When all slots are settled, the copied objects are the reachable ones. -/
theorem reaches_iff (hall : ∀ s s0, H.IsSlot copies s s0 → s ∈ done) :
    H.Reaches o ↔ o ∈ copies.map Prod.fst := by
  constructor
  · intro ho
    refine ho.subset ?_ ?_
    · intro s hs hmov
      exact hc s s (.inl ⟨hs, rfl⟩) (hall s s (.inl ⟨hs, rfl⟩)) hmov
    · intro o _ hcopied k hk hmov
      obtain ⟨p, hp, rfl⟩ := List.mem_map.mp hcopied
      have hslot : H.IsSlot copies (p.2 + k) (p.1 + k) := .inr ⟨p, hp, k, hk, rfl, rfl⟩
      exact hc _ _ hslot (hall _ _ hslot) hmov
  · intro ho
    obtain ⟨p, hp, rfl⟩ := List.mem_map.mp ho
    exact h.reaches p hp

/-- **When all slots are settled**, the copies are the graph. -/
theorem isomorphic (hall : ∀ s s0, H.IsSlot copies s s0 → s ∈ done) :
    H.Isomorphic (fun _ => True) m copies.target := by
  have hcopy : ∀ o, H.Reaches o → (o, copies.target o) ∈ copies := by
    intro o ho
    obtain ⟨p, hp, rfl⟩ := List.mem_map.mp ((h.reaches_iff hc hall).mp ho)
    rw [Copies.target_eq h.nodup hp]
    exact hp
  refine ⟨?_, ?_, ?_, ?_⟩
  · intro o ho o' ho' heq
    by_contra hne
    have hpos := H.size_pos o (H.reaches_mem o ho)
    have hpos' := H.size_pos o' (H.reaches_mem o' ho')
    exact (h.apart _ (hcopy o ho) _ (hcopy o' ho') hne).ne hpos hpos' (congrArg (· + 0) heq)
  · intro s hs
    exact h.settled s s (.inl ⟨hs, rfl⟩) (hall s s (.inl ⟨hs, rfl⟩))
  · intro o ho k hk
    have hslot : H.IsSlot copies (copies.target o + k) (o + k) :=
      .inr ⟨_, hcopy o ho, k, hk, rfl, rfl⟩
    exact h.settled _ _ hslot (hall _ _ hslot)
  · intro o ho k hk hoff _
    exact h.contents _ (hcopy o ho) k hk hoff

end

end

end Evacuated
