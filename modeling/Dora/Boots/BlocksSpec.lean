import Dora.Boots.ControlFlow

/-!
# The first pass creates the blocks

The blocks that exist after a part of the code are those with a reason in that part: a loop that
starts there, a forward jump that has been registered for an instruction in it, or an instruction
that breaks off before them.

## Main definitions

* `Created`: the offsets with such a reason
* `BlockCreator.Inv`: what holds between two rounds

## Main results

* `BlockCreator.round_eq`: a round only looks at the control flow
* `BlockCreator.exists_pass`, `BlockCreator.inv_pass`: the pass gets through, and creates them
-/

namespace Dora.Boots

open Stdlib (BitSet)
open Stdlib.Words (Mem)
open List BlockCreator BlockMap

attribute [local simp] Flow.forward

namespace BlockMap

variable {m : BlockMap}

theorem blockAt_eq_some (h : (m.blocks.map Prod.fst).Nodup) {o : ℤ} {id : ℕ} :
    m.blockAt o = some id ↔ (o, id) ∈ m.blocks := by
  obtain ⟨blocks⟩ := m
  simp only [blockAt] at h ⊢
  induction blocks with
  | nil => simp
  | cons b blocks ih =>
    obtain ⟨o', id'⟩ := b
    rw [map_cons, nodup_cons] at h
    rw [lookup_cons, mem_cons]
    by_cases heq : o = o'
    · subst heq
      have hnot : (o, id) ∉ blocks := fun hmem => h.1 (mem_map.mpr ⟨_, hmem, rfl⟩)
      simp [hnot, eq_comm]
    · have hne : (o == o') = false := by simpa using heq
      simp only [hne, Prod.mk.injEq, heq, false_and, false_or]
      exact ih h.2

end BlockMap

namespace BlockCreator

variable (bc : BytecodeFunction)

/-- A round, on the control flow of an instruction. -/
def step (c : BlockCreator) (n : Node) : Option BlockCreator := do
  let c ← c.instructionStart bc n.start
  match n.flow with
  | .next => some c
  | .loopStart => (ensureBlock bc n.start c).map Prod.snd
  | .ret => (ensureBlock bc n.stop c).map Prod.snd
  | .loop t => if (c.blockMap.blockAt t).isSome then some c else none
  | .branch t | .jump t => do
    let c ← ensureBlockLazy t c
    (ensureBlock bc n.stop c).map Prod.snd

/-- **A round only looks at the control flow.** -/
theorem round_eq (c : BlockCreator) (info : BytecodeInstructionInfo) :
    round bc c info = (Node.ofInfo bc info).bind (step bc c) := by
  obtain ⟨start, opcode, size, inst⟩ := info
  cases inst
  case jumpConst idx | jumpIfFalseConst opnd idx | jumpIfTrueConst opnd idx =>
    cases hd : bc.constInt32At idx <;>
      cases hc : c.instructionStart bc start <;>
      simp [round, Node.ofInfo, flowAt, step, processInstruction, hd, Node.stop, Option.map_eq_bind]
  all_goals
    cases hc : c.instructionStart bc start <;>
      simp [round, Node.ofInfo, flowAt, step, processInstruction, Node.stop, Option.map_eq_bind]

/-! ## The table of the blocks -/

/-- **The blocks of the graph are those of the map**, each at one offset, and without edges. -/
structure Tabled (c : BlockCreator) : Prop where
  ids : c.blockMap.blocks.map Prod.snd = (List.range c.graph.blocks.length).reverse
  keys : (c.blockMap.blocks.map Prod.fst).Nodup
  linked : c.graph.Linked
  edges : c.graph.edges = []
  small : c.graph.blocks.length < 2 ^ 31

/-- The offsets of the blocks. -/
def offsets (c : BlockCreator) : List ℤ := c.blockMap.blocks.map Prod.fst

namespace Tabled

variable {bc} {c c' : BlockCreator}

section

variable (h : Tabled c)
include h

theorem blockAt {o : ℤ} : (∃ id, c.blockMap.blockAt o = some id) ↔ o ∈ c.offsets := by
  rw [offsets, mem_map]
  constructor
  · rintro ⟨id, hid⟩
    exact ⟨_, (blockAt_eq_some h.keys).mp hid, rfl⟩
  · rintro ⟨⟨o', id⟩, hmem, rfl⟩
    exact ⟨id, (blockAt_eq_some h.keys).mpr hmem⟩

theorem lt_iff (id : ℕ) : id < c.graph.blocks.length ↔ ∃ o, c.blockMap.blockAt o = some id := by
  have hmem : id ∈ c.blockMap.blocks.map Prod.snd ↔ id < c.graph.blocks.length := by
    rw [h.ids, mem_reverse, mem_range]
  rw [← hmem, mem_map]
  constructor
  · rintro ⟨⟨o, id'⟩, hb, rfl⟩
    exact ⟨o, (blockAt_eq_some h.keys).mpr hb⟩
  · rintro ⟨o, ho⟩
    exact ⟨_, (blockAt_eq_some h.keys).mp ho, rfl⟩

theorem unique {o o' : ℤ} {id : ℕ} (ho : c.blockMap.blockAt o = some id)
    (ho' : c.blockMap.blockAt o' = some id) : o = o' := by
  have hnodup : (c.blockMap.blocks.map Prod.snd).Nodup := by
    rw [h.ids, nodup_reverse]
    exact nodup_range
  rw [blockAt_eq_some h.keys] at ho ho'
  exact congrArg Prod.fst (inj_on_of_nodup_map hnodup ho ho' rfl)

theorem length_offsets : c.offsets.length = c.graph.blocks.length := by
  have hlen := congrArg List.length h.ids
  rw [length_map, length_reverse, length_range] at hlen
  rw [offsets, length_map, hlen]

/-- What `ensureBlock` has done. -/
theorem ensureBlock {o : ℤ} {block : Option ℕ}
    (he : BlockCreator.ensureBlock bc o c = some (block, c')) :
    Tabled c' ∧ c'.blockStarts = c.blockStarts ∧ c'.graph.entryBlock = c.graph.entryBlock ∧
      (∀ o', o' ∈ c'.offsets ↔ o' ∈ c.offsets ∨ (o' = o ∧ o < bc.code.length)) ∧
      ∀ o' id, c.blockMap.blockAt o' = some id → c'.blockMap.blockAt o' = some id := by
  unfold BlockCreator.ensureBlock at he
  split at he
  · next hle =>
    split at he
    · next hend =>
      cases he
      refine ⟨h, rfl, rfl, fun o' => ?_, fun _ _ hid => hid⟩
      exact ⟨.inl, fun ho' => ho'.resolve_right fun ⟨_, hlt⟩ => absurd hend (ne_of_lt hlt)⟩
    · next hend =>
      cases hb : c.blockMap.blockAt o with
      | some id =>
        simp only [hb] at he
        cases he
        have hmem := h.blockAt.mp ⟨id, hb⟩
        exact ⟨h, rfl, rfl, fun o' => ⟨.inl, fun ho' => ho'.elim (fun h => h) fun h => h.1 ▸ hmem⟩,
          fun _ _ hid => hid⟩
      | none =>
        simp only [hb] at he
        obtain ⟨⟨id, g⟩, hg, he⟩ := Option.bind_eq_some_iff.mp he
        cases he
        obtain ⟨hsmall, rfl, rfl⟩ := Graph.addBlock_eq_some hg
        have hnot : o ∉ c.offsets := fun hmem => by
          obtain ⟨id, hid⟩ := h.blockAt.mpr hmem
          exact nomatch hb.symm.trans hid
        have hkeys : (List.map Prod.fst ((o, c.graph.blocks.length) :: c.blockMap.blocks)).Nodup :=
          nodup_cons.mpr ⟨hnot, h.keys⟩
        refine ⟨⟨?_, hkeys, h.linked.addBlock hg, h.edges, ?_⟩, rfl, rfl, fun o' => ?_,
          fun o' id hid => ?_⟩
        · simp only [BlockMap.insert, map_cons, h.ids, length_append, length_singleton]
          rw [range_succ, reverse_append]
          rfl
        · simpa using hsmall
        · have hlt : o < bc.code.length := lt_of_le_of_ne hle hend
          simp only [offsets, BlockMap.insert, map_cons, mem_cons]
          exact ⟨fun h => h.symm.imp_right fun h => ⟨h, hlt⟩, fun h => h.symm.imp_left And.left⟩
        · rw [BlockMap.blockAt_eq_some h.keys] at hid
          exact (BlockMap.blockAt_eq_some hkeys).mpr (mem_cons_of_mem _ hid)
  · cases he

theorem exists_ensureBlock {o : ℤ} (hle : o ≤ bc.code.length)
    (hroom : o ∉ c.offsets → o < bc.code.length → c.graph.blocks.length + 1 < 2 ^ 31) :
    ∃ block c', BlockCreator.ensureBlock bc o c = some (block, c') := by
  unfold BlockCreator.ensureBlock
  rw [if_pos hle]
  split
  · exact ⟨_, _, rfl⟩
  · next hend =>
    cases hb : c.blockMap.blockAt o with
    | some id => exact ⟨_, _, rfl⟩
    | none =>
      have hnot : o ∉ c.offsets := fun hmem => by
        obtain ⟨id, hid⟩ := h.blockAt.mpr hmem
        exact nomatch hb.symm.trans hid
      rw [Graph.addBlock, if_pos (hroom hnot (lt_of_le_of_ne hle hend))]
      exact ⟨_, _, rfl⟩

end

end Tabled

end BlockCreator

/-! ## The pass over the code -/

/-- The instruction breaks off, and the next one gets a block. -/
@[simp]
def Flow.breaks : Flow → Bool
  | .ret | .branch _ | .jump _ => true
  | _ => false

/-- **The offsets that get a block** in a part of the code. -/
def Created (len : ℕ) (done : List Node) (o : ℕ) : Prop :=
  o = 0 ∨ (∃ n ∈ done, n.flow = .loopStart ∧ n.start = o) ∨
    (∃ n ∈ done, n.flow.breaks ∧ n.stop = o ∧ o < len) ∨
    ∃ n ∈ done, n.start = o ∧ ∃ n' ∈ done, n'.flow.forward = some (o : ℤ)

/-- Which blocks one more instruction adds. -/
theorem created_append {len : ℕ} {done : List Node} {n : Node}
    (hstart : ∀ n' ∈ done, n'.start < n.start)
    (hforward : ∀ t, n.flow.forward = some t → n.start < t) (o : ℕ) :
    Created len (done ++ [n]) o ↔ Created len done o ∨
      (o = n.start ∧ ∃ n' ∈ done, n'.flow.forward = some (o : ℤ)) ∨
      (n.flow = .loopStart ∧ n.start = o) ∨ (n.flow.breaks ∧ n.stop = o ∧ o < len) := by
  have hlast : (∃ n1 ∈ done ++ [n], n1.start = o ∧
        ∃ n' ∈ done ++ [n], n'.flow.forward = some (o : ℤ)) ↔
      (∃ n1 ∈ done, n1.start = o ∧ ∃ n' ∈ done, n'.flow.forward = some o) ∨
        (o = n.start ∧ ∃ n' ∈ done, n'.flow.forward = some o) := by
    constructor
    · rintro ⟨n1, hn1, rfl, n', hn', ht⟩
      -- The jump is not the new instruction, which only leads behind itself.
      have hmem : n' ∈ done := by
        rcases mem_append.mp hn' with hn' | hn'
        · exact hn'
        · obtain rfl := mem_singleton.mp hn'
          have hlt := hforward _ ht
          rcases mem_append.mp hn1 with hn1 | hn1
          · have := hstart _ hn1
            omega
          · obtain rfl := mem_singleton.mp hn1
            omega
      rcases mem_append.mp hn1 with hn1 | hn1
      · exact .inl ⟨n1, hn1, rfl, n', hmem, ht⟩
      · obtain rfl := mem_singleton.mp hn1
        exact .inr ⟨rfl, n', hmem, ht⟩
    · rintro (⟨n1, hn1, ho, n', hn', ht⟩ | ⟨rfl, n', hn', ht⟩)
      · exact ⟨n1, mem_append_left _ hn1, ho, n', mem_append_left _ hn', ht⟩
      · exact ⟨n, by simp, rfl, n', mem_append_left _ hn', ht⟩
  have hloop (p : Node → Prop) : (∃ n1 ∈ done ++ [n], p n1) ↔ (∃ n1 ∈ done, p n1) ∨ p n := by
    simp only [mem_append, mem_singleton, or_and_right, exists_or, exists_eq_left]
  rw [Created, Created, hlast, hloop, hloop]
  constructor
  · rintro (h | (h | h) | (h | h) | (h | h))
    · exact .inl (.inl h)
    · exact .inl (.inr (.inl h))
    · exact .inr (.inr (.inl h))
    · exact .inl (.inr (.inr (.inl h)))
    · exact .inr (.inr (.inr h))
    · exact .inl (.inr (.inr (.inr h)))
    · exact .inr (.inl h)
  · rintro ((h | h | h | h) | h | h | h)
    · exact .inl h
    · exact .inr (.inl (.inl h))
    · exact .inr (.inr (.inl (.inl h)))
    · exact .inr (.inr (.inr (.inl h)))
    · exact .inr (.inr (.inr (.inr h)))
    · exact .inr (.inl (.inr h))
    · exact .inr (.inr (.inl (.inr h)))

theorem mem_leaders {nodes : List Node} {o : ℕ} :
    o ∈ leaders nodes ↔ (∃ n ∈ nodes, n.start = o) ∧ isLeader nodes o := by
  rw [leaders, mem_filter, mem_map]

theorem isLeader_iff {nodes : List Node} {o : ℕ} : isLeader nodes o = true ↔ o = 0 ∨
    ∃ n ∈ nodes, n.flow.target = some (o : ℤ) ∨ (n.flow = .loopStart ∧ n.start = o) ∨
      (n.flow.ends = true ∧ n.stop = o) := by
  simp [isLeader, or_assoc]

/-- What follows a loop is a loop, or the target of a jump. -/
def LoopsFollowed (nodes : List Node) : Prop :=
  ∀ n ∈ nodes, ∀ t, n.flow = .loop t → ∀ n' ∈ nodes, n'.start = n.stop →
    n'.flow = .loopStart ∨ ∃ n'' ∈ nodes, n''.flow.forward = some (n.stop : ℤ)

section Shaped

variable {len : ℕ} {nodes : List Node}

theorem leader_of_created (h : Shaped len nodes) (hne : 0 < len) {done : List Node}
    (hdone : ∀ n ∈ done, n ∈ nodes) {o : ℕ} (ho : Created len done o) : o ∈ leaders nodes := by
  rw [mem_leaders, isLeader_iff]
  rcases ho with rfl | ⟨n, hn, hflow, rfl⟩ | ⟨n, hn, hb, rfl, hlt⟩ | ⟨n, hn, rfl, n', hn', ht⟩
  · cases nodes with
    | nil => exact absurd h.contiguous (ne_of_lt hne)
    | cons n nodes => exact ⟨⟨n, by simp, h.contiguous.1⟩, .inl rfl⟩
  · exact ⟨⟨n, hdone n hn, rfl⟩, .inr ⟨n, hdone n hn, .inr (.inl ⟨hflow, rfl⟩)⟩⟩
  · refine ⟨h.contiguous.exists_start (hdone n hn) hlt, .inr ⟨n, hdone n hn, .inr (.inr ⟨?_, rfl⟩)⟩⟩
    cases hf : n.flow <;> simp [hf, Flow.ends] at hb ⊢
  · exact ⟨⟨n, hdone n hn, rfl⟩, .inr ⟨n', hdone n' hn', .inl (Flow.target_of_forward ht)⟩⟩

/-- **The leaders get a block** if what follows a loop gets one for another reason. -/
theorem created_of_leader (h : Shaped len nodes) (hloops : LoopsFollowed nodes) {o : ℕ}
    (ho : o ∈ leaders nodes) : Created len nodes o := by
  rw [mem_leaders, isLeader_iff] at ho
  obtain ⟨⟨m, hm, rfl⟩, h0 | ⟨n, hn, htarget | ⟨hflow, hstart⟩ | ⟨hends, hstop⟩⟩⟩ := ho
  · exact .inl h0
  · cases hf : n.flow with
    | next | loopStart | ret => simp [hf, Flow.target] at htarget
    | loop t =>
      obtain ⟨-, n', hn', rfl, hflow⟩ := h.loops n hn t hf
      rw [hf] at htarget
      have heq : (n'.start : ℤ) = m.start := Option.some.inj htarget
      exact .inr (.inl ⟨n', hn', hflow, by omega⟩)
    | branch t | jump t =>
      exact .inr (.inr (.inr ⟨m, hm, rfl, n, hn, by rw [hf] at htarget ⊢; exact htarget⟩))
  · exact .inr (.inl ⟨n, hn, hflow, hstart⟩)
  · have hlt : m.start < len := by
      have hb := h.contiguous.bounds hm
      omega
    by_cases hb : n.flow.breaks
    · exact .inr (.inr (.inl ⟨n, hn, hb, hstop, hlt⟩))
    · obtain ⟨t, ht⟩ : ∃ t, n.flow = .loop t := by
        cases hf : n.flow <;> simp [hf, Flow.ends] at hb hends ⊢
      rcases hloops n hn t ht m hm hstop.symm with hm' | ⟨n'', hn'', hforward⟩
      · exact .inr (.inl ⟨m, hm, hm', rfl⟩)
      · exact .inr (.inr (.inr ⟨m, hm, rfl, n'', hn'', hstop ▸ hforward⟩))

theorem loopsFollowed_of_created (h : Shaped len nodes)
    (hloops : ∀ n ∈ nodes, ∀ t, n.flow = .loop t → ∀ n' ∈ nodes, n'.start = n.stop →
      Created len nodes n'.start) : LoopsFollowed nodes := by
  intro n hn t ht n' hn' hstart
  have hpos := h.contiguous.bounds hn
  rcases hloops n hn t ht n' hn' hstart with h0 | ⟨n1, hn1, hflow, hs⟩ | ⟨n1, hn1, hb, hstop, -⟩ |
    ⟨n1, hn1, -, n2, hn2, hforward⟩
  · omega
  · exact .inl (h.contiguous.eq_of_start hn1 hn' hs ▸ hflow)
  · -- The instruction before is the loop.
    obtain rfl := h.contiguous.eq_of_stop hn1 hn (hstop.trans hstart)
    simp [ht] at hb
  · exact .inr ⟨n2, hn2, hstart ▸ hforward⟩

end Shaped

namespace BlockCreator

/-- **The state after a part of the code.** -/
structure Inv (bc : BytecodeFunction) (done : List Node) (c : BlockCreator) : Prop where
  tabled : Tabled c
  capacity : c.blockStarts.capacity = bc.code.length
  starts : ∀ o : ℕ, Mem c.blockStarts.data o ↔ ∃ n ∈ done, n.flow.forward = some (o : ℤ)
  offsets : ∀ o : ℤ, o ∈ c.offsets ↔ ∃ o' : ℕ, o = o' ∧ Created bc.code.length done o'
  entry : c.graph.entryBlock = c.blockMap.blockAt 0

variable {bc : BytecodeFunction} {c c' : BlockCreator} {done : List Node} {n : Node}

theorem Inv.instructionStart (h : Inv bc done c) (hlt : n.start < bc.code.length)
    (hc : c.instructionStart bc n.start = some c') :
    Tabled c' ∧ c'.blockStarts = c.blockStarts ∧ c'.graph.entryBlock = c'.blockMap.blockAt 0 ∧
      ∀ o : ℤ, o ∈ c'.offsets ↔ o ∈ c.offsets ∨
        (o = n.start ∧ ∃ n' ∈ done, n'.flow.forward = some (n.start : ℤ)) := by
  have hlt' : n.start < c.blockStarts.capacity := h.capacity ▸ hlt
  unfold BlockCreator.instructionStart at hc
  rw [BitSet.contains_eq hlt', Option.bind_eq_bind, Option.bind_some] at hc
  by_cases hmem : Mem c.blockStarts.data n.start
  · rw [decide_eq_true hmem, if_pos rfl] at hc
    obtain ⟨⟨block, c1⟩, he, hc⟩ := Option.bind_eq_some_iff.mp hc
    cases hc
    obtain ⟨ht, hs, hentry, ho, hkeep⟩ := h.tabled.ensureBlock he
    refine ⟨ht, hs, ?_, fun o => ?_⟩
    · obtain ⟨id, hid⟩ := h.tabled.blockAt.mpr ((h.offsets 0).mpr ⟨0, rfl, .inl rfl⟩)
      rw [hentry, h.entry, hid, hkeep _ _ hid]
    · rw [ho, ← h.starts]
      have hlt'' : (n.start : ℤ) < bc.code.length := by omega
      exact or_congr_right (and_congr_right fun _ => ⟨fun _ => hmem, fun _ => hlt''⟩)
  · rw [decide_eq_false hmem, if_neg Bool.false_ne_true] at hc
    cases hc
    refine ⟨h.tabled, rfl, h.entry, fun o => ?_⟩
    rw [← h.starts]
    exact ⟨.inl, fun ho => ho.resolve_right fun ⟨_, hm⟩ => hmem hm⟩

theorem Inv.append (h : Inv bc done c) (ht : Tabled c')
    (hcap : c'.blockStarts.capacity = c.blockStarts.capacity)
    (hentry : c'.graph.entryBlock = c'.blockMap.blockAt 0)
    (hstart : ∀ n' ∈ done, n'.start < n.start)
    (hforward : ∀ t, n.flow.forward = some t → n.start < t)
    (hstarts : ∀ o : ℕ, Mem c'.blockStarts.data o ↔
      Mem c.blockStarts.data o ∨ n.flow.forward = some (o : ℤ))
    (hoffsets : ∀ o : ℤ, o ∈ c'.offsets ↔ (o ∈ c.offsets ∨
      (o = n.start ∧ ∃ n' ∈ done, n'.flow.forward = some (n.start : ℤ))) ∨
      (n.flow = .loopStart ∧ o = n.start) ∨
      (n.flow.breaks ∧ o = n.stop ∧ n.stop < bc.code.length)) : Inv bc (done ++ [n]) c' := by
  refine ⟨ht, hcap.trans h.capacity, fun o => ?_, fun o => ?_, hentry⟩
  · rw [hstarts, h.starts]
    simp only [mem_append, mem_singleton, or_and_right, exists_or, exists_eq_left]
  · rw [hoffsets, h.offsets]
    constructor
    · rintro ((⟨o', rfl, ho⟩ | ⟨rfl, ho⟩) | ⟨hl, rfl⟩ | ⟨hb, rfl, hlt⟩)
      · exact ⟨o', rfl, (created_append hstart hforward o').mpr (.inl ho)⟩
      · exact ⟨_, rfl, (created_append hstart hforward _).mpr (.inr (.inl ⟨rfl, ho⟩))⟩
      · exact ⟨_, rfl, (created_append hstart hforward _).mpr (.inr (.inr (.inl ⟨hl, rfl⟩)))⟩
      · exact ⟨_, rfl, (created_append hstart hforward _).mpr (.inr (.inr (.inr ⟨hb, rfl, hlt⟩)))⟩
    · rintro ⟨o', rfl, ho⟩
      rcases (created_append hstart hforward o').mp ho with ho | ⟨rfl, ho⟩ | ⟨hl, rfl⟩ |
        ⟨hb, rfl, hlt⟩
      · exact .inl (.inl ⟨o', rfl, ho⟩)
      · exact .inl (.inr ⟨rfl, ho⟩)
      · exact .inr (.inl ⟨hl, rfl⟩)
      · exact .inr (.inr ⟨hb, rfl, hlt⟩)

theorem entry_ensureBlock {o : ℤ} {block : Option ℕ} (ht : Tabled c) (hzero : (0 : ℤ) ∈ c.offsets)
    (hentry : c.graph.entryBlock = c.blockMap.blockAt 0)
    (he : ensureBlock bc o c = some (block, c')) :
    c'.graph.entryBlock = c'.blockMap.blockAt 0 := by
  obtain ⟨-, -, hentry', -, hkeep⟩ := ht.ensureBlock he
  obtain ⟨id, hid⟩ := ht.blockAt.mpr hzero
  rw [hentry', hentry, hid, hkeep _ _ hid]

/-- **A round** keeps the invariant. -/
theorem Inv.step (h : Inv bc done c) (hlt : n.start < bc.code.length)
    (hstart : ∀ n' ∈ done, n'.start < n.start)
    (hforward : ∀ t, n.flow.forward = some t → n.start < t)
    (hs : step bc c n = some c') : Inv bc (done ++ [n]) c' := by
  obtain ⟨c1, h1, hs⟩ := Option.bind_eq_some_iff.mp hs
  obtain ⟨ht1, hs1, hentry1, ho1⟩ := h.instructionStart hlt h1
  have hzero : 0 ∈ c1.offsets := (ho1 0).mpr (.inl ((h.offsets 0).mpr ⟨0, rfl, .inl rfl⟩))
  cases hflow : n.flow with
  | next =>
    simp only [hflow] at hs
    cases hs
    refine h.append ht1 (by rw [hs1]) hentry1 hstart hforward (fun o => ?_) fun o => ?_
    · simp [hs1, hflow]
    · simp [ho1, hflow]
  | loop t =>
    simp only [hflow] at hs
    split at hs
    · cases hs
      refine h.append ht1 (by rw [hs1]) hentry1 hstart hforward (fun o => ?_) fun o => ?_
      · simp [hs1, hflow]
      · simp [ho1, hflow]
    · cases hs
  | loopStart | ret =>
    simp only [hflow] at hs
    obtain ⟨⟨block, c2⟩, he, rfl⟩ := Option.map_eq_some_iff.mp hs
    obtain ⟨ht2, hs2, -, ho2, -⟩ := ht1.ensureBlock he
    refine h.append ht2 (by rw [hs2, hs1]) (entry_ensureBlock ht1 hzero hentry1 he) hstart hforward
      (fun o => ?_) fun o => ?_
    · simp [hs2, hs1, hflow]
    · simp [ho2, ho1, hflow, hlt]
  | branch t | jump t =>
    simp only [hflow] at hs
    obtain ⟨c2, hlazy, hs⟩ := Option.bind_eq_some_iff.mp hs
    obtain ⟨starts, hins, hlazy⟩ := Option.bind_eq_some_iff.mp hlazy
    cases hlazy
    obtain ⟨-, -, hcap, hmem⟩ := BitSet.mem_of_insert hins
    have ht2 : Tabled ⟨c1.graph, c1.blockMap, starts⟩ := ⟨ht1.1, ht1.2, ht1.3, ht1.4, ht1.5⟩
    obtain ⟨⟨block, c3⟩, he, rfl⟩ := Option.map_eq_some_iff.mp hs
    obtain ⟨ht3, hs3, -, ho3, -⟩ := ht2.ensureBlock he
    refine h.append ht3 (by rw [hs3, hcap, hs1]) (entry_ensureBlock ht2 hzero hentry1 he) hstart
      hforward (fun o => ?_) fun o => ?_
    · rw [hs3, hmem, hs1, hflow, or_comm]
      simp [eq_comm]
    · rw [ho3]
      have hsame : o ∈ BlockCreator.offsets ⟨c1.graph, c1.blockMap, starts⟩ ↔
        o ∈ c1.offsets := Iff.rfl
      rw [hsame, ho1, hflow]
      simp

theorem Tabled.exists_leader (bc : BytecodeFunction) (h : Tabled c) {nodes : List Node}
    (hsub : ∀ o ∈ c.offsets, ∃ o' ∈ leaders nodes, o = o')
    (hsmall : (leaders nodes).length < 2 ^ 31) {o : ℕ} (hle : o ≤ bc.code.length)
    (ho : o < bc.code.length → o ∈ leaders nodes) :
    ∃ block c', BlockCreator.ensureBlock bc o c = some (block, c') := by
  refine h.exists_ensureBlock (by omega) fun hnot hlt => ?_
  have hsub' : (o : ℤ) :: c.offsets ⊆ (leaders nodes).map Int.ofNat := by
    intro o' ho'
    rcases mem_cons.mp ho' with rfl | ho'
    · exact mem_map_of_mem (ho (by omega))
    · obtain ⟨o', hleader, rfl⟩ := hsub o' ho'
      exact mem_map_of_mem hleader
  have hnodup : ((o : ℤ) :: c.offsets).Nodup := nodup_cons.mpr ⟨hnot, h.keys⟩
  have hcard := (hnodup.subperm hsub').length_le
  rw [length_cons, length_map, h.length_offsets] at hcard
  omega

theorem starts_lt {len : ℕ} {nodes after : List Node} (hshape : Shaped len nodes)
    (hnodes : nodes = done ++ n :: after) : ∀ n' ∈ done, n'.start < n.start := by
  intro n' hn'
  obtain ⟨mid, hbefore, hafter⟩ := (hnodes ▸ hshape.contiguous).append
  have hb := hbefore.bounds hn'
  have hstart := hafter.1
  omega

section Progress

variable {nodes after : List Node} (hshape : Shaped bc.code.length nodes)
  (hsmall : (leaders nodes).length < 2 ^ 31)

include hshape hsmall

/-- **A round does not fail.** -/
theorem Inv.exists_step (h : Inv bc done c) (hnodes : nodes = done ++ n :: after) :
    ∃ c', BlockCreator.step bc c n = some c' := by
  have hn : n ∈ nodes := by simp [hnodes]
  have hdone : ∀ n ∈ done, n ∈ nodes := fun n hn => by simp [hnodes, hn]
  have hb := hshape.contiguous.bounds hn
  have hlt : n.start < bc.code.length := by omega
  have hsub : ∀ o ∈ c.offsets, ∃ o' ∈ leaders nodes, o = o' := by
    intro o ho
    obtain ⟨o', rfl, hc⟩ := (h.offsets o).mp ho
    exact ⟨o', leader_of_created hshape (by omega) hdone hc, rfl⟩
  have hregistered : (∃ n' ∈ done, n'.flow.forward = some n.start) → n.start ∈ leaders nodes := by
    rintro ⟨n', hn', ht⟩
    exact mem_leaders.mpr ⟨⟨n, hn, rfl⟩,
      isLeader_iff.mpr (.inr ⟨n', hdone n' hn', .inl (Flow.target_of_forward ht)⟩)⟩
  -- The start of the round.
  obtain ⟨c1, h1⟩ : ∃ c1, c.instructionStart bc n.start = some c1 := by
    unfold BlockCreator.instructionStart
    rw [BitSet.contains_eq (h.capacity ▸ hlt), Option.bind_eq_bind, Option.bind_some]
    by_cases hmem : Mem c.blockStarts.data n.start
    · obtain ⟨block, c1, he⟩ := h.tabled.exists_leader bc hsub hsmall hlt.le
        fun _ => hregistered ((h.starts _).mp hmem)
      rw [decide_eq_true hmem, if_pos rfl, he]
      exact ⟨_, rfl⟩
    · rw [decide_eq_false hmem, if_neg Bool.false_ne_true]
      exact ⟨_, rfl⟩
  obtain ⟨ht1, hs1, -, ho1⟩ := h.instructionStart hlt h1
  have hsub1 : ∀ o ∈ c1.offsets, ∃ o' ∈ leaders nodes, o = o' := by
    intro o ho
    rcases (ho1 o).mp ho with hold | ⟨rfl, hnew⟩
    · exact hsub o hold
    · exact ⟨_, hregistered hnew, rfl⟩
  have hstop : n.flow.ends → n.stop < bc.code.length → n.stop ∈ leaders nodes := fun hends hlt =>
    mem_leaders.mpr ⟨hshape.contiguous.exists_start hn hlt,
      isLeader_iff.mpr (.inr ⟨n, hn, .inr (.inr ⟨hends, rfl⟩)⟩)⟩
  rw [BlockCreator.step, h1, Option.bind_eq_bind, Option.bind_some]
  cases hflow : n.flow with
  | next => exact ⟨_, rfl⟩
  | loop t =>
    -- The loop has started before.
    obtain ⟨hle, n', hn', rfl, hstart⟩ := hshape.loops n hn t hflow
    have hmem : n' ∈ done := by
      rw [hnodes] at hn'
      rcases mem_append.mp hn' with hn' | hn'
      · exact hn'
      · obtain ⟨mid, hbefore, hafter⟩ := (hnodes ▸ hshape.contiguous).append
        obtain ⟨rfl, -, hrest⟩ := hafter
        rcases mem_cons.mp hn' with rfl | hn'
        · cases hflow.symm.trans hstart
        · have hb' := hrest.bounds hn'
          omega
    obtain ⟨id, hid⟩ := ht1.blockAt.mpr ((ho1 n'.start).mpr
      (.inl ((h.offsets _).mpr ⟨_, rfl, .inr (.inl ⟨n', hmem, hstart, rfl⟩)⟩)))
    simp only [hid]
    exact ⟨_, rfl⟩
  | loopStart =>
    obtain ⟨block, c2, he⟩ := ht1.exists_leader bc hsub1 hsmall hlt.le fun _ =>
      mem_leaders.mpr ⟨⟨n, hn, rfl⟩, isLeader_iff.mpr (.inr ⟨n, hn, .inr (.inl ⟨hflow, rfl⟩)⟩)⟩
    simp only [he]
    exact ⟨_, rfl⟩
  | ret =>
    obtain ⟨block, c2, he⟩ := ht1.exists_leader bc hsub1 hsmall hb.2.2 (hstop (by rw [hflow]; rfl))
    simp only [he]
    exact ⟨_, rfl⟩
  | branch t | jump t =>
    obtain ⟨hlt', n', hn', rfl⟩ := hshape.forward n hn t (by rw [hflow]; rfl)
    have hb' := hshape.contiguous.bounds hn'
    have hin : n'.start < c1.blockStarts.capacity := by
      rw [hs1, h.capacity]
      omega
    obtain ⟨starts, hins, -⟩ := BitSet.exists_insert hin
    have ht2 : Tabled ⟨c1.graph, c1.blockMap, starts⟩ := ⟨ht1.1, ht1.2, ht1.3, ht1.4, ht1.5⟩
    obtain ⟨block, c2, he⟩ := ht2.exists_leader bc hsub1 hsmall hb.2.2 (hstop (by rw [hflow]; rfl))
    simp only [ensureBlockLazy, hins, Option.bind_eq_bind, Option.bind_some, he]
    exact ⟨_, rfl⟩

/-- **The pass gets through** shaped code. -/
theorem exists_pass (h : Inv bc [] c) :
    ∃ c', nodes.foldlM (step bc) c = some c' ∧ Inv bc nodes c' := by
  refine Layout.exists_foldlM (Inv bc) (fun done n after hnodes c hc => ?_) h
  obtain ⟨c', hstep⟩ := hc.exists_step hshape hsmall hnodes
  have hn : n ∈ nodes := by simp [hnodes]
  have hb := hshape.contiguous.bounds hn
  exact ⟨c', hstep, hc.step (by omega) (starts_lt hshape hnodes)
    (fun t ht => (hshape.forward n hn t ht).1) hstep⟩

end Progress

/-! ## The whole pass -/

section Run

variable {nodes : List Node} {infos : List BytecodeInstructionInfo}

/-- **What the pass has done** when it is through. -/
theorem inv_pass (hshape : Shaped bc.code.length nodes) (h : Inv bc [] c)
    (hpass : nodes.foldlM (step bc) c = some c') : Inv bc nodes c' := by
  refine Layout.foldlM_invariant (Inv bc) (fun done n after hnodes c1 c2 hc hstep => ?_) h hpass
  have hn : n ∈ nodes := by simp [hnodes]
  have hb := hshape.contiguous.bounds hn
  exact hc.step (by omega) (starts_lt hshape hnodes)
    (fun t ht => (hshape.forward n hn t ht).1) hstep

/-- The state after the block of the first instruction was created. -/
def first (bc : BytecodeFunction) : BlockCreator :=
  ⟨⟨some 0, [Block.new], []⟩, ⟨[(0, 0)]⟩, BitSet.new bc.code.length⟩

theorem start_eq : (new Graph.new bc BlockMap.new).start bc =
    if bc.code.length = 0 then none else some (first bc) := by
  have hle : (0 : ℤ) ≤ bc.code.length := Int.natCast_nonneg _
  unfold start ensureBlock
  rw [if_pos hle]
  by_cases hlen : bc.code.length = 0
  · rw [if_pos (by omega), if_pos hlen]
    rfl
  · rw [if_neg (by omega), if_neg hlen]
    rfl

theorem inv_first (bc : BytecodeFunction) : Inv bc [] (first bc) where
  tabled := by
    refine ⟨rfl, nodup_singleton _, ?_, rfl, by simp [first]⟩
    exact ⟨fun id => by cases id <;> rfl, fun id => by cases id <;> rfl, by simp [first]⟩
  capacity := rfl
  starts o := by simp [first, BitSet.not_mem_new]
  offsets o := by
    simp only [first, offsets, map_cons, map_nil, mem_singleton]
    constructor
    · rintro rfl
      exact ⟨0, rfl, .inl rfl⟩
    · rintro ⟨o', rfl, rfl | ⟨n, hn, -⟩ | ⟨n, hn, -⟩ | ⟨n, hn, -⟩⟩
      · rfl
      all_goals cases hn
  entry := rfl

theorem run_eq : (new Graph.new bc BlockMap.new).run bc =
    if bc.code.length = 0 then none
    else (decodeBytecode bc.code).bind fun infos =>
      (infos.mapM (Node.ofInfo bc)).bind (List.foldlM (step bc) (first bc)) := by
  have hround : round bc = fun c info => (Node.ofInfo bc info).bind (step bc c) := by
    funext c info
    exact round_eq bc c info
  unfold run
  rw [start_eq]
  split
  · rfl
  · simp only [Option.bind_eq_bind, Option.bind_some, hround, Layout.foldlM_bind]

/-- There are no blocks outside the code. -/
structure Confined (bc : BytecodeFunction) (c : BlockCreator) : Prop where
  tabled : Tabled c
  capacity : c.blockStarts.capacity = bc.code.length
  offsets : ∀ o ∈ c.offsets, o < bc.code.length

theorem Confined.ensureBlock (h : Confined bc c) {o : ℤ} {block : Option ℕ}
    (he : ensureBlock bc o c = some (block, c')) : Confined bc c' := by
  obtain ⟨ht, hs, -, ho, -⟩ := h.tabled.ensureBlock he
  refine ⟨ht, hs ▸ h.capacity, fun o' ho' => ?_⟩
  rcases (ho o').mp ho' with hold | ⟨rfl, hlt⟩
  · exact h.offsets o' hold
  · exact hlt

theorem Confined.instructionStart (h : Confined bc c) {start : ℕ}
    (hc : c.instructionStart bc start = some c') : Confined bc c' := by
  obtain ⟨registered, -, hc⟩ := Option.bind_eq_some_iff.mp hc
  cases registered with
  | true =>
    obtain ⟨⟨block, c1⟩, he, hc⟩ := Option.bind_eq_some_iff.mp hc
    cases hc
    exact h.ensureBlock he
  | false =>
    cases hc
    exact h

/-- **A jump out of the code** fails. -/
theorem Confined.step (h : Confined bc c) (hs : step bc c n = some c') :
    ¬ n.flow.Stray bc.code.length ∧ Confined bc c' := by
  obtain ⟨c1, h1, hs⟩ := Option.bind_eq_some_iff.mp hs
  have hc1 := h.instructionStart h1
  cases hflow : n.flow with
  | next =>
    simp only [hflow] at hs
    cases hs
    exact ⟨by simp [Flow.Stray], hc1⟩
  | loopStart | ret =>
    simp only [hflow] at hs
    obtain ⟨⟨block, c2⟩, he, rfl⟩ := Option.map_eq_some_iff.mp hs
    exact ⟨by simp [Flow.Stray], hc1.ensureBlock he⟩
  | loop t =>
    simp only [hflow] at hs
    split at hs
    · next hsome =>
      cases hs
      obtain ⟨id, hid⟩ := Option.isSome_iff_exists.mp hsome
      have hlt := hc1.offsets t (hc1.tabled.blockAt.mp ⟨id, hid⟩)
      refine ⟨?_, hc1⟩
      rintro (⟨t', ht', -⟩ | ⟨t', ht', hle⟩)
      · cases ht'
      · obtain rfl := Flow.loop.inj ht'
        omega
    · cases hs
  | branch t | jump t =>
    simp only [hflow] at hs
    obtain ⟨c2, hlazy, hs⟩ := Option.bind_eq_some_iff.mp hs
    obtain ⟨starts, hins, hlazy⟩ := Option.bind_eq_some_iff.mp hlazy
    cases hlazy
    obtain ⟨hle, -, hcap, -⟩ := BitSet.mem_of_insert hins
    have ht := hc1.tabled
    have hc2 : Confined bc ⟨c1.graph, c1.blockMap, starts⟩ :=
      ⟨⟨ht.1, ht.2, ht.3, ht.4, ht.5⟩, hcap.trans hc1.capacity, hc1.offsets⟩
    obtain ⟨⟨block, c3⟩, he, rfl⟩ := Option.map_eq_some_iff.mp hs
    refine ⟨?_, hc2.ensureBlock he⟩
    rintro (⟨t', ht', hlt⟩ | ⟨t', ht', -⟩)
    · cases ht'
      omega
    · cases ht'

theorem not_stray (hlen : bc.code.length ≠ 0)
    (h : nodes.foldlM (step bc) (first bc) = some c) :
    ∀ n ∈ nodes, ¬ n.flow.Stray bc.code.length := by
  have hfirst : Confined bc (first bc) := by
    refine ⟨(inv_first bc).tabled, rfl, fun o ho => ?_⟩
    obtain rfl := mem_singleton.mp ho
    omega
  exact (Layout.foldlM_forall (fun _ _ _ hc hs => hc.step hs) hfirst h).1

end Run

end BlockCreator

end Dora.Boots
