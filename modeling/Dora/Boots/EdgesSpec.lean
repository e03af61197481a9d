import Dora.Boots.BlocksSpec

/-!
# The second pass adds the edges

With blocks at the leaders, the second pass is always in the block of the instruction it looks at.

## Main definitions

* `Node.jumpEdges`, `Node.fallEdges`: the edges of a jump, and to the following instruction
* `EdgeCreator.Inv`: what holds between two rounds

## Main results

* `EdgeCreator.Inv.exists_step`: a round keeps the invariant
* `blocksCorrect_iff`, `createBlocks_iff`: when the graph is right
-/

namespace Dora.Boots

open List Option EdgeCreator Boots.Node

namespace EdgeCreator

/-- A round, on the control flow of an instruction. -/
def step (m : BlockMap) (c : EdgeCreator) (n : Node) : Option EdgeCreator :=
  let c := instructionStart m { c with offset := n.start }
  match n.flow with
  | .next | .loopStart => some c
  | .ret => some c.markBlockTerminated
  | .loop t | .jump t => (c.addSuccessorAt m t).map markBlockTerminated
  | .branch t => c.addSuccessorAt m t

theorem step_eq (m : BlockMap) (c : EdgeCreator) (n : Node) : step m c n =
    (n.flow.target.elim (some (instructionStart m { c with offset := n.start })) fun t =>
      (instructionStart m { c with offset := n.start }).addSuccessorAt m t).map fun c =>
        if n.flow.falls then c else c.markBlockTerminated := by
  unfold step
  cases n.flow <;> simp [Flow.target, Flow.falls]

theorem offset_instructionStart (m : BlockMap) (c : EdgeCreator) :
    (c.instructionStart m).offset = c.offset := by
  unfold instructionStart
  cases m.blockAt c.offset <;> rfl

/-- **A round only looks at the control flow.** -/
theorem round_eq (bc : BytecodeFunction) (m : BlockMap) (c : EdgeCreator)
    (info : BytecodeInstructionInfo) :
    round bc m c info = (ofInfo bc info).bind (step m c) := by
  obtain ⟨start, opcode, size, inst⟩ := info
  have hoffset := offset_instructionStart m { c with offset := start }
  cases inst
  case jumpConst idx | jumpIfFalseConst opnd idx | jumpIfTrueConst opnd idx =>
    cases hd : bc.constInt32At idx <;>
      simp [round, ofInfo, flowAt, step, processInstruction, hd, hoffset, map_eq_bind]
  all_goals
    simp [round, ofInfo, flowAt, step, processInstruction, hoffset, map_eq_bind]

end EdgeCreator

/-- **The instruction is in the block** at an offset. -/
def InBlock (nodes : List Node) (o : ℕ) (n : Node) : Prop :=
  o ∈ leaders nodes ∧ o ≤ n.start ∧ ∀ o' ∈ leaders nodes, o < o' → n.start < o'

instance (nodes : List Node) (o : ℕ) (n : Node) : Decidable (InBlock nodes o n) :=
  inferInstanceAs (Decidable (_ ∧ _ ∧ _))

theorem InBlock.unique {nodes : List Node} {o o' : ℕ} {n : Node} (h : InBlock nodes o n)
    (h' : InBlock nodes o' n) : o = o' := by
  by_contra hne
  rcases Nat.lt_or_gt_of_ne hne with hlt | hgt
  · have := h.2.2 o' h'.1 hlt
    have := h'.2.1
    omega
  · have := h'.2.2 o h.1 hgt
    have := h.2.1
    omega

namespace Node

/-- The edges that the pass adds when it comes to an instruction in the block. -/
def jumpEdges (nodes : List Node) (o : ℕ) (n : Node) : List ℤ :=
  if InBlock nodes o n then n.flow.target.toList else []

/-- The edge that the pass adds when it comes to the following instruction. -/
def fallEdges (nodes : List Node) (o : ℕ) (n : Node) : List ℤ :=
  if InBlock nodes o n ∧ n.flow.falls ∧ n.stop ∈ leaders nodes then [(n.stop : ℤ)] else []

end Node

namespace EdgeCreator

/-- **The map has the blocks of a graph** at the leaders. -/
structure Mapped (nodes : List Node) (count : ℕ) (m : BlockMap) : Prop where
  starts : ∀ o : ℤ, (∃ id, m.blockAt o = some id) ↔ ∃ o' ∈ leaders nodes, o = o'
  unique : ∀ o o' id, m.blockAt o = some id → m.blockAt o' = some id → o = o'
  lt : ∀ o id, m.blockAt o = some id → id < count

/-- **The state after a part of the code.** The edge from the last instruction to the following one
is still to come. -/
structure Inv (nodes : List Node) (count : ℕ) (m : BlockMap) (done : List Node) (c : EdgeCreator) :
    Prop where
  linked : c.graph.Linked
  count : c.graph.blocks.length = count
  none : done = [] → c.currentBlock = none ∧ c.graph.edges = []
  last : ∀ pre p, done = pre ++ [p] → c.blockTerminated = !p.flow.falls ∧
    (∃ o id : ℕ, InBlock nodes o p ∧ m.blockAt (o : ℤ) = some id ∧ c.currentBlock = some id) ∧
    ∀ (o id : ℕ), m.blockAt (o : ℤ) = some id → (c.graph.targets id).map some =
      (pre.flatMap (fun n => n.jumpEdges nodes o ++ n.fallEdges nodes o) ++
        p.jumpEdges nodes o).map m.blockAt

/-- The state at the start of a round. -/
structure Entered (nodes : List Node) (count : ℕ) (m : BlockMap) (done : List Node) (n : Node)
    (c : EdgeCreator) : Prop where
  linked : c.graph.Linked
  count : c.graph.blocks.length = count
  terminated : c.blockTerminated = false
  current : ∃ o id : ℕ, InBlock nodes o n ∧ m.blockAt (o : ℤ) = some id ∧ c.currentBlock = some id
  targets : ∀ o id : ℕ, m.blockAt (o : ℤ) = some id → (c.graph.targets id).map some =
    (done.flatMap fun n => n.jumpEdges nodes o ++ n.fallEdges nodes o).map m.blockAt

section Round

variable {len count : ℕ} {nodes done after : List Node} {m : BlockMap} {n : Node}
  {c c' : EdgeCreator}

variable {o id' : ℕ} {t : ℤ}

theorem Mapped.id_eq_iff (hm : Mapped nodes count m) {o' id : ℕ}
    (h : m.blockAt (o : ℤ) = some id) (h' : m.blockAt (o' : ℤ) = some id') : id = id' ↔ o = o' := by
  constructor
  · rintro rfl
    exact Int.natCast_inj.mp (hm.unique _ _ _ h h')
  · rintro rfl
    exact Option.some.inj (h.symm.trans h')

theorem targets_addSuccessor (hm : Mapped nodes count m) {g : Graph} {id target : ℕ}
    (hid : m.blockAt (o : ℤ) = some id) (ht : m.blockAt t = some target) {o' : ℕ}
    (hid' : m.blockAt (o' : ℤ) = some id') :
    ((g.addSuccessor id target).targets id').map some =
      (g.targets id').map some ++ (if o = o' then [t] else []).map m.blockAt := by
  rw [Graph.targets_addSuccessor, map_append]
  by_cases h : o = o'
  · rw [if_pos h, if_pos ((hm.id_eq_iff hid hid').mpr h)]
    simp [ht]
  · rw [if_neg h, if_neg fun heq => h ((hm.id_eq_iff hid hid').mp heq)]
    rfl

theorem zero_mem_leaders (hshape : Shaped len nodes) (hnodes : nodes = n :: after) :
    n.start ∈ leaders nodes := by
  have hstart : n.start = 0 := by
    have h := hshape.contiguous
    rw [hnodes] at h
    exact h.1
  rw [mem_leaders, isLeader_iff]
  exact ⟨⟨n, by simp [hnodes], rfl⟩, .inl hstart⟩

theorem inBlock_start (h : n.start ∈ leaders nodes) : InBlock nodes n.start n :=
  ⟨h, le_refl _, fun _ _ hlt => hlt⟩

/-- An instruction that does not start a block is in the block of the one before. -/
theorem inBlock_next (hshape : Shaped len nodes) {pre : List Node} {p : Node}
    (hnodes : nodes = pre ++ p :: n :: after) (h : n.start ∉ leaders nodes)
    (ho : InBlock nodes o p) : InBlock nodes o n := by
  have hp : p ∈ nodes := by simp [hnodes]
  obtain ⟨mid, -, hafter⟩ := (hnodes ▸ hshape.contiguous : Contiguous len 0 _).append
  have hstop : n.start = p.stop := hafter.2.2.1
  have hb := hshape.contiguous.bounds hp
  refine ⟨ho.1, by have := ho.2.1; omega, fun o' ho' hlt => ?_⟩
  have hlt' := ho.2.2 o' ho' hlt
  obtain ⟨⟨n', hn', rfl⟩, -⟩ := mem_leaders.mp ho'
  have hle : p.stop ≤ n'.start := hshape.contiguous.stop_le_start hp hn' hlt'
  have hne : n'.start ≠ n.start := fun heq => h (heq ▸ ho')
  omega

theorem Mapped.blockAt_none (hm : Mapped nodes count m) (h : o ∉ leaders nodes) :
    m.blockAt (o : ℤ) = none := by
  rw [eq_none_iff_forall_ne_some]
  intro id hid
  obtain ⟨o', ho', heq⟩ := (hm.starts o).mp ⟨id, hid⟩
  exact h (Int.natCast_inj.mp heq ▸ ho')

theorem Mapped.exists_id (hm : Mapped nodes count m) (h : o ∈ leaders nodes) :
    ∃ id, m.blockAt (o : ℤ) = some id := (hm.starts o).mpr ⟨o, h, rfl⟩

variable (hshape : Shaped len nodes) (hm : Mapped nodes count m)

include hshape hm

/-- **The start of a round**: the edge to the following instruction. -/
theorem Inv.enter (h : Inv nodes count m done c) (hnodes : nodes = done ++ n :: after) :
    Entered nodes count m done n (instructionStart m { c with offset := n.start }) := by
  rcases eq_nil_or_concat done with rfl | ⟨pre, p, rfl⟩
  · have hleader := zero_mem_leaders hshape hnodes
    obtain ⟨id, hid⟩ := hm.exists_id hleader
    obtain ⟨hcur, hedges⟩ := h.none rfl
    have hstart : instructionStart m { c with offset := n.start } =
        ⟨c.graph, n.start, some id, false⟩ := by
      simp only [instructionStart, hid, hcur]
    rw [hstart]
    refine ⟨h.linked, h.count, rfl, ⟨_, id, inBlock_start hleader, hid, rfl⟩, fun o id' _ => ?_⟩
    simp [Graph.targets, hedges]
  · rw [concat_eq_append] at h hnodes ⊢
    obtain ⟨hterm, ⟨o, id, hin, hid, hcur⟩, htargets⟩ := h.last pre p rfl
    have hsplit : nodes = pre ++ p :: n :: after := by rw [hnodes]; simp
    have hstop : n.start = p.stop := by
      obtain ⟨mid, -, hafter⟩ := (hsplit ▸ hshape.contiguous : Contiguous len 0 _).append
      exact hafter.2.2.1
    have hflat : ∀ o' : ℕ, (pre ++ [p]).flatMap
        (fun n => n.jumpEdges nodes o' ++ n.fallEdges nodes o') =
        (pre.flatMap (fun n => n.jumpEdges nodes o' ++ n.fallEdges nodes o') ++
          p.jumpEdges nodes o') ++ p.fallEdges nodes o' := by
      intro o'
      simp
    by_cases hleader : n.start ∈ leaders nodes
    · obtain ⟨id', hid'⟩ := hm.exists_id hleader
      by_cases hfalls : p.flow.falls
      · have hstart : instructionStart m { c with offset := n.start } =
            ⟨c.graph.addSuccessor id id', n.start, some id', false⟩ := by
          simp [instructionStart, hid', hcur, hterm, hfalls]
        have hlt := hm.lt _ _ hid
        have hlt' := hm.lt _ _ hid'
        rw [← h.count] at hlt hlt'
        rw [hstart]
        refine ⟨h.linked.addSuccessor hlt hlt', (Graph.length_addSuccessor _ _).trans h.count, rfl,
          ⟨_, id', inBlock_start hleader, hid', rfl⟩, fun o' id1 hid1 => ?_⟩
        rw [targets_addSuccessor hm hid hid' hid1, htargets o' id1 hid1, hflat, ← map_append]
        rw [fallEdges, ← hstop]
        by_cases heq : o = o'
        · rw [if_pos heq, if_pos ⟨heq ▸ hin, hfalls, hleader⟩]
        · rw [if_neg heq, if_neg fun hfall => heq (hin.unique hfall.1)]
      · have hstart : instructionStart m { c with offset := n.start } =
            ⟨c.graph, n.start, some id', false⟩ := by
          simp [instructionStart, hid', hcur, hterm, hfalls]
        rw [hstart]
        refine ⟨h.linked, h.count, rfl, ⟨_, id', inBlock_start hleader, hid', rfl⟩,
          fun o' id1 hid1 => ?_⟩
        rw [htargets o' id1 hid1, hflat, fallEdges, if_neg fun hfall => hfalls hfall.2.1,
          append_nil]
    · have hstart : instructionStart m { c with offset := n.start } =
          ⟨c.graph, n.start, some id, false⟩ := by
        simp only [instructionStart, hm.blockAt_none hleader, hcur]
      rw [hstart]
      refine ⟨h.linked, h.count, rfl, ⟨o, id, inBlock_next hshape hsplit hleader hin, hid, rfl⟩,
        fun o' id1 hid1 => ?_⟩
      rw [htargets o' id1 hid1, hflat, fallEdges, if_neg fun hfall => hleader (hstop ▸ hfall.2.2),
        append_nil]

omit hshape hm in
theorem Entered.inv (he : Entered nodes count m done n c) (hlinked : c'.graph.Linked)
    (hcount : c'.graph.blocks.length = count) (hcurrent : c'.currentBlock = c.currentBlock)
    (hterminated : c'.blockTerminated = !n.flow.falls)
    (htargets : ∀ o id : ℕ, m.blockAt (o : ℤ) = some id → (c'.graph.targets id).map some =
      (c.graph.targets id).map some ++ (n.jumpEdges nodes o).map m.blockAt) :
    Inv nodes count m (done ++ [n]) c' := by
  refine ⟨hlinked, hcount, fun h => by simp at h, fun pre p hlast => ?_⟩
  obtain ⟨rfl, hp⟩ := append_inj' hlast rfl
  obtain rfl := (List.cons.inj hp).1
  refine ⟨hterminated, hcurrent ▸ he.current, fun o id hid => ?_⟩
  rw [htargets o id hid, he.targets o id hid, map_append]

omit hm in
theorem target_mem_leaders (hn : n ∈ nodes) (ht : n.flow.target = some t) :
    ∃ o ∈ leaders nodes, t = o := by
  obtain ⟨n', hn', rfl⟩ : ∃ n' ∈ nodes, t = n'.start := by
    cases hflow : n.flow with
    | next | loopStart | ret => simp [hflow, Flow.target] at ht
    | loop t' =>
      obtain ⟨-, n', hn', heq, -⟩ := hshape.loops n hn t' hflow
      rw [hflow] at ht
      cases ht
      exact ⟨n', hn', heq⟩
    | branch t' | jump t' =>
      rw [hflow] at ht
      obtain rfl := Option.some.inj ht
      exact (hshape.forward n hn t' (by rw [hflow]; rfl)).2
  exact ⟨n'.start, mem_leaders.mpr ⟨⟨n', hn', rfl⟩, isLeader_iff.mpr (.inr ⟨n, hn, .inl ht⟩)⟩, rfl⟩

/-- **A round** keeps the invariant and does not fail. -/
theorem Inv.exists_step (h : Inv nodes count m done c) (hnodes : nodes = done ++ n :: after) :
    ∃ c', step m c n = some c' ∧ Inv nodes count m (done ++ [n]) c' := by
  have hn : n ∈ nodes := by simp [hnodes]
  have he := h.enter hshape hm hnodes
  obtain ⟨o, id, hin, hid, hcur⟩ := he.current
  set c1 := instructionStart m { c with offset := n.start } with hc1
  -- Only the flag depends on how the instruction goes on.
  have hflag : ∀ c2 : EdgeCreator, c2.blockTerminated = false →
      (if n.flow.falls then c2 else c2.markBlockTerminated).blockTerminated = !n.flow.falls ∧
      (if n.flow.falls then c2 else c2.markBlockTerminated).graph = c2.graph ∧
      (if n.flow.falls then c2 else c2.markBlockTerminated).currentBlock = c2.currentBlock := by
    intro c2 hc2
    cases n.flow.falls
    · exact ⟨rfl, rfl, rfl⟩
    · exact ⟨hc2, rfl, rfl⟩
  rw [step_eq]
  cases ht : n.flow.target with
  | none =>
    obtain ⟨hterminated, hgraph, hcurrent⟩ := hflag c1 he.terminated
    refine ⟨_, rfl, he.inv (hgraph ▸ he.linked) (hgraph ▸ he.count) hcurrent hterminated
      fun o' id' hid' => ?_⟩
    rw [hgraph]
    simp [jumpEdges, ht]
  | some t =>
    obtain ⟨o', ho', rfl⟩ := target_mem_leaders hshape hn ht
    obtain ⟨id', hid'⟩ := hm.exists_id ho'
    have hlt := hm.lt _ _ hid
    have hlt' := hm.lt _ _ hid'
    rw [← he.count] at hlt hlt'
    have hadd : c1.addSuccessorAt m o' =
        some { c1 with graph := c1.graph.addSuccessor id id' } := by
      simp only [addSuccessorAt, hid', hcur, bind_eq_bind, bind_some]
    obtain ⟨hterminated, hgraph, hcurrent⟩ :=
      hflag { c1 with graph := c1.graph.addSuccessor id id' } he.terminated
    refine ⟨_, by rw [elim_some, hadd]; rfl, he.inv (hgraph ▸ he.linked.addSuccessor hlt hlt')
        (hgraph ▸ (Graph.length_addSuccessor _ _).trans he.count) hcurrent hterminated
        fun o1 id1 hid1 => ?_⟩
    rw [hgraph, targets_addSuccessor hm hid hid' hid1]
    rw [jumpEdges, ht]
    by_cases heq : o = o1
    · rw [if_pos heq, if_pos (heq ▸ hin)]
      rfl
    · rw [if_neg heq, if_neg fun h => heq (hin.unique h)]

end Round

theorem entry_step {m : BlockMap} {c c' : EdgeCreator} {n : Node} (h : step m c n = some c') :
    c'.graph.entryBlock = c.graph.entryBlock := by
  have hstart : (instructionStart m { c with offset := n.start }).graph.entryBlock =
      c.graph.entryBlock := by
    unfold instructionStart
    split
    · cases c.currentBlock with
      | none => rfl
      | some id =>
        dsimp only
        split <;> rfl
    · rfl
  have hadd : ∀ (c1 c2 : EdgeCreator) (t : ℤ), c1.addSuccessorAt m t = some c2 →
      c2.graph.entryBlock = c1.graph.entryBlock := by
    intro c1 c2 t h
    obtain ⟨target, -, h⟩ := bind_eq_some_iff.mp h
    obtain ⟨id, -, h⟩ := bind_eq_some_iff.mp h
    cases h
    rfl
  rw [step_eq] at h
  obtain ⟨c1, h1, rfl⟩ := map_eq_some_iff.mp h
  have hgraph : (if n.flow.falls then c1 else c1.markBlockTerminated).graph = c1.graph := by
    split <;> rfl
  rw [hgraph, ← hstart]
  cases ht : n.flow.target with
  | none =>
    rw [ht] at h1
    cases h1
    rfl
  | some t =>
    rw [ht] at h1
    exact hadd _ _ t h1

end EdgeCreator

/-! ## The edges of a block -/

section Edges

variable {len : ℕ} {nodes : List Node} {o : ℕ} {n : Node}

theorem LastOf.inBlock (h : LastOf nodes o n) : InBlock nodes o n := ⟨h.leader, h.le, h.inside⟩

section

variable (hshape : Shaped len nodes)
include hshape

theorem lt_of_mem_leaders {o : ℕ} (h : o ∈ leaders nodes) : o < len := by
  obtain ⟨⟨n, hn, rfl⟩, -⟩ := mem_leaders.mp h
  have hb := hshape.contiguous.bounds hn
  omega

theorem edges_of_last (h : LastOf nodes o n) :
    n.jumpEdges nodes o ++ n.fallEdges nodes o = n.exits len := by
  have hiff : n.stop ∈ leaders nodes ↔ n.stop < len := by
    refine ⟨lt_of_mem_leaders hshape, fun hlt => ?_⟩
    obtain ⟨n', hn', hstart⟩ := hshape.contiguous.exists_start h.mem hlt
    refine h.last.resolve_right fun hall => ?_
    have := hall n' hn'
    omega
  simp [jumpEdges, fallEdges, exits, h.inBlock, hiff]

theorem edges_of_other (h : LastOf nodes o n) {n' : Node} (hn' : n' ∈ nodes) (hne : n' ≠ n) :
    n'.jumpEdges nodes o ++ n'.fallEdges nodes o = [] := by
  by_cases hin : InBlock nodes o n'
  · have hb := hshape.contiguous.bounds h.mem
    have hb' := hshape.contiguous.bounds hn'
    have hlt : n'.start < n.start := by
      rcases Nat.lt_trichotomy n'.start n.start with hlt | heq | hgt
      · exact hlt
      · exact absurd (hshape.contiguous.eq_of_start hn' h.mem heq) hne
      · have hle := hshape.contiguous.stop_le_start h.mem hn' hgt
        rcases h.last with hleader | hall
        · have hlt := hin.2.2 n.stop hleader (by have := h.le; omega)
          omega
        · have := hall n' hn'
          omega
    have hle := hshape.contiguous.stop_le_start hn' h.mem hlt
    have hnot : n'.stop ∉ leaders nodes := fun hleader => by
      have := h.inside n'.stop hleader (by have := hin.2.1; omega)
      omega
    -- An instruction that ends a block would make the next one a leader.
    have hends : n'.flow.ends = false := by
      by_contra hends
      refine hnot (mem_leaders.mpr ⟨hshape.contiguous.exists_start hn' (by omega),
        isLeader_iff.mpr (.inr ⟨n', hn', .inr (.inr ⟨by simpa using hends, rfl⟩)⟩)⟩)
    have htarget : n'.flow.target = none := by
      cases hf : n'.flow <;> simp [hf, Flow.ends, Flow.target] at hends ⊢
    simp [jumpEdges, fallEdges, htarget, hnot]
  · simp [jumpEdges, fallEdges, hin]

/-- **The edges of a block** are those of its last instruction. -/
theorem flatMap_edges (h : LastOf nodes o n) :
    nodes.flatMap (fun n => n.jumpEdges nodes o ++ n.fallEdges nodes o) = n.exits len := by
  have hnodup : nodes.Nodup := List.Nodup.of_map _ (hshape.contiguous.sorted.imp Nat.ne_of_lt)
  rw [Layout.flatMap_eq_of_unique hnodup h.mem fun n' hn' hne => edges_of_other hshape h hn' hne,
    edges_of_last hshape h]

end

end Edges

/-! ## The whole construction -/

section Whole

variable {f : Bytecode.BytecodeFunction} {bc : BytecodeFunction}
  {visits : List (ℕ × Bytecode.BytecodeInstruction)} {nodes : List Node}

theorem EdgeCreator.run_eq (bc : BytecodeFunction) (m : BlockMap) (g : Graph) :
    (new g).run bc m = (decodeBytecode bc.code).bind fun infos =>
      (infos.mapM (ofInfo bc)).bind (List.foldlM (step m) (new g)) := by
  have hround : round bc m = fun c info => (ofInfo bc info).bind (step m c) := by
    funext c info
    exact round_eq bc m c info
  unfold run
  simp only [hround, Layout.foldlM_bind, bind_eq_bind]

/-- **The second pass** gets through and leaves the edges. -/
theorem blocksCorrect_of_created {c : BlockCreator} (hshape : Shaped bc.code.length nodes)
    (hlen : bc.code.length ≠ 0) (hloops : LoopsFollowed nodes) (hc : BlockCreator.Inv bc nodes c) :
    ∃ e, nodes.foldlM (step c.blockMap) (new c.graph) = some e ∧
      BlocksCorrect bc.code.length nodes e.graph c.blockMap := by
  have hstarts : ∀ o : ℤ, (∃ id, c.blockMap.blockAt o = some id) ↔
      ∃ o' ∈ leaders nodes, o = o' := by
    intro o
    rw [hc.tabled.blockAt, hc.offsets]
    constructor
    · rintro ⟨o', rfl, ho'⟩
      exact ⟨o', leader_of_created hshape (by omega) (fun _ hn => hn) ho', rfl⟩
    · rintro ⟨o', ho', rfl⟩
      exact ⟨o', rfl, created_of_leader hshape hloops ho'⟩
  have hm : Mapped nodes c.graph.blocks.length c.blockMap :=
    ⟨hstarts, fun _ _ _ h h' => hc.tabled.unique h h',
      fun o id hid => (hc.tabled.lt_iff id).mpr ⟨o, hid⟩⟩
  have hnew : Inv nodes c.graph.blocks.length c.blockMap [] (new c.graph) :=
    ⟨hc.tabled.linked, rfl, fun _ => ⟨rfl, hc.tabled.edges⟩, fun pre p h => by simp at h⟩
  obtain ⟨e, he, hinv⟩ := Layout.exists_foldlM
    (Inv nodes c.graph.blocks.length c.blockMap)
    (fun done n after hnodes c' hc' => hc'.exists_step hshape hm hnodes) hnew
  have hentry : e.graph.entryBlock = c.graph.entryBlock :=
    (Layout.foldlM_forall (fun _ _ _ h hs => ⟨trivial, (entry_step hs).trans h⟩)
      (show (new c.graph).graph.entryBlock = _ from rfl) he).2
  refine ⟨e, he, hstarts, fun id => ?_, fun _ _ _ h h' => hc.tabled.unique h h',
    hentry.trans hc.entry, hinv.linked, fun o n id hlast hid => ?_,
      fun n hn hends n' hn' hstart => ?_⟩
  · rw [hinv.count]
    exact hc.tabled.lt_iff id
  · rcases eq_nil_or_concat nodes with rfl | ⟨pre, p, hnodes⟩
    · cases hlast.mem
    · rw [concat_eq_append] at hnodes
      obtain ⟨-, -, htargets⟩ := hinv.last pre p hnodes
      -- Nothing follows the last instruction.
      have hstop : p.stop = bc.code.length := by
        obtain ⟨mid, -, hafter⟩ := (hnodes ▸ hshape.contiguous : Contiguous _ 0 _).append
        exact hafter.2.2
      have hfall : p.fallEdges nodes o = [] := by
        refine if_neg fun h => ?_
        have := lt_of_mem_leaders hshape h.2.2
        omega
      have hall : nodes.flatMap (fun n => n.jumpEdges nodes o ++ n.fallEdges nodes o) =
          pre.flatMap (fun n => n.jumpEdges nodes o ++ n.fallEdges nodes o) ++
            p.jumpEdges nodes o := by
        have hsplit := congrArg
          (List.flatMap fun n => n.jumpEdges nodes o ++ n.fallEdges nodes o) hnodes
        rw [hsplit, flatMap_append, flatMap_singleton, hfall, append_nil]
      rw [htargets o id hid, ← hall, flatMap_edges hshape hlast]
  · refine (hstarts _).mpr ⟨n'.start, mem_leaders.mpr ⟨⟨n', hn', rfl⟩, ?_⟩, rfl⟩
    exact isLeader_iff.mpr (.inr ⟨n, hn, .inr (.inr ⟨hends, hstart.symm⟩)⟩)

/-- **The graph is right** for well-formed code exactly if there is code, the boots compiler knows
the opcodes, the jumps are near, there are blocks enough, and what follows a loop gets a block for
another reason. -/
theorem blocksCorrect_iff (hf : WellFormed f visits nodes) (hsent : Sent f bc) :
    (∃ g m, createBlocksWithEdgesFromBytecode Graph.new bc = some (g, m) ∧
        BlocksCorrect f.code.length nodes g m) ↔
      f.code.length ≠ 0 ∧ (∀ visit ∈ visits, handles visit.2.opcode ∧ Near f.constPool visit.2) ∧
        (leaders nodes).length < 2 ^ 31 ∧ LoopsFollowed nodes := by
  have hshape : Shaped bc.code.length nodes := hsent.code ▸ hf.shaped
  obtain ⟨reader, hread⟩ := hf.read
  have hdecode : decodeBytecode bc.code = (spans f.code.length visits).mapM decoded := by
    rw [hsent.code, decodeBytecode_eq, hread, bind_some]
  constructor
  · rintro ⟨g, m, hcreate, hcorrect⟩
    obtain ⟨blocks, hblocks, hcreate⟩ := bind_eq_some_iff.mp hcreate
    obtain ⟨edges, hedges, hcreate⟩ := bind_eq_some_iff.mp hcreate
    cases hcreate
    rw [BlockCreator.run_eq] at hblocks
    split at hblocks
    · cases hblocks
    · next hlen =>
      obtain ⟨infos, hinfos, hblocks⟩ := bind_eq_some_iff.mp hblocks
      obtain ⟨nodes', hnodes', hpass⟩ := bind_eq_some_iff.mp hblocks
      rw [hdecode] at hinfos
      -- No jump leads out of the code, so all of them are near.
      have hnear := near_of_not_stray hsent hf hinfos hnodes'
        (hsent.code ▸ BlockCreator.not_stray hlen hpass)
      obtain rfl : nodes' = nodes := Option.some.inj (hnodes'.symm.trans
        (mapM_ofInfo hsent hf.flows hinfos ((forall_spans _).mpr hnear)))
      have hinv := BlockCreator.inv_pass hshape (BlockCreator.inv_first bc) hpass
      have hhandles : ∀ visit ∈ visits, handles visit.2.opcode := by
        refine (forall_spans f.code.length (p := fun i => handles i.opcode)).mp fun span hspan => ?_
        obtain ⟨info, -, hdecoded⟩ :=
          Layout.exists_of_forall₂_left (Layout.mapM_eq_some_iff.mp hinfos) hspan
        obtain ⟨i, hi, -⟩ := map_eq_some_iff.mp hdecoded
        exact handles_of_translate hi
      refine ⟨hsent.code ▸ hlen, fun visit hv => ⟨hhandles visit hv, hnear visit hv⟩, ?_, ?_⟩
      · have hnodup : ((leaders nodes').map Int.ofNat).Nodup :=
          (List.Nodup.filter _ (hshape.contiguous.sorted.imp Nat.ne_of_lt)).map
            fun _ _ h => Int.ofNat.inj h
        have hsub : (leaders nodes').map Int.ofNat ⊆ blocks.offsets := by
          intro o ho
          obtain ⟨o', ho', rfl⟩ := mem_map.mp ho
          exact hinv.tabled.blockAt.mp ((hcorrect.starts _).mpr ⟨o', ho', rfl⟩)
        have hle := (hnodup.subperm hsub).length_le
        rw [length_map, hinv.tabled.length_offsets] at hle
        exact hle.trans_lt hinv.tabled.small
      · refine loopsFollowed_of_created hshape fun n hn t ht n' hn' hstart => ?_
        have hblock := hcorrect.terminated n hn (by rw [ht]; rfl) n' hn' hstart
        obtain ⟨o, ho, hc⟩ := (hinv.offsets _).mp (hinv.tabled.blockAt.mp hblock)
        exact Int.natCast_inj.mp ho ▸ hc
  · rintro ⟨hlen, hvisits, hsmall, hloops⟩
    have hlen' : bc.code.length ≠ 0 := hsent.code ▸ hlen
    obtain ⟨infos, hinfos⟩ : ∃ infos, (spans f.code.length visits).mapM decoded = some infos := by
      refine Layout.exists_mapM fun span hspan => ?_
      obtain ⟨i, hi⟩ := translate_of_handles (hvisits _ (mem_of_mem_spans hspan)).1
      exact ⟨_, by rw [decoded, hi]; rfl⟩
    have hnodes := mapM_ofInfo hsent hf.flows hinfos
      ((forall_spans _).mpr fun visit hv => (hvisits visit hv).2)
    obtain ⟨c, hpass, hinv⟩ := BlockCreator.exists_pass hshape hsmall (BlockCreator.inv_first bc)
    obtain ⟨e, he, hcorrect⟩ := blocksCorrect_of_created hshape hlen' hloops hinv
    refine ⟨e.graph, c.blockMap, ?_, hsent.code ▸ hcorrect⟩
    have hblocks : (BlockCreator.new Graph.new bc BlockMap.new).run bc = some c := by
      rw [BlockCreator.run_eq, if_neg hlen', hdecode, hinfos, bind_some, hnodes, bind_some, hpass]
    have hedges : (new c.graph).run bc c.blockMap = some e := by
      rw [run_eq, hdecode, hinfos, bind_some, hnodes, bind_some, he]
    simp only [createBlocksWithEdgesFromBytecode, hblocks, hedges, bind_eq_bind, bind_some]

/-- **The control flow graph of generated code.** -/
theorem createBlocks_iff {calls : List Bytecode.Call} {w : Bytecode.BytecodeWriter}
    (hb : ∀ c ∈ calls, c.Bounded) (hr : Bytecode.BytecodeWriter.new.run calls = some w)
    (hg : w.generate = some f) (hcode : w.code.length < 2 ^ 32)
    (hpool : w.constPool.length ≤ 2 ^ 32) (hsent : Sent f bc) {reader : Bytecode.BytecodeReader}
    (hread : Bytecode.BytecodeReader.read f.code = some (visits, reader))
    (hclosed : Closed f visits) :
    ∃ nodes, (spans f.code.length visits).mapM (ofSpan f.constPool) = some nodes ∧
      ((∃ g m, createBlocksWithEdgesFromBytecode Graph.new bc = some (g, m) ∧
          BlocksCorrect f.code.length nodes g m) ↔
        f.code.length ≠ 0 ∧ (∀ visit ∈ visits, handles visit.2.opcode ∧ Near f.constPool visit.2) ∧
          (leaders nodes).length < 2 ^ 31 ∧ LoopsFollowed nodes) := by
  obtain ⟨visits', reader', hread', hwf⟩ := wellFormed_generate hb hr hg hcode hpool
  obtain ⟨rfl, -⟩ := Prod.mk.inj (Option.some.inj (hread.symm.trans hread'))
  obtain ⟨nodes, hf⟩ := hwf hclosed
  exact ⟨nodes, hf.flows, blocksCorrect_iff hf hsent⟩

end Whole

/-! ## A loop that is left in its middle -/

/-- `while c { }`, and what is behind it. -/
def whileCalls : List Bytecode.Call :=
  [.defineLabel, .createLabel, .emitLoopStart, .emitJumpIfFalse ⟨0⟩ ⟨1⟩, .emitJumpLoop ⟨0⟩,
    .bindLabel ⟨1⟩, .emitRet ⟨1⟩]

/-- What the boots compiler gets for it. -/
def whileCode : BytecodeFunction := ⟨[41, 44, 0, 5, 40, 4, 65, 1], [.int32 0], [], 0⟩

theorem createBlocks_iff_while :
    ∃ nodes g m, createBlocksWithEdgesFromBytecode Graph.new whileCode = some (g, m) ∧
      BlocksCorrect 8 nodes g m ∧ nodes.length = 4 := by
  obtain ⟨w, hr, f, hg, hf⟩ : ∃ w, Bytecode.BytecodeWriter.new.run whileCalls = some w ∧
      ∃ f, w.generate = some f ∧ f.code = whileCode.code ∧ f.constPool = [.int32 0] ∧
        w.code.length = 8 ∧ w.constPool.length = 1 := ⟨_, rfl, _, rfl, rfl, rfl, rfl, rfl⟩
  obtain ⟨hcode, hconst, hlen, hpool⟩ := hf
  have hb : ∀ c ∈ whileCalls, c.Bounded := by
    simp [whileCalls, Bytecode.Call.Bounded, Bytecode.Call.view,
      Bytecode.BytecodeInstruction.operands, Bytecode.Forward.cond]
  have hread : ∃ reader, Bytecode.BytecodeReader.read f.code = some
      ([(0, .loopStart), (1, .jumpIfFalse ⟨0⟩ 5), (4, .jumpLoop 4), (6, .ret ⟨1⟩)], reader) := by
    rw [hcode]
    exact ⟨_, rfl⟩
  obtain ⟨reader, hread⟩ := hread
  have hsent : Sent f whileCode := by
    refine ⟨hcode.symm, fun idx v h => ?_⟩
    rw [hconst] at h
    cases idx with
    | zero =>
      obtain rfl : v = 0 := by simpa using h.symm
      rfl
    | succ idx => simp at h
  have hflen : f.code.length = 8 := by rw [hcode]; rfl
  have hclosed : Closed f [(0, .loopStart), (1, .jumpIfFalse ⟨0⟩ 5), (4, .jumpLoop 4),
      (6, .ret ⟨1⟩)] := by
    intro visit hv flow hflow
    rw [hflen]
    simp only [mem_cons, not_mem_nil, or_false] at hv
    rcases hv with rfl | rfl | rfl | rfl <;> obtain rfl := Option.some.inj hflow
    · exact ⟨by decide, fun t ht => by cases ht⟩
    · exact ⟨by decide, fun t ht => by cases ht⟩
    · refine ⟨by decide, fun t ht => ⟨0, ?_, by simp⟩⟩
      obtain rfl := Flow.loop.inj ht
      rfl
    · exact ⟨by decide, fun t ht => by cases ht⟩
  obtain ⟨nodes, hnodes, hiff⟩ := createBlocks_iff hb hr hg (by omega) (by omega) hsent
    hread hclosed
  rw [hflen] at hnodes hiff
  obtain rfl : [⟨0, 1, .loopStart⟩, ⟨1, 3, .branch 6⟩, ⟨4, 2, .loop 0⟩, ⟨6, 2, .ret⟩] = nodes :=
    Option.some.inj hnodes
  have hloops : LoopsFollowed
      [⟨0, 1, .loopStart⟩, ⟨1, 3, .branch 6⟩, ⟨4, 2, .loop 0⟩, ⟨6, 2, .ret⟩] := by
    intro n hn t ht n' _ _
    refine .inr ⟨⟨1, 3, .branch 6⟩, by simp, ?_⟩
    simp only [mem_cons, not_mem_nil, or_false] at hn
    rcases hn with rfl | rfl | rfl | rfl <;> first | rfl | cases ht
  obtain ⟨g, m, hcreate, hcorrect⟩ := hiff.mpr ⟨by decide, by simp [handles, Near,
    Bytecode.BytecodeInstruction.opcode], by decide, hloops⟩
  exact ⟨_, g, m, hcreate, hcorrect, rfl⟩

/-- `while c { continue; }`: the jump at the end of the body is dead. -/
def continueCalls : List Bytecode.Call :=
  [.defineLabel, .createLabel, .emitLoopStart, .emitJumpIfFalse ⟨0⟩ ⟨1⟩, .emitJumpLoop ⟨0⟩,
    .emitJumpLoop ⟨0⟩, .bindLabel ⟨1⟩, .emitRet ⟨1⟩]

/-- What the boots compiler gets for it. -/
def continueCode : BytecodeFunction := ⟨[41, 44, 0, 7, 40, 4, 40, 6, 65, 1], [.int32 0], [], 0⟩

/-- Its control flow. -/
def continueNodes : List Node :=
  [⟨0, 1, .loopStart⟩, ⟨1, 3, .branch 8⟩, ⟨4, 2, .loop 0⟩, ⟨6, 2, .loop 0⟩, ⟨8, 2, .ret⟩]

/-- The two jumps are in one block, with an edge each. -/
theorem not_blocksCorrect_continue :
    ((Bytecode.BytecodeWriter.new.run continueCalls).bind fun w => w.generate.map fun f =>
      (f.code, f.constPool)) = some (continueCode.code, [.int32 0]) ∧
    (∃ visits reader, Bytecode.BytecodeReader.read continueCode.code = some (visits, reader) ∧
      (spans 10 visits).mapM (ofSpan [.int32 0]) = some continueNodes) ∧
    ¬ ∃ g m, createBlocksWithEdgesFromBytecode Graph.new continueCode = some (g, m) ∧
      BlocksCorrect 10 continueNodes g m := by
  refine ⟨rfl, ⟨_, _, rfl, rfl⟩, ?_⟩
  rintro ⟨g, m, hcreate, hcorrect⟩
  have hnone : (createBlocksWithEdgesFromBytecode Graph.new continueCode).map
      (fun p => p.2.blockAt 6) = some none := by decide +kernel
  rw [hcreate] at hnone
  obtain ⟨id, hid⟩ := hcorrect.terminated ⟨4, 2, .loop 0⟩ (by simp [continueNodes]) rfl
    ⟨6, 2, .loop 0⟩ (by simp [continueNodes]) rfl
  exact nomatch (Option.some.inj hnone).symm.trans hid

end Dora.Boots
