import Mathlib.Algebra.Group.Nat.Defs
import Mathlib.Data.List.Basic

/-!
# Flow graphs

The graph of the boots compiler, without the instructions in its blocks. Blocks and edges are
entries of tables and refer to each other by index; the index of a block is its id.

## Main definitions

* `Graph`: the blocks and the edges, with `addBlock` and `addSuccessor`
* `Graph.Linked`: the blocks list exactly the edges from and to them

## Main results

* `Linked.addBlock`, `Linked.addSuccessor`: both operations keep the graph linked
-/

namespace Dora.Boots

open List

structure Edge where
  source : ℕ
  target : ℕ
deriving DecidableEq, Inhabited

/-- A block: the edges into it and out of it. -/
structure Block where
  predecessors : List ℕ
  successors : List ℕ
deriving DecidableEq

namespace Block

def new : Block := ⟨[], []⟩

def pushSuccessor (e : ℕ) (b : Block) : Block := { b with successors := b.successors ++ [e] }

def pushPredecessor (e : ℕ) (b : Block) : Block := { b with predecessors := b.predecessors ++ [e] }

end Block

structure Graph where
  entryBlock : Option ℕ
  blocks : List Block
  edges : List Edge
deriving DecidableEq

namespace Graph

variable {id source target : ℕ} {g' : Graph}

def new : Graph := ⟨none, [], []⟩

variable (g : Graph)

/-- The block with an id. References are always valid, so the default is never used. -/
def block (id : ℕ) : Block := g.blocks.getD id Block.new

def edge (e : ℕ) : Edge := g.edges.getD e default

def modifyBlock (id : ℕ) (f : Block → Block) : Graph := { g with blocks := g.blocks.modify id f }

/-- A new block gets the next id. Ids are `Int32` numbers and their addition is checked. -/
def addBlock : Option (ℕ × Graph) :=
  if g.blocks.length + 1 < 2 ^ 31 then
    some (g.blocks.length, { g with blocks := g.blocks ++ [Block.new] })
  else none

def setEntryBlock (id : ℕ) : Graph := { g with entryBlock := some id }

def pushEdge (edge : Edge) : Graph := { g with edges := g.edges ++ [edge] }

/-- `source.addSuccessor(target)`. -/
def addSuccessor (source target : ℕ) : Graph :=
  let e := g.edges.length
  ((g.pushEdge ⟨source, target⟩).modifyBlock source (Block.pushSuccessor e)).modifyBlock
    target (Block.pushPredecessor e)

/-! ## Edges -/

/-- The edges with a property, in the order of creation. -/
def edgesWhere (p : Edge → Bool) : List ℕ :=
  (List.range g.edges.length).filter fun e => p (g.edge e)

/-- **The blocks list exactly the edges from and to them.** -/
structure Linked : Prop where
  successors : ∀ id, (g.block id).successors = g.edgesWhere fun e => e.source = id
  predecessors : ∀ id, (g.block id).predecessors = g.edgesWhere fun e => e.target = id
  bounds : ∀ e ∈ g.edges, e.source < g.blocks.length ∧ e.target < g.blocks.length

/-- The targets of the edges from a block, in the order of creation. -/
def targets (id : ℕ) : List ℕ := (g.edges.filter fun e => e.source = id).map Edge.target

variable {g}

theorem block_modifyBlock {other : ℕ} {f : Block → Block} (h : id < g.blocks.length) :
    (g.modifyBlock id f).block other = if id = other then f (g.block other) else g.block other := by
  simp only [block, modifyBlock]
  by_cases heq : id = other
  · subst heq
    simp [h]
  · simp [heq]

theorem blocks_modifyBlock (id : ℕ) (f : Block → Block) :
    (g.modifyBlock id f).blocks.length = g.blocks.length := length_modify _ _ _

theorem edge_pushEdge (edge : Edge) {e : ℕ} :
    (g.pushEdge edge).edge e = if e < g.edges.length then g.edge e
      else if e = g.edges.length then edge else default := by
  simp only [Graph.edge, pushEdge, getD_eq_getElem?_getD, getElem?_append]
  split
  · rfl
  · next h =>
    split
    · next heq => simp [heq]
    · have hne : e - g.edges.length ≠ 0 := by omega
      rw [getElem?_eq_none_iff.mpr (by simpa using Nat.one_le_iff_ne_zero.mpr hne)]
      rfl

theorem edgesWhere_pushEdge (edge : Edge) (p : Edge → Bool) :
    (g.pushEdge edge).edgesWhere p = g.edgesWhere p ++ if p edge then [g.edges.length] else [] := by
  have hlen : (g.pushEdge edge).edges.length = g.edges.length + 1 := by simp [pushEdge]
  rw [edgesWhere, hlen, range_succ, filter_append, edgesWhere]
  congr 1
  · refine filter_congr fun e he => ?_
    rw [edge_pushEdge, if_pos (mem_range.mp he)]
  · rw [filter_singleton, edge_pushEdge, if_neg (Nat.lt_irrefl _), if_pos rfl, Bool.cond_eq_ite]

theorem addBlock_eq_some (h : g.addBlock = some (id, g')) :
    g.blocks.length + 1 < 2 ^ 31 ∧ id = g.blocks.length ∧
      g' = { g with blocks := g.blocks ++ [Block.new] } := by
  rw [addBlock] at h
  split at h
  · next hlt =>
    cases h
    exact ⟨hlt, rfl, rfl⟩
  · cases h

theorem block_append_new (id : ℕ) :
    ({ g with blocks := g.blocks ++ [Block.new] } : Graph).block id = g.block id := by
  simp only [block, getD_eq_getElem?_getD, getElem?_append]
  split
  · rfl
  · next h =>
    rw [getElem?_eq_none_iff.mpr (Nat.not_lt.mp h)]
    cases hb : [Block.new][id - g.blocks.length]? with
    | none => rfl
    | some b => exact mem_singleton.mp (mem_of_getElem? hb)

theorem Linked.addBlock (hg : g.Linked) (h : g.addBlock = some (id, g')) : g'.Linked := by
  obtain ⟨-, -, rfl⟩ := addBlock_eq_some h
  refine ⟨fun id => ?_, fun id => ?_, fun e he => ?_⟩
  · rw [block_append_new]
    exact hg.successors id
  · rw [block_append_new]
    exact hg.predecessors id
  · obtain ⟨hs, ht⟩ := hg.bounds e he
    exact ⟨by simp; omega, by simp; omega⟩

theorem block_addSuccessor (hs : source < g.blocks.length)
    (ht : target < g.blocks.length) (id : ℕ) :
    ((g.addSuccessor source target).block id).successors =
        (g.block id).successors ++ (if source = id then [g.edges.length] else []) ∧
      ((g.addSuccessor source target).block id).predecessors =
        (g.block id).predecessors ++ (if target = id then [g.edges.length] else []) := by
  have hblock : (g.pushEdge ⟨source, target⟩).block id = g.block id := rfl
  have hs' : source < (g.pushEdge ⟨source, target⟩).blocks.length := hs
  rw [addSuccessor, block_modifyBlock (by rw [blocks_modifyBlock]; exact ht),
    block_modifyBlock hs', hblock]
  by_cases h1 : source = id
  · by_cases h2 : target = id
    · rw [if_pos h1, if_pos h2, if_pos h1, if_pos h2]
      exact ⟨rfl, rfl⟩
    · rw [if_pos h1, if_neg h2, if_pos h1, if_neg h2, append_nil]
      exact ⟨rfl, rfl⟩
  · by_cases h2 : target = id
    · rw [if_neg h1, if_pos h2, if_neg h1, if_pos h2, append_nil]
      exact ⟨rfl, rfl⟩
    · rw [if_neg h1, if_neg h2, if_neg h1, if_neg h2, append_nil, append_nil]
      exact ⟨rfl, rfl⟩

theorem length_addSuccessor (source target : ℕ) :
    (g.addSuccessor source target).blocks.length = g.blocks.length := by
  rw [addSuccessor, blocks_modifyBlock, blocks_modifyBlock]
  rfl

/-- **Adding an edge** keeps the graph linked. -/
theorem Linked.addSuccessor (hg : g.Linked) (hs : source < g.blocks.length)
    (ht : target < g.blocks.length) : (g.addSuccessor source target).Linked := by
  have hwhere : ∀ p, (g.addSuccessor source target).edgesWhere p =
      (g.pushEdge ⟨source, target⟩).edgesWhere p := fun _ => rfl
  refine ⟨fun id => ?_, fun id => ?_, fun e he => ?_⟩
  · rw [(block_addSuccessor hs ht id).1, hg.successors, hwhere, edgesWhere_pushEdge]
    simp only [decide_eq_true_eq]
  · rw [(block_addSuccessor hs ht id).2, hg.predecessors, hwhere, edgesWhere_pushEdge]
    simp only [decide_eq_true_eq]
  · rw [length_addSuccessor]
    rcases mem_append.mp he with he | he
    · exact hg.bounds e he
    · obtain rfl := mem_singleton.mp he
      exact ⟨hs, ht⟩

theorem targets_addSuccessor (source target id : ℕ) :
    (g.addSuccessor source target).targets id =
      g.targets id ++ if source = id then [target] else [] := by
  have hedges : (g.addSuccessor source target).edges = g.edges ++ [⟨source, target⟩] := rfl
  rw [targets, hedges, filter_append, map_append, targets]
  by_cases h : source = id <;> simp [h]

end Graph

end Dora.Boots
