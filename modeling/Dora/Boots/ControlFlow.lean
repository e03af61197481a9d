import Dora.Boots.Agreement
import Dora.Boots.BlockBuilder

/-!
# The control flow of bytecode

Where control can go from an instruction, and the blocks this divides the code into. The virtual
machine reads operands as unsigned numbers, the boots compiler as signed ones.

## Main definitions

* `Node`, `isLeader`: an instruction with its control flow, and the starts of the blocks
* `BlocksCorrect`: a graph has these blocks and edges
* `Shaped`, `Near`: well-formed control flow, and jumps that both see alike

## Main results

* `mapM_ofInfo`: both see the same control flow where the jumps are near
* `wellFormed_generate`: the writer generates well-formed code
-/

namespace Dora.Boots

open Bytecode (BytecodeReader BytecodeOpcode)
open List Bytecode.BytecodeInstruction Layout

/-! ## Blocks -/

/-- How control leaves an instruction. -/
inductive Flow
  | next
  | loopStart
  | ret
  | loop (target : ℤ)
  | branch (target : ℤ)
  | jump (target : ℤ)
deriving DecidableEq

namespace Flow

def target : Flow → Option ℤ
  | .loop t | .branch t | .jump t => some t
  | _ => none

/-- The target of a forward jump. -/
def forward : Flow → Option ℤ
  | .branch t | .jump t => some t
  | _ => none

theorem target_of_forward {flow : Flow} {t : ℤ} (h : flow.forward = some t) :
    flow.target = some t := by
  cases flow <;> first | exact h | cases h

/-- Jumps, conditional jumps and returns end a block. -/
def ends : Flow → Bool
  | .next | .loopStart => false
  | _ => true

/-- Control may go on with the following instruction. -/
def falls : Flow → Bool
  | .next | .loopStart | .branch _ => true
  | _ => false

end Flow

structure Node where
  start : ℕ
  size : ℕ
  flow : Flow
deriving DecidableEq

namespace Node

def stop (n : Node) : ℕ := n.start + n.size

/-- Where control can go from an instruction, once per reason. -/
def exits (len : ℕ) (n : Node) : List ℤ :=
  n.flow.target.toList ++ if n.flow.falls ∧ n.stop < len then [(n.stop : ℤ)] else []

end Node

/-- **The leaders**: the first instruction, the targets of jumps, the starts of loops, and the
instructions behind a jump, a conditional jump or a return. -/
def isLeader (nodes : List Node) (offset : ℕ) : Bool :=
  offset = 0 || nodes.any fun n =>
    n.flow.target = some (offset : ℤ) || (n.flow = .loopStart && n.start = offset) ||
      (n.flow.ends && n.stop = offset)

def leaders (nodes : List Node) : List ℕ := (nodes.map Node.start).filter (isLeader nodes)

/-- The last instruction of the block at an offset. -/
structure LastOf (nodes : List Node) (offset : ℕ) (n : Node) : Prop where
  mem : n ∈ nodes
  leader : offset ∈ leaders nodes
  le : offset ≤ n.start
  inside : ∀ o ∈ leaders nodes, offset < o → n.start < o
  last : n.stop ∈ leaders nodes ∨ ∀ n' ∈ nodes, n'.start < n.stop

/-- **The blocks of the code.** -/
structure BlocksCorrect (len : ℕ) (nodes : List Node) (g : Graph) (m : BlockMap) : Prop where
  /-- There are blocks exactly at the leaders. -/
  starts : ∀ o : ℤ, (∃ id, m.blockAt o = some id) ↔ ∃ o' ∈ leaders nodes, o = o'
  /-- The blocks of the graph are those of the map, each at one offset. -/
  blocks : ∀ id, id < g.blocks.length ↔ ∃ o, m.blockAt o = some id
  unique : ∀ o o' id, m.blockAt o = some id → m.blockAt o' = some id → o = o'
  entry : g.entryBlock = m.blockAt 0
  linked : g.Linked
  /-- The edges from a block lead to where control can go from its last instruction. -/
  edges : ∀ o n id, LastOf nodes o n → m.blockAt o = some id →
    ((g.targets id).map some).Perm ((n.exits len).map m.blockAt)
  /-- No instruction follows a terminator inside a block. -/
  terminated : ∀ n ∈ nodes, n.flow.ends → ∀ n' ∈ nodes, n'.start = n.stop →
    ∃ id, m.blockAt n'.start = some id

/-! ## Instructions -/

/-- The distance in the pool, as the unsigned number that the writer has put there. -/
def distanceAt (pool : List Bytecode.ConstPoolEntry) (idx : Bytecode.ConstPoolIdx) : Option ℤ :=
  distanceConst (fun v => v.toNat) pool idx

/-- The control flow of an instruction of the virtual machine. -/
def flowOf (pool : List Bytecode.ConstPoolEntry) (start : ℕ) :
    Bytecode.BytecodeInstruction → Option Flow
  | .loopStart => some .loopStart
  | .ret _ => some .ret
  | .jumpLoop offset => some (.loop (start - offset))
  | .jump offset => some (.jump (start + offset))
  | .jumpIfFalse _ offset | .jumpIfTrue _ offset => some (.branch (start + offset))
  | .jumpConst idx => (distanceAt pool idx).map fun distance => .jump (start + distance)
  | .jumpIfFalseConst _ idx | .jumpIfTrueConst _ idx =>
    (distanceAt pool idx).map fun distance => .branch (start + distance)
  | _ => some .next

/-- The control flow of an instruction, as the boots compiler sees it. -/
def flowAt (bc : BytecodeFunction) (start : ℕ) : BytecodeInstruction → Option Flow
  | .loopStart => some .loopStart
  | .ret _ => some .ret
  | .jumpLoop distance => some (.loop (start - distance.toInt))
  | .jump distance => some (.jump (start + distance.toInt))
  | .jumpIfFalse _ distance | .jumpIfTrue _ distance => some (.branch (start + distance.toInt))
  | .jumpConst idx => (bc.constInt32At idx).map fun distance => .jump (start + distance)
  | .jumpIfFalseConst _ idx | .jumpIfTrueConst _ idx =>
    (bc.constInt32At idx).map fun distance => .branch (start + distance)
  | _ => some .next

namespace Node

def ofSpan (pool : List Bytecode.ConstPoolEntry)
    (span : ℕ × ℕ × Bytecode.BytecodeInstruction) : Option Node :=
  (flowOf pool span.1 span.2.2).map fun flow => ⟨span.1, span.2.1, flow⟩

def ofInfo (bc : BytecodeFunction) (info : BytecodeInstructionInfo) : Option Node :=
  (flowAt bc info.start info.inst).map fun flow => ⟨info.start, info.size, flow⟩

end Node

/-- **Well-formed code**: the virtual machine can read it, its forward jumps go forward to
instructions inside the code, and its loops jump back to the start of a loop. Offsets into the code
and indices of constants are 32-bit numbers. -/
structure WellFormed (f : Bytecode.BytecodeFunction)
    (visits : List (ℕ × Bytecode.BytecodeInstruction)) (nodes : List Node) : Prop where
  length_code : f.code.length < 2 ^ 32
  length_constPool : f.constPool.length ≤ 2 ^ 32
  read : ∃ reader, BytecodeReader.read f.code = some (visits, reader)
  flows : (spans f.code.length visits).mapM (Node.ofSpan f.constPool) = some nodes
  forward : ∀ n ∈ nodes, ∀ t, n.flow.forward = some t → n.start < t ∧ ∃ n' ∈ nodes, t = n'.start
  loops : ∀ n ∈ nodes, ∀ t, n.flow = .loop t → ∃ n' ∈ nodes, t = n'.start ∧ n'.flow = .loopStart

/-- The distance and the index of a jump are small enough for a signed number. -/
def Near (pool : List Bytecode.ConstPoolEntry) : Bytecode.BytecodeInstruction → Prop
  | .jumpLoop offset | .jump offset | .jumpIfFalse _ offset | .jumpIfTrue _ offset =>
    offset < 2 ^ 31
  | .jumpConst idx | .jumpIfFalseConst _ idx | .jumpIfTrueConst _ idx =>
    idx.toUsize < 2 ^ 31 ∧ ∀ distance, distanceAt pool idx = some distance → distance < 2 ^ 31
  | _ => True

/-- The boots compiler has got the code and the integer constants of a function. -/
structure Sent (f : Bytecode.BytecodeFunction) (bc : BytecodeFunction) : Prop where
  code : bc.code = f.code
  constPool : ∀ (idx : ℕ) (v : BitVec 32), f.constPool[idx]? = some (.int32 v) →
    bc.constPool[idx]? = some (.int32 v)

/-! ## Instructions without gaps -/

/-- Instructions that follow each other up to the end of the code. -/
def Contiguous (len : ℕ) : ℕ → List Node → Prop
  | start, [] => start = len
  | start, n :: nodes => n.start = start ∧ 0 < n.size ∧ Contiguous len n.stop nodes

/-- The reader never goes back. -/
def Grows {α : Type} (m : Bytecode.ReadM α) : Prop := ∀ r p, m r = some p → r.offset ≤ p.2.offset

section Grows

open Bytecode.BytecodeReader

variable {α β : Type}

variable {m : Bytecode.ReadM α} {r : BytecodeReader}

theorem Grows.bind {f : α → Bytecode.ReadM β} (hm : Grows m)
    (hf : ∀ a, Grows (f a)) : Grows (m >>= f) := by
  rintro r ⟨b, r'⟩ h
  obtain ⟨a, r1, h1, h2⟩ := bind_eq_some.mp h
  exact (hm r _ h1).trans (hf a r1 _ h2)

theorem Grows.pure (a : α) : Grows (Pure.pure a) := by
  rintro r ⟨b, r'⟩ h
  obtain ⟨-, rfl⟩ := pure_eq_some.mp h
  exact le_refl _

theorem Grows.of_eq_none (h : ∀ r, m r = none) : Grows m :=
  fun r _ hm => nomatch (h r).symm.trans hm

theorem readByte_offset {p : UInt8 × BytecodeReader}
    (h : readByte r = some p) : p.2.offset = r.offset + 1 := by
  obtain ⟨b, -, h⟩ := Option.bind_eq_some_iff.mp h
  cases h
  rfl

theorem grows_readByte : Grows readByte := fun _ _ h => by
  rw [readByte_offset h]
  exact Nat.le_succ _

theorem grows_readWide : Grows readWide :=
  grows_readByte.bind fun _ => grows_readByte.bind fun _ => grows_readByte.bind fun _ =>
    grows_readByte.bind fun _ => .pure _

theorem grows_readIndex : Grows readIndex := by
  intro r p h
  cases hw : r.width with
  | normal =>
    have hrun : readIndex r = (readByte >>= fun b => Pure.pure b.toNat) r := by
      simp only [readIndex, bind_apply, get_apply, Option.bind_some, hw]
    exact (grows_readByte.bind fun _ => .pure _) r p (hrun ▸ h)
  | wide =>
    have hrun : readIndex r = readWide r := by simp [readIndex, hw]
    exact grows_readWide r p (hrun ▸ h)

theorem grows_readRegister : Grows readRegister := grows_readIndex.bind fun _ => .pure _

theorem grows_readConstPoolIdx : Grows readConstPoolIdx := grows_readIndex.bind fun _ => .pure _

theorem grows_readGlobal : Grows readGlobal := grows_readIndex.bind fun _ => .pure _

theorem grows_readOperands (op : BytecodeOpcode) : Grows (readOperands op) := by
  cases op
  case wide => exact .of_eq_none fun _ => rfl
  all_goals
    repeat first
      | exact Grows.pure _
      | refine grows_readRegister.bind fun _ => ?_
      | refine grows_readConstPoolIdx.bind fun _ => ?_
      | refine grows_readGlobal.bind fun _ => ?_
      | refine grows_readByte.bind fun _ => ?_
      | refine Grows.bind grows_readIndex fun _ => ?_

theorem grows_readBehind (start : ℕ) (b : UInt8) : Grows (readBehind start b) := by
  cases hop : BytecodeOpcode.fromU8 b with
  | none =>
    refine .of_eq_none fun r => ?_
    simp [readBehind, hop]
  | some op =>
    have hlift : Grows (StateT.lift (BytecodeOpcode.fromU8 b)) := by
      rw [hop]
      exact .pure op
    have hget : Grows get := fun r p h => by
      cases h
      exact le_refl _
    exact hlift.bind fun _ => (grows_readOperands _).bind fun _ => hget.bind fun _ => .pure _

theorem readInstruction_offset
    {p : (ℕ × Bytecode.OperandWidth × BytecodeOpcode × Bytecode.BytecodeInstruction) ×
      BytecodeReader}
    (h : readInstruction r = some p) : r.offset < p.2.offset := by
  cases hb : r.code[r.offset]? with
  | none => simp [readInstruction, readOpcode, readByte, hb] at h
  | some b =>
    by_cases hw : b = BytecodeOpcode.wide.toU8
    · subst hw
      cases hb' : r.code[r.offset + 1]? with
      | none => simp [readInstruction, readOpcode, readByte, hb, hb', setWidth] at h
      | some b' =>
        rw [readInstruction_of_wide hb hb'] at h
        have hle : r.offset + 2 ≤ p.2.offset := grows_readBehind _ _ _ _ h
        omega
    · rw [readInstruction_of_byte hb hw] at h
      have hle : r.offset + 1 ≤ p.2.offset := grows_readBehind _ _ _ _ h
      omega

end Grows

theorem contiguous_readLoop (pool : List Bytecode.ConstPoolEntry) (fuel : ℕ) {r r' : BytecodeReader}
    (hr : r.offset ≤ r.code.length) {visits : List (ℕ × Bytecode.BytecodeInstruction)}
    {nodes : List Node} (h : BytecodeReader.readLoop fuel r.offset r = some (visits, r'))
    (hnodes : (spans r.code.length visits).mapM (Node.ofSpan pool) = some nodes) :
    Contiguous r.code.length r.offset nodes := by
  induction fuel generalizing r r' visits nodes with
  | zero => cases h
  | succ fuel ih =>
    rcases Nat.lt_or_eq_of_le hr with hlt | hend
    · rw [readLoop_succ hlt] at h
      obtain ⟨p, hp, h⟩ := Option.bind_eq_some_iff.mp h
      obtain ⟨q, hq, h⟩ := Option.map_eq_some_iff.mp h
      obtain ⟨rfl, -⟩ := Prod.mk.inj h
      obtain ⟨hcode, hle⟩ := (readInstruction_follows r).2 p hp
      have hnext := nextStart_readLoop (hcode ▸ hle) hq
      have hadv := readInstruction_offset hp
      rw [hcode] at hnext
      rw [spans, hnext, mapM_cons] at hnodes
      obtain ⟨n, hn, hnodes⟩ := Option.bind_eq_some_iff.mp hnodes
      obtain ⟨nodes', hnodes', hcons⟩ := Option.bind_eq_some_iff.mp hnodes
      cases hcons
      obtain ⟨flow, -, rfl⟩ := Option.map_eq_some_iff.mp hn
      have hrest := ih (hcode ▸ hle) hq (hcode ▸ hnodes')
      rw [hcode] at hrest
      refine ⟨rfl, Nat.sub_pos_of_lt hadv, ?_⟩
      have hstop : r.offset + (p.2.offset - r.offset) = p.2.offset := by omega
      rw [Node.stop, hstop]
      exact hrest
    · rw [readLoop_end hend] at h
      cases h
      cases hnodes
      exact hend

section WellFormed

variable {f : Bytecode.BytecodeFunction} {visits : List (ℕ × Bytecode.BytecodeInstruction)}
  {nodes : List Node}

theorem WellFormed.contiguous (h : WellFormed f visits nodes) :
    Contiguous f.code.length 0 nodes := by
  obtain ⟨reader, hread⟩ := h.read
  exact contiguous_readLoop f.constPool _ (r := .new f.code) (Nat.zero_le _) hread h.flows

end WellFormed

namespace Contiguous

variable {len start : ℕ} {nodes : List Node}

theorem le (h : Contiguous len start nodes) : start ≤ len := by
  induction nodes generalizing start with
  | nil => exact le_of_eq h
  | cons n nodes ih =>
    obtain ⟨rfl, -, hrest⟩ := h
    exact (Nat.le_add_right _ _).trans (ih hrest)

theorem bounds (h : Contiguous len start nodes) {n : Node} (hn : n ∈ nodes) :
    start ≤ n.start ∧ n.start < n.stop ∧ n.stop ≤ len := by
  induction nodes generalizing start with
  | nil => cases hn
  | cons n' nodes ih =>
    obtain ⟨rfl, hsize, hrest⟩ := h
    rcases mem_cons.mp hn with rfl | hn
    · exact ⟨le_refl _, Nat.lt_add_of_pos_right hsize, hrest.le⟩
    · have hb := ih hrest hn
      have hstop : n'.start ≤ n'.stop := Nat.le_add_right _ _
      omega

theorem append {before after : List Node} (h : Contiguous len start (before ++ after)) :
    ∃ mid, Contiguous mid start before ∧ Contiguous len mid after := by
  induction before generalizing start with
  | nil => exact ⟨start, rfl, h⟩
  | cons n before ih =>
    obtain ⟨hstart, hsize, hrest⟩ := h
    obtain ⟨mid, hb, ha⟩ := ih hrest
    exact ⟨mid, ⟨hstart, hsize, hb⟩, ha⟩

section

variable (h : Contiguous len start nodes)
include h

variable {n n' : Node}

theorem sorted : (nodes.map Node.start).Pairwise (· < ·) := by
  induction nodes generalizing start with
  | nil => exact .nil
  | cons n nodes ih =>
    obtain ⟨rfl, hsize, hrest⟩ := h
    refine pairwise_cons.mpr ⟨fun o ho => ?_, ih hrest⟩
    obtain ⟨n', hn', rfl⟩ := mem_map.mp ho
    have hb := hrest.bounds hn'
    have hstop : n.start < n.stop := Nat.lt_add_of_pos_right hsize
    omega

theorem eq_of_start (hn : n ∈ nodes) (hn' : n' ∈ nodes) (heq : n.start = n'.start) :
    n = n' :=
  inj_on_of_nodup_map (h.sorted.imp Nat.ne_of_lt) hn hn' heq

theorem exists_start (hn : n ∈ nodes) (hlt : n.stop < len) : ∃ n' ∈ nodes, n'.start = n.stop := by
  induction nodes generalizing start with
  | nil => cases hn
  | cons n1 nodes ih =>
    obtain ⟨rfl, -, hrest⟩ := h
    rcases mem_cons.mp hn with rfl | hn
    · cases nodes with
      | nil => exact absurd hrest (ne_of_lt hlt)
      | cons n' nodes => exact ⟨n', by simp, hrest.1⟩
    · obtain ⟨n', hn', hstart⟩ := ih hrest hn
      exact ⟨n', mem_cons_of_mem _ hn', hstart⟩

theorem stop_le_start (hn : n ∈ nodes) (hn' : n' ∈ nodes) (hlt : n.start < n'.start) :
    n.stop ≤ n'.start := by
  obtain ⟨before, after, rfl⟩ := append_of_mem hn
  obtain ⟨mid, hbefore, hafter⟩ := h.append
  obtain ⟨rfl, -, hrest⟩ := hafter
  rcases mem_append.mp hn' with hn' | hn'
  · have hb := hbefore.bounds hn'
    omega
  · rcases mem_cons.mp hn' with rfl | hn'
    · omega
    · exact (hrest.bounds hn').1

theorem eq_of_stop (hn : n ∈ nodes) (hn' : n' ∈ nodes) (heq : n.stop = n'.stop) : n = n' := by
  refine h.eq_of_start hn hn' ?_
  by_contra hne
  have hb := h.bounds hn
  have hb' := h.bounds hn'
  rcases Nat.lt_or_gt_of_ne hne with hlt | hgt
  · have := h.stop_le_start hn hn' hlt
    omega
  · have := h.stop_le_start hn' hn hgt
    omega

end

end Contiguous

/-- **The shape of the code** in terms of its control flow. -/
structure Shaped (len : ℕ) (nodes : List Node) : Prop where
  contiguous : Contiguous len 0 nodes
  forward : ∀ n ∈ nodes, ∀ t, n.flow.forward = some t → n.start < t ∧ ∃ n' ∈ nodes, t = n'.start
  loops : ∀ n ∈ nodes, ∀ t, n.flow = .loop t →
    t ≤ n.start ∧ ∃ n' ∈ nodes, t = n'.start ∧ n'.flow = .loopStart

theorem flowOf_loop {pool : List Bytecode.ConstPoolEntry} {start : ℕ}
    {i : Bytecode.BytecodeInstruction} {t : ℤ} (h : flowOf pool start i = some (.loop t)) :
    t ≤ start := by
  cases i
  case jumpLoop offset =>
    obtain rfl := Flow.loop.inj (Option.some.inj h)
    omega
  case jumpConst idx | jumpIfFalseConst opnd idx | jumpIfTrueConst opnd idx =>
    obtain ⟨_, -, h⟩ := Option.map_eq_some_iff.mp h
    cases h
  all_goals cases h

theorem WellFormed.shaped {f : Bytecode.BytecodeFunction}
    {visits : List (ℕ × Bytecode.BytecodeInstruction)} {nodes : List Node}
    (h : WellFormed f visits nodes) : Shaped f.code.length nodes where
  contiguous := h.contiguous
  forward := h.forward
  loops n hn t ht := by
    refine ⟨?_, h.loops n hn t ht⟩
    obtain ⟨span, -, hspan⟩ := exists_of_forall₂_right (mapM_eq_some_iff.mp h.flows) hn
    obtain ⟨flow, hflow, rfl⟩ := Option.map_eq_some_iff.mp hspan
    subst ht
    exact flowOf_loop hflow

/-! ## The control flow as both see it -/

theorem toInt_ofNat_of_lt {n : ℕ} (h : n < 2 ^ 31) : (BitVec.ofNat 32 n).toInt = n := by
  rw [BitVec.toInt_eq_toNat_cond, BitVec.toNat_ofNat, Nat.mod_eq_of_lt (by omega),
    if_pos (by omega)]

theorem toInt_ofNat_of_ge {n : ℕ} (h : 2 ^ 31 ≤ n) (hlt : n < 2 ^ 32) :
    (BitVec.ofNat 32 n).toInt = n - 2 ^ 32 := by
  rw [BitVec.toInt_eq_toNat_cond, BitVec.toNat_ofNat, Nat.mod_eq_of_lt hlt, if_neg (by omega)]
  rfl

theorem distanceAt_eq_some {pool : List Bytecode.ConstPoolEntry} {idx : Bytecode.ConstPoolIdx}
    {distance : ℤ} (h : distanceAt pool idx = some distance) :
    ∃ v, pool[idx.toUsize]? = some (.int32 v) ∧ distance = v.toNat := by
  rw [distanceAt, distanceConst] at h
  split at h
  · next v hv => exact ⟨v, hv, (Option.some.inj h).symm⟩
  · cases h

section Translated

variable {f : Bytecode.BytecodeFunction} {bc : BytecodeFunction} {start : ℕ}
  {i : Bytecode.BytecodeInstruction} {i' : BytecodeInstruction} {flow : Flow}

variable {idx : Bytecode.ConstPoolIdx} {distance : ℤ}

theorem Sent.constInt32At (h : Sent f bc)
    (hidx : idx.toUsize < 2 ^ 31) (hd : distanceAt f.constPool idx = some distance)
    (hlt : distance < 2 ^ 31) : bc.constInt32At (constPoolId idx) = some distance := by
  obtain ⟨v, hv, rfl⟩ := distanceAt_eq_some hd
  have hint : (constPoolId idx).value.toInt = idx.toUsize := toInt_ofNat_of_lt hidx
  have hval : v.toInt = v.toNat := by
    rw [BitVec.toInt_eq_toNat_cond, if_pos (by omega)]
  rw [BytecodeFunction.constInt32At, BytecodeFunction.constPoolAt, hint, if_neg (by omega),
    Int.toNat_natCast, h.constPool _ v hv]
  exact congrArg some hval

theorem flowAt_translate (h : Sent f bc) (ht : translate i = some i') (hnear : Near f.constPool i)
    (hflow : flowOf f.constPool start i = some flow) : flowAt bc start i' = some flow := by
  cases i
  case jumpLoop offset | jump offset | jumpIfFalse opnd offset | jumpIfTrue opnd offset =>
    cases ht
    cases hflow
    rw [flowAt, toInt_ofNat_of_lt hnear]
  case jumpConst idx | jumpIfFalseConst opnd idx | jumpIfTrueConst opnd idx =>
    cases ht
    obtain ⟨distance, hd, rfl⟩ := Option.map_eq_some_iff.mp hflow
    rw [flowAt, h.constInt32At hnear.1 hd (hnear.2 _ hd)]
    rfl
  all_goals first | exact Option.some.inj ht ▸ hflow | cases ht

/-- A jump that the boots compiler takes to lead out of the code. -/
def Flow.Stray (len : ℕ) (flow : Flow) : Prop :=
  (∃ t, flow.forward = some t ∧ t < 0) ∨ ∃ t, flow = .loop t ∧ len ≤ t

theorem Sent.constInt32At_far (h : Sent f bc) (hpool : f.constPool.length ≤ 2 ^ 32) {distance' : ℤ}
    (hd : distanceAt f.constPool idx = some distance)
    (hfar : ¬ (idx.toUsize < 2 ^ 31 ∧
      ∀ distance, distanceAt f.constPool idx = some distance → distance < 2 ^ 31))
    (hd' : bc.constInt32At (constPoolId idx) = some distance') : distance' = distance - 2 ^ 32 := by
  obtain ⟨v, hv, rfl⟩ := distanceAt_eq_some hd
  have hlt := (List.getElem?_eq_some_iff.mp hv).1
  by_cases hidx : idx.toUsize < 2 ^ 31
  · have hint : (constPoolId idx).value.toInt = idx.toUsize := toInt_ofNat_of_lt hidx
    have hge : 2 ^ 31 ≤ v.toNat := by
      by_contra hc
      refine hfar ⟨hidx, fun distance hdist => ?_⟩
      rw [hd] at hdist
      cases hdist
      omega
    rw [BytecodeFunction.constInt32At, BytecodeFunction.constPoolAt, hint, if_neg (by omega),
      Int.toNat_natCast, h.constPool _ v hv] at hd'
    cases hd'
    rw [BitVec.toInt_eq_toNat_cond, if_neg (by omega)]
    rfl
  · have hint : (constPoolId idx).value.toInt = idx.toUsize - 2 ^ 32 :=
      toInt_ofNat_of_ge (Nat.not_lt.mp hidx) (by omega)
    rw [BytecodeFunction.constInt32At, BytecodeFunction.constPoolAt, hint, if_pos (by omega)] at hd'
    cases hd'

/-- **A jump that is not near** leads out of the code, in the eyes of the boots compiler. -/
theorem stray_of_far (h : Sent f bc) (hpool : f.constPool.length ≤ 2 ^ 32)
    (hcode : f.code.length < 2 ^ 32) (ht : translate i = some i')
    (hfar : ¬ Near f.constPool i) {flow' : Flow}
    (hflow : flowOf f.constPool start i = some flow)
    (hforward : ∀ t, flow.forward = some t → t < f.code.length)
    (hloop : ∀ t, flow = .loop t → 0 ≤ t) (hstart : start < f.code.length)
    (hflow' : flowAt bc start i' = some flow') : flow'.Stray f.code.length := by
  cases i
  case jumpLoop offset =>
    cases ht
    cases hflow
    have hle := hloop _ rfl
    rw [flowAt, toInt_ofNat_of_ge (Nat.not_lt.mp hfar) (by omega)] at hflow'
    cases hflow'
    exact .inr ⟨_, rfl, by omega⟩
  case jump offset | jumpIfFalse opnd offset | jumpIfTrue opnd offset =>
    cases ht
    cases hflow
    have hlt := hforward _ rfl
    rw [flowAt, toInt_ofNat_of_ge (Nat.not_lt.mp hfar) (by omega)] at hflow'
    cases hflow'
    exact .inl ⟨_, rfl, by omega⟩
  case jumpConst idx | jumpIfFalseConst opnd idx | jumpIfTrueConst opnd idx =>
    cases ht
    obtain ⟨distance, hd, rfl⟩ := Option.map_eq_some_iff.mp hflow
    obtain ⟨distance', hd', rfl⟩ := Option.map_eq_some_iff.mp hflow'
    obtain rfl := h.constInt32At_far hpool hd hfar hd'
    have hlt := hforward _ rfl
    exact .inl ⟨_, rfl, by omega⟩
  all_goals exact absurd trivial hfar

theorem handles_of_translate (ht : translate i = some i') : handles i.opcode := by
  cases i <;> first | rfl | cases ht

end Translated

/-! ## The whole code -/

theorem map_spans (stop : ℕ) (visits : List (ℕ × Bytecode.BytecodeInstruction)) :
    (spans stop visits).map (fun span => (span.1, span.2.2)) = visits := by
  induction visits with
  | nil => rfl
  | cons visit visits ih => rw [spans, map_cons, ih]

section

variable {visits : List (ℕ × Bytecode.BytecodeInstruction)}

theorem mem_of_mem_spans {stop : ℕ} {span : ℕ × ℕ × Bytecode.BytecodeInstruction}
    (h : span ∈ spans stop visits) :
    (span.1, span.2.2) ∈ visits := by
  have hmem := mem_map_of_mem (f := fun span => (span.1, span.2.2)) h
  rwa [map_spans] at hmem

theorem mem_spans (stop : ℕ) {visit : ℕ × Bytecode.BytecodeInstruction} (h : visit ∈ visits) :
    ∃ size, (visit.1, size, visit.2) ∈ spans stop visits := by
  rw [← map_spans stop visits] at h
  obtain ⟨⟨start, size, i⟩, hspan, rfl⟩ := mem_map.mp h
  exact ⟨size, hspan⟩

theorem forall_spans (stop : ℕ) {p : Bytecode.BytecodeInstruction → Prop} :
    (∀ span ∈ spans stop visits, p span.2.2) ↔ ∀ visit ∈ visits, p visit.2 := by
  conv_rhs => rw [← map_spans stop visits]
  rw [forall_mem_map]

end

section Whole

variable {f : Bytecode.BytecodeFunction} {bc : BytecodeFunction}
  {visits : List (ℕ × Bytecode.BytecodeInstruction)} {nodes : List Node}
  {infos : List BytecodeInstructionInfo}

/-- **Where the jumps are near**, the boots compiler sees the same control flow. -/
theorem mapM_ofInfo (h : Sent f bc) {ss : List (ℕ × ℕ × Bytecode.BytecodeInstruction)}
    (hnodes : ss.mapM (Node.ofSpan f.constPool) = some nodes)
    (hinfos : ss.mapM decoded = some infos) (hnear : ∀ span ∈ ss, Near f.constPool span.2.2) :
    infos.mapM (Node.ofInfo bc) = some nodes := by
  rw [mapM_eq_some_iff] at hnodes hinfos ⊢
  induction ss generalizing nodes infos with
  | nil =>
    cases hnodes
    cases hinfos
    exact .nil
  | cons span ss ih =>
    obtain ⟨n, nodes, hn, hnodes', rfl⟩ := List.forall₂_cons_left_iff.mp hnodes
    obtain ⟨info, infos, hinfo, hinfos', rfl⟩ := List.forall₂_cons_left_iff.mp hinfos
    refine .cons ?_ (ih hnodes' hinfos' fun s hs => hnear s (mem_cons_of_mem _ hs))
    obtain ⟨i, hi, rfl⟩ := Option.map_eq_some_iff.mp hinfo
    obtain ⟨flow, hflow, rfl⟩ := Option.map_eq_some_iff.mp hn
    rw [Node.ofInfo, flowAt_translate h hi (hnear _ mem_cons_self) hflow]
    rfl

/-- **Where a jump is not near**, the boots compiler sees one that leads out of the code. -/
theorem near_of_not_stray (h : Sent f bc) (hf : WellFormed f visits nodes)
    (hinfos : (spans f.code.length visits).mapM decoded = some infos) {nodes' : List Node}
    (hnodes' : infos.mapM (Node.ofInfo bc) = some nodes')
    (hstray : ∀ n ∈ nodes', ¬ n.flow.Stray f.code.length) :
    ∀ visit ∈ visits, Near f.constPool visit.2 := by
  refine (forall_spans f.code.length).mp fun span hspan => ?_
  by_contra hfar
  have hcontiguous := hf.contiguous
  have hnodes := mapM_eq_some_iff.mp hf.flows
  rw [mapM_eq_some_iff] at hinfos hnodes'
  obtain ⟨n, hn, hspan'⟩ := exists_of_forall₂_left hnodes hspan
  obtain ⟨info, hinfo, hdecoded⟩ := exists_of_forall₂_left hinfos hspan
  obtain ⟨n', hn', hinfo'⟩ := exists_of_forall₂_left hnodes' hinfo
  obtain ⟨flow, hflow, rfl⟩ := Option.map_eq_some_iff.mp hspan'
  obtain ⟨i, hi, rfl⟩ := Option.map_eq_some_iff.mp hdecoded
  obtain ⟨flow', hflow', rfl⟩ := Option.map_eq_some_iff.mp hinfo'
  have hb := hcontiguous.bounds hn
  refine hstray _ hn' (stray_of_far h hf.length_constPool hf.length_code hi hfar hflow
    (fun t ht => ?_) (fun t ht => ?_) ?_ hflow')
  · obtain ⟨-, n'', hn'', rfl⟩ := hf.forward _ hn t ht
    have hb' := hcontiguous.bounds hn''
    omega
  · obtain ⟨n'', -, rfl, -⟩ := hf.loops _ hn t ht
    exact Int.natCast_nonneg _
  · exact hb.2.1.trans_le hb.2.2

end Whole

/-! ## The code that the writer generates -/

section Generate

theorem flowOf_target (pool : List Bytecode.ConstPoolEntry) (start : ℕ)
    (i : Bytecode.BytecodeInstruction) :
    (flowOf pool start i).bind Flow.target = i.jumpTarget (fun v => v.toNat) pool start := by
  cases i
  case jumpConst idx | jumpIfFalseConst opnd idx | jumpIfTrueConst opnd idx =>
    simp only [flowOf, distanceAt, jumpTarget]
    cases distanceConst (fun v => v.toNat) pool idx <;> rfl
  all_goals rfl

variable {pool : List Bytecode.ConstPoolEntry} {i : Bytecode.BytecodeInstruction} {start : ℕ}

theorem isJump_of_forward {flow : Flow} {t : ℤ} (hflow : flowOf pool start i = some flow)
    (ht : flow.forward = some t) : i.isJump = true := by
  cases i
  case jump | jumpConst | jumpIfFalse | jumpIfFalseConst | jumpIfTrue | jumpIfTrueConst => rfl
  all_goals
    cases hflow
    cases ht

theorem flowOf_ne_none (h : i.isJump → ∃ t, i.jumpTarget (fun v => v.toNat) pool start = some t) :
    ∃ flow, flowOf pool start i = some flow := by
  by_cases hi : i.isJump
  · obtain ⟨t, ht⟩ := h hi
    rw [← flowOf_target] at ht
    obtain ⟨flow, hflow, -⟩ := Option.bind_eq_some_iff.mp ht
    exact ⟨flow, hflow⟩
  · cases i <;> first | exact absurd rfl hi | exact ⟨_, rfl⟩

/-- Code whose forward jumps do not lead to its end, and whose loops jump back to a start. -/
def Closed (f : Bytecode.BytecodeFunction)
    (visits : List (ℕ × Bytecode.BytecodeInstruction)) : Prop :=
  ∀ visit ∈ visits, ∀ flow, flowOf f.constPool visit.1 visit.2 = some flow →
    flow.forward ≠ some (f.code.length : ℤ) ∧
      ∀ t, flow = .loop t → ∃ start : ℕ, t = start ∧ (start, .loopStart) ∈ visits

theorem lt_forward {bound : Bytecode.Label → ℕ → Prop} {c : Bytecode.Call}
    (h : Bytecode.Decodes bound pool c (start, i)) (hsmall : ∀ lbl t, bound lbl t → t < 2 ^ 32)
    {flow : Flow} {t : ℤ} (hflow : flowOf pool start i = some flow) (ht : flow.forward = some t) :
    start < t := by
  unfold Bytecode.Decodes at h
  cases hv : c.view <;> simp only [hv] at h
  case inst j =>
    subst h
    cases (isJump_of_forward hflow ht).symm.trans (Bytecode.Call.isJump_view_inst hv)
  case const entry mk dest =>
    obtain ⟨idx, rfl, -⟩ := h
    cases (isJump_of_forward hflow ht).symm.trans (Bytecode.Call.isJump_view_const hv idx)
  case loop lbl =>
    obtain ⟨t', -, -, rfl⟩ := h
    cases hflow
    cases ht
  case forward g lbl =>
    obtain ⟨t', hbound, hlt, rfl | ⟨idx, rfl, hidx⟩⟩ := h
    · cases g <;> obtain rfl := Option.some.inj hflow <;> obtain rfl := Option.some.inj ht <;>
        omega
    · have hdist : distanceAt pool idx = some ((t' - start : ℕ) : ℤ) := by
        have hmod := hsmall lbl t' hbound
        rw [distanceAt, distanceConst, hidx]
        simp only [BitVec.toNat_ofNat]
        rw [Nat.mod_eq_of_lt (by omega)]
      cases g <;> simp only [Bytecode.Forward.const, flowOf, hdist] at hflow <;>
        obtain rfl := Option.some.inj hflow <;> obtain rfl := Option.some.inj ht <;> omega

/-- **The code that the writer generates** is well formed, if its jumps stay inside the code. -/
theorem wellFormed_generate {calls : List Bytecode.Call} {w : Bytecode.BytecodeWriter}
    {f : Bytecode.BytecodeFunction} (hb : ∀ c ∈ calls, c.Bounded)
    (hr : Bytecode.BytecodeWriter.new.run calls = some w) (hg : w.generate = some f)
    (hcode : w.code.length < 2 ^ 32) (hpool : w.constPool.length ≤ 2 ^ 32) :
    ∃ visits reader, BytecodeReader.read f.code = some (visits, reader) ∧
      (Closed f visits → ∃ nodes, WellFormed f visits nodes) := by
  obtain ⟨items, h, hitems⟩ := Bytecode.Emitted.run hb hr hcode hpool
  obtain ⟨f', reader, hg', hread, -, hfcode, hfpool, hdecodes⟩ :=
    h.read_decodes hitems (h.labelsFit hcode) fun _ hit _ hlbl => h.bound hg hit hlbl
  obtain rfl : f = f' := Option.some.inj (hg.symm.trans hg')
  have hjumps := h.jumpsResolved hitems hr hcode hfcode hfpool hdecodes fun d hd =>
    Bytecode.readsBack_toNat (by omega)
  have hsmall : ∀ lbl t, w.lookupLabel lbl = some (some t) → t < 2 ^ 32 := by
    intro lbl t hl
    have hle := (h.labels _ _ hl).le
    rw [← h.length_code] at hle
    omega
  have htarget : ∀ visit ∈ w.visits items, visit.2.isJump → ∃ t : ℕ,
      visit.2.jumpTarget (fun v => v.toNat) f.constPool visit.1 = some t ∧
        (t = f.code.length ∨ ∃ i, (t, i) ∈ w.visits items) := by
    intro visit hvisit hjump
    obtain ⟨k, hk⟩ := getElem?_of_mem hvisit
    obtain ⟨-, -, t, -, -, -, ht⟩ := hjumps.jumps k visit.1 visit.2 hk hjump
    exact ⟨t, ht⟩
  refine ⟨w.visits items, reader, hread, fun hclosed => ?_⟩
  obtain ⟨nodes, hnodes⟩ : ∃ nodes,
      (spans f.code.length (w.visits items)).mapM (Node.ofSpan f.constPool) = some nodes := by
    refine exists_mapM fun span hspan => ?_
    obtain ⟨flow, hflow⟩ : ∃ flow, flowOf f.constPool span.1 span.2.2 = some flow := by
      refine flowOf_ne_none fun hjump => ?_
      obtain ⟨t, ht, -⟩ := htarget _ (mem_of_mem_spans hspan) hjump
      exact ⟨t, ht⟩
    exact ⟨⟨span.1, span.2.1, flow⟩, by rw [Node.ofSpan, hflow]; rfl⟩
  have hall := mapM_eq_some_iff.mp hnodes
  -- The visit behind a node, and the node of a visit.
  have hvisit : ∀ n ∈ nodes, ∃ i, (n.start, i) ∈ w.visits items ∧
      flowOf f.constPool n.start i = some n.flow := by
    intro n hn
    obtain ⟨span, hspan, h⟩ := exists_of_forall₂_right hall hn
    obtain ⟨flow, hflow, rfl⟩ := Option.map_eq_some_iff.mp h
    exact ⟨span.2.2, mem_of_mem_spans hspan, hflow⟩
  have hnode : ∀ visit ∈ w.visits items, ∃ n ∈ nodes, n.start = visit.1 ∧
      flowOf f.constPool visit.1 visit.2 = some n.flow := by
    intro visit hv
    obtain ⟨size, hspan⟩ := mem_spans f.code.length hv
    obtain ⟨n, hn, h⟩ := exists_of_forall₂_left hall hspan
    obtain ⟨flow, hflow, rfl⟩ := Option.map_eq_some_iff.mp h
    exact ⟨_, hn, rfl, hflow⟩
  refine ⟨nodes, hjumps.length_code ▸ hcode, hjumps.length_constPool ▸ hpool, ⟨reader, hread⟩,
    hnodes, fun n hn t ht => ?_, fun n hn t ht => ?_⟩
  · obtain ⟨i, hi, hflow⟩ := hvisit n hn
    obtain ⟨c, -, hd⟩ := exists_of_forall₂_right hdecodes hi
    refine ⟨lt_forward hd hsmall hflow ht, ?_⟩
    obtain ⟨t', ht', hinside⟩ := htarget _ hi (isJump_of_forward hflow ht)
    have heq : n.flow.target = some t' := by
      have h := flowOf_target f.constPool n.start i
      rw [hflow, ht'] at h
      exact h
    obtain rfl : t = t' := Option.some.inj ((Flow.target_of_forward ht).symm.trans heq)
    rcases hinside with rfl | ⟨i', hi'⟩
    · exact absurd ht (hclosed _ hi _ hflow).1
    · obtain ⟨n', hn', hstart, -⟩ := hnode _ hi'
      exact ⟨n', hn', by rw [hstart]⟩
  · obtain ⟨i, hi, hflow⟩ := hvisit n hn
    obtain ⟨start, rfl, hstart⟩ := (hclosed _ hi _ hflow).2 t ht
    obtain ⟨n', hn', hstart', hflow'⟩ := hnode _ hstart
    exact ⟨n', hn', by rw [hstart'], (Option.some.inj hflow').symm⟩

end Generate

end Dora.Boots
