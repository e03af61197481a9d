import Dora.Boots.Calls

/-!
# The items of the builder

The builder keeps one list of unresolved jumps where the writer of the virtual machine keeps two,
and finds the form of a jump in the code.

## Main definitions

* `BytecodeBuilder.shadow`: the writer that has emitted the items of a builder
* `Built`: it is in the state that `Bytecode.Emitted` describes
* `Disciplined`: calls that use labels as they should

## Main results

* `Built.exec`, `Built.run`: each call that emits appends one item
-/

namespace Dora.Boots

open Bytecode (Item Emitted Forward OperandWidth)
open Layout (place extent Boundary)
open List Bytecode.BytecodeInstruction Call

variable {off : BitVec 32} {size : ℕ}

attribute [local simp] OperandWidth.encode OperandWidth.size

/-! ## The discipline of the calls -/

/-- One call, if the discipline allows it, for the labels that are bound. -/
def scopeStep (labels : List Bool) (c : Call) : Option (List Bool) :=
  match c.view with
  | .values .. => some labels
  | .forward _ _ _ lbl => if labels[lbl.id]? = some false then some labels else none
  | .loop lbl => if labels[lbl.id]? = some true then some labels else none
  | .silent =>
    match c with
    | .createLabel => some (labels ++ [false])
    | .defineLabel => some (labels ++ [true])
    | .bindLabel lbl => if lbl.id < labels.length then some (labels.set lbl.id true) else none
    | _ => some labels

/-- The calls jump forward to labels that are not bound yet and backward to labels that are, and
bind every label they jump forward to. -/
def Disciplined (calls : List Call) : Prop :=
  ∃ labels ∈ calls.foldlM scopeStep [], ∀ c ∈ calls, ∀ lbl ∈ c.target, labels[lbl.id]? = some true

instance (calls : List Call) : Decidable (Disciplined calls) :=
  inferInstanceAs (Decidable (∃ labels ∈ calls.foldlM scopeStep [], _))

namespace BytecodeBuilder

/-- Which labels are bound. -/
@[simp]
def scope (b : BytecodeBuilder) : List Bool := b.labels.map fun off => 0 ≤ off.toInt

theorem isBound_eq (b : BytecodeBuilder) (lbl : BytecodeLabel) :
    b.isBound lbl = b.scope[lbl.id]? := by
  simp [isBound]

theorem offset_of_scope {b : BytecodeBuilder} {lbl : BytecodeLabel}
    (h : b.scope[lbl.id]? = some true) :
    ∃ off, b.labels[lbl.id]? = some off ∧ 0 ≤ off.toInt ∧ b.offset lbl = some off := by
  simp only [scope, getElem?_map, Option.map_eq_some_iff, decide_eq_true_eq] at h
  obtain ⟨off, hget, hoff⟩ := h
  exact ⟨off, hget, hoff, by simp [offset, hget, guard, hoff]⟩

end BytecodeBuilder

/-! ## Items -/

/-- The entry of a jump in the list of unresolved jumps: its distance takes the last four bytes of a
wide jump, and the index of its constant the last byte of another. -/
@[simp]
def unresolvedJump : ℕ × Item → Option UnresolvedJump
  | (start, .wide f lbl) =>
    some ⟨toInt32 start, toInt32 (start + (Item.wide f lbl).size - 4), ⟨lbl.toUsize⟩⟩
  | (start, .const f idx lbl) =>
    some ⟨toInt32 start, toInt32 (start + (Item.const f idx lbl).size - 1), ⟨lbl.toUsize⟩⟩
  | (_, .inst _) => none

/-- The offset of a label as the writer of the virtual machine keeps it. -/
def boundOffset (off : BitVec 32) : Option ℕ := if 0 ≤ off.toInt then some off.toNat else none

namespace BytecodeBuilder

/-- **The shadow of the builder**: a writer of the virtual machine that has emitted the items. Of
the constants it knows only how many there are. -/
@[simp]
def shadow (b : BytecodeBuilder) (items : List Item) : Bytecode.BytecodeWriter where
  code := b.code
  labelOffsets := b.labels.map boundOffset
  unresolvedJumpOffsets := (place Item.size 0 items).filterMap Item.jumpOffset
  unresolvedJumpConsts := (place Item.size 0 items).filterMap Item.jumpConst
  constPool := b.constPool.map fun _ => .int32 0

/-- Append an item to the code, and to the unresolved jumps if it waits for its label. -/
def emit (b : BytecodeBuilder) (it : Item) : BytecodeBuilder :=
  { b with
    code := b.code ++ it.coded.bytes
    unresolvedJumps := b.unresolvedJumps ++ (unresolvedJump (b.code.length, it)).toList }

end BytecodeBuilder

/-- **The builder has emitted these items.** -/
structure Built (b : BytecodeBuilder) (items : List Item) : Prop where
  emitted : Emitted (b.shadow items) items
  jumps : b.unresolvedJumps = (place Item.size 0 items).filterMap unresolvedJump

/-- The item at its offset is what the call stands for, made on the builder `b`. -/
def Emits (b : BytecodeBuilder) (c : Call) (p : ℕ × Item) : Prop :=
  match c.view with
  | .silent => False
  | .values opcode vals immediate =>
    (∀ val ∈ vals, 0 ≤ val.toInt) ∧ ∃ i, p.2 = .inst i ∧ opcode = opcodeBits i.opcode ∧
      i.operands = vals.map BitVec.toNat ∧ i.immediate = immediate ∧ handles i.opcode
  | .forward inst instConst opnd lbl =>
    (∀ reg ∈ opnd, 0 ≤ reg.value.toInt) ∧ ∃ f : Forward, inst = opcodeBits f.inst ∧
      instConst = opcodeBits f.instConst ∧ (f.cond = opnd.map fun reg => ⟨reg.value.toNat⟩) ∧
      (p.2 = .wide f ⟨lbl.id⟩ ∨ ∃ idx, p.2 = .const f idx ⟨lbl.id⟩)
  | .loop lbl =>
    ∃ off, b.offset lbl = some off ∧ 0 ≤ off.toInt ∧ off.toNat ≤ p.1 ∧ p.1 < 2 ^ 31 ∧
      p.2 = .inst (.jumpLoop (p.1 - off.toNat))

namespace Built

variable {b b' : BytecodeBuilder} {items : List Item}

theorem length_code (h : Built b items) : b.code.length = extent Item.size items :=
  h.emitted.length_code

theorem place_snoc (h : Built b items) (it : Item) :
    place Item.size 0 (items ++ [it]) = place Item.size 0 items ++ [(b.code.length, it)] := by
  rw [Layout.place_append, h.length_code, Nat.zero_add]
  rfl

/-- What is emitted is not changed by the rest of the builder; labels may be bound to the end of
the code. -/
theorem frame (h : Built b items) (hcode : b'.code = b.code)
    (hjumps : b'.unresolvedJumps = b.unresolvedJumps)
    (hpool : b.constPool <+: b'.constPool)
    (hlabels : ∀ (l : ℕ) off, b'.labels[l]? = some off → 0 ≤ off.toInt →
      b.labels[l]? = some off ∨ off.toNat = b.code.length) :
    Built b' items := by
  refine ⟨h.emitted.frame hcode rfl rfl (hpool.map _) fun l t hl => ?_, hjumps.trans h.jumps⟩
  simp only [BytecodeBuilder.shadow, getElem?_map, Option.map_eq_some_iff, boundOffset] at hl ⊢
  obtain ⟨off, hget, hoff⟩ := hl
  split_ifs at hoff with hnonneg
  cases hoff
  rcases hlabels l off hget hnonneg with hold | hend
  · exact .inl ⟨off, hold, if_pos hnonneg⟩
  · exact .inr hend

theorem emit (h : Built b items) {it : Item} (hfits : it.coded.Fits)
    (hlabel : ∀ lbl ∈ it.label, (b.shadow items).lookupLabel lbl = some none)
    (hfresh : ∀ j ∈ Item.jumpConst (b.code.length, it), j.2.1.toUsize < b.constPool.length ∧
      ∀ k ∈ (b.shadow items).unresolvedJumpConsts, k.2.1.toUsize ≠ j.2.1.toUsize) :
    Built (b.emit it) (items ++ [it]) := by
  have hshadow : (b.emit it).shadow (items ++ [it]) = (b.shadow items).emit it := by
    simp only [BytecodeBuilder.shadow, BytecodeBuilder.emit, Bytecode.BytecodeWriter.emit,
      h.place_snoc it, filterMap_append, Layout.filterMap_singleton]
  refine ⟨?_, ?_⟩
  · rw [hshadow]
    refine h.emitted.emit hfits hlabel fun j hj => ?_
    simpa using hfresh j hj
  · rw [h.place_snoc it, filterMap_append, ← h.jumps, Layout.filterMap_singleton]
    rfl

end Built

/-! ## Calls -/

theorem sub_toInt32 (h : size ≤ off.toNat) : off - toInt32 size = toInt32 (off.toNat - size) := by
  apply BitVec.eq_of_toNat_eq
  rw [BitVec.toNat_sub, toNat_toInt32 (by omega), toNat_toInt32 (by omega)]
  omega

theorem toInt32_sub (h : off.toNat ≤ size) (hlt : size < 2 ^ 32) :
    toInt32 size - off = toInt32 (size - off.toNat) := by
  apply BitVec.eq_of_toNat_eq
  rw [BitVec.toNat_sub, toNat_toInt32 hlt, toNat_toInt32 (by omega)]
  omega

namespace BytecodeBuilder

variable {b : BytecodeBuilder} {opnd : Option BytecodeRegister} {f : Forward}

theorem emitCond_wide (b : BytecodeBuilder) (hcond : f.cond = opnd.map fun reg => ⟨reg.value.toNat⟩)
    (hn : ∀ reg ∈ opnd, 0 ≤ reg.value.toInt) :
    (opnd.elim (some b) fun reg => b.emitInt32 reg.value) =
      some (b.append (f.condBytes .wide)) := by
  rw [Forward.condBytes, hcond]
  cases opnd with
  | none => exact congrArg some b.append_nil.symm
  | some reg =>
    rw [Option.elim_some, emitInt32_eq b (hn reg rfl)]
    simp

theorem emitCond_normal (b : BytecodeBuilder)
    (hcond : f.cond = opnd.map fun reg => ⟨reg.value.toNat⟩)
    (hn : ∀ reg ∈ opnd, reg.value.toNat ≤ 255) :
    (opnd.elim (some b) fun reg => b.emitByte reg.value) =
      some (b.append (f.condBytes .normal)) := by
  rw [Forward.condBytes, hcond]
  cases opnd with
  | none => exact congrArg some b.append_nil.symm
  | some reg =>
    rw [Option.elim_some, emitByte_eq b (hn reg rfl)]
    simp [Bytes.ofNatLE]

theorem guard_opcodeBits (op : Bytecode.BytecodeOpcode) : isWide (opcodeBits op) = false := by
  cases op <;> decide

/-- **A forward jump appends one of its two forms.** -/
theorem emitJmpForward_emit (hcond : f.cond = opnd.map fun reg => ⟨reg.value.toNat⟩)
    (hn : ∀ reg ∈ opnd, 0 ≤ reg.value.toInt) (hpool : b.constPool.length < 2 ^ 31)
    (lbl : BytecodeLabel) :
    (b.emitJmpForward (opcodeBits f.inst) (opcodeBits f.instConst) opnd lbl =
        some (b.emit (.wide f ⟨lbl.id⟩)) ∧ (Item.wide f ⟨lbl.id⟩).coded.Fits) ∨
      (b.emitJmpForward (opcodeBits f.inst) (opcodeBits f.instConst) opnd lbl =
          some ((b.addConst (.int32 0)).2.emit (.const f ⟨b.constPool.length⟩ ⟨lbl.id⟩)) ∧
        (Item.const f ⟨b.constPool.length⟩ ⟨lbl.id⟩).coded.Fits) := by
  have hidx : isWide (toInt32 b.constPool.length) = decide (255 < b.constPool.length) := by
    have hnat := toNat_toInt32 (show b.constPool.length < 2 ^ 32 by omega)
    rw [isWide_of_lt (by omega), hnat]
  unfold emitJmpForward
  simp only [guard_opcodeBits, guard, if_true, pure, Option.bind_eq_bind, Option.bind_some, hidx]
  split_ifs with hw
  · left
    simp only [emitWide_eq, emitOpcode_eq, emitCond_wide _ hcond hn, Option.bind_some,
      emitInt32_eq _ (show 0 ≤ (0 : BitVec 32).toInt by decide)]
    refine ⟨?_, ?_⟩
    · simp [emit, append, Item.size, Bytecode.Coded.size, Item.coded,
        Bytecode.Coded.bytes, Forward.encode_immediate]
      congr 1
    · intro value hvalue
      simp only [Item.coded, Forward.operands_immediate, hcond, mem_append, mem_map,
        Option.mem_toList, mem_singleton, Option.map_eq_some_iff] at hvalue
      rcases hvalue with ⟨_, ⟨reg, hreg, rfl⟩, rfl⟩ | rfl
      · have hlt := (toNat_of_nonneg (hn reg hreg)).1
        exact show reg.value.toNat < 256 ^ 4 by omega
      · exact show 0 < 256 ^ 4 by decide
  · right
    simp only [Bool.or_eq_true, decide_eq_true_eq, not_or, not_lt] at hw
    have hreg : ∀ reg ∈ opnd, reg.value.toNat ≤ 255 := by
      intro reg hmem
      have hfit := hw.1
      rw [Option.mem_def.mp hmem, Option.any_some,
        isWide_of_lt (toNat_of_nonneg (hn reg hmem)).1] at hfit
      simpa using hfit
    have hlast : (toInt32 (b.constPool.length + 1) - 1).toNat = b.constPool.length := by
      have hone : toInt32 (b.constPool.length + 1) - 1 = toInt32 b.constPool.length :=
        toInt32_sub (by simp) (by omega)
      rw [hone, toNat_toInt32 (by omega)]
    simp only [emitOpcode_eq, emitCond_normal _ hcond hreg, Option.bind_some, addConst]
    rw [emitByte_eq _ (by simp only [append]; omega)]
    refine ⟨?_, ?_⟩
    · simp only [append, hlast]
      simp [emit, Item.size, Bytecode.Coded.size, Item.coded, Bytecode.Coded.bytes,
        Forward.encode_const,
        OperandWidth.marker, Bytes.ofNatLE]
    · intro value hvalue
      simp only [Item.coded, Forward.operands_const, hcond, mem_append, mem_map,
        Option.mem_toList, mem_singleton, Option.map_eq_some_iff] at hvalue
      rcases hvalue with ⟨_, ⟨reg, hmem, rfl⟩, rfl⟩ | rfl
      · exact Nat.lt_succ_of_le (hreg reg hmem)
      · exact Nat.lt_succ_of_le hw.2

end BytecodeBuilder

/-- The calls of a run that emit, each with the builder it was made on. -/
def history : BytecodeBuilder → List Call → List (BytecodeBuilder × Call)
  | _, [] => []
  | b, c :: calls =>
    ([c].filter emits).map (Prod.mk b) ++ (b.exec c).elim [] fun b => history b calls

namespace Built

variable {b b' : BytecodeBuilder} {items : List Item} {c : Call} {labels : List Bool}

section

variable (h : Built b items)
include h

variable {lbl : BytecodeLabel}

theorem bindTo (hcode : b.code.length < 2 ^ 31) (hlbl : lbl.id < b.labels.length) :
    ∃ b', b.bindTo lbl (toInt32 b.code.length) = some b' ∧ b'.scope = b.scope.set lbl.id true ∧
      Built b' items := by
  have hint := toInt_toInt32 hcode
  have hnat := toNat_toInt32 (show b.code.length < 2 ^ 32 by omega)
  refine ⟨_, if_pos ⟨by omega, hlbl⟩, ?_, h.frame rfl rfl prefix_rfl fun l off hl _ => ?_⟩
  · simp [hint]
  · by_cases hl' : lbl.id = l
    · subst hl'
      rw [getElem?_set_self hlbl] at hl
      cases hl
      exact .inr hnat
    · rw [getElem?_set_ne hl'] at hl
      exact .inl hl

theorem createLabel : Built b.createLabel.2 items := by
  refine h.frame rfl rfl prefix_rfl fun l off hl hoff => ?_
  simp only [BytecodeBuilder.createLabel] at hl
  by_cases hlt : l < b.labels.length
  · rw [getElem?_append_left hlt] at hl
    exact .inl hl
  · -- the new label is not bound
    rw [getElem?_append_right (by omega)] at hl
    obtain rfl : off = -1 := by
      simpa using mem_of_getElem? hl
    exact absurd hoff (by decide)

theorem silent (hcode : b.code.length < 2 ^ 31) (hv : c.view = .silent)
    (hs : scopeStep b.scope c = some labels) :
    ∃ b', b.exec c = some b' ∧ b'.scope = labels ∧ Built b' items := by
  cases c <;> simp only [view, reduceCtorEq] at hv <;>
    simp only [scopeStep, view, Option.some.injEq] at hs
  case createLabel =>
    refine ⟨_, rfl, ?_, h.createLabel⟩
    rw [← hs]
    simp [BytecodeBuilder.createLabel]
  case defineLabel =>
    have hlbl : b.createLabel.1.id < b.createLabel.2.labels.length := by
      simp [BytecodeBuilder.createLabel]
    obtain ⟨b', hb', hscope, h'⟩ := h.createLabel.bindTo hcode hlbl
    refine ⟨b', ?_, ?_, h'⟩
    · simp [BytecodeBuilder.exec, BytecodeBuilder.defineLabel, hb']
    · rw [hscope, ← hs]
      simp [BytecodeBuilder.createLabel]
  case bindLabel lbl =>
    split_ifs at hs with hlbl
    obtain ⟨b', hb', hscope, h'⟩ := h.bindTo hcode (by simpa using hlbl)
    exact ⟨b', hb', hscope.trans (Option.some.inj hs), h'⟩
  case addConst entry =>
    exact ⟨_, rfl, hs, h.frame rfl rfl (prefix_append _ _) fun _ _ hl _ => .inl hl⟩
  all_goals exact ⟨_, rfl, hs, h.frame rfl rfl prefix_rfl fun _ _ hl _ => .inl hl⟩

theorem inst {i : Bytecode.BytecodeInstruction} (hi : ∀ value ∈ i.operands, value < 2 ^ 32) :
    Built (b.append (i.encode i.width)) (items ++ [.inst i]) := by
  have hemit : Built (b.emit (.inst i)) (items ++ [.inst i]) :=
    h.emit (fits_width hi) (by simp [Item.label]) (by simp [Item.jumpConst])
  refine hemit.frame rfl ?_ prefix_rfl fun _ _ hl _ => .inl hl
  simp [BytecodeBuilder.append, BytecodeBuilder.emit]

theorem forward (hpool : b.constPool.length < 2 ^ 31) {inst instConst : BitVec 32}
    {opnd : Option BytecodeRegister} (hv : c.view = .forward inst instConst opnd lbl)
    (hn : ∀ reg ∈ opnd, 0 ≤ reg.value.toInt) (hl : b.scope[lbl.id]? = some false) :
    ∃ b' it, b.exec c = some b' ∧ b'.scope = b.scope ∧ Built b' (items ++ [it]) ∧
      ∀ start, Emits b c (start, it) := by
  obtain ⟨f, hinst, hconst, hcond⟩ := forward_of_view hv
  have hexec : b.exec c = b.emitJmpForward inst instConst opnd lbl := by
    rw [b.exec_forward hv, b.isBound_eq, hl]
    rfl
  have hunbound : ∀ b1 : BytecodeBuilder, b1.labels = b.labels → ∀ items,
      (b1.shadow items).lookupLabel ⟨lbl.id⟩ = some none := by
    intro b1 hlabels items
    simp only [BytecodeBuilder.scope, getElem?_map, Option.map_eq_some_iff,
      decide_eq_false_iff_not] at hl
    obtain ⟨off, hget, hoff⟩ := hl
    simp [Bytecode.BytecodeWriter.lookupLabel, hlabels, hget, boundOffset, hoff]
  rw [hexec, hinst, hconst]
  rcases b.emitJmpForward_emit hcond hn hpool lbl with ⟨heq, hfits⟩ | ⟨heq, hfits⟩
  · refine ⟨_, .wide f ⟨lbl.id⟩, heq, rfl, h.emit hfits ?_ (by simp [Item.jumpConst]), ?_⟩
    · rintro _ ⟨⟩
      exact hunbound b rfl items
    · intro start
      simp only [Emits, hv]
      exact ⟨hn, f, hinst, hconst, hcond, .inl rfl⟩
  · have hadd : Built (b.addConst (.int32 0)).2 items :=
      h.frame rfl rfl (prefix_append _ _) fun _ _ hl _ => .inl hl
    refine ⟨_, .const f ⟨b.constPool.length⟩ ⟨lbl.id⟩, heq, rfl, hadd.emit hfits ?_ ?_, ?_⟩
    · rintro _ ⟨⟩
      exact hunbound _ rfl items
    · -- the constant of the jump is new
      rintro _ ⟨⟩
      refine ⟨by simp [BytecodeBuilder.addConst], fun k hk => ?_⟩
      have hlt := h.emitted.pool k hk
      simp only [BytecodeBuilder.shadow, length_map] at hlt
      exact hlt.ne
    · intro start
      simp only [Emits, hv]
      exact ⟨hn, f, hinst, hconst, hcond, .inr ⟨_, rfl⟩⟩

theorem loop (hcode : b.code.length < 2 ^ 31) (hv : c.view = .loop lbl)
    (hl : b.scope[lbl.id]? = some true) :
    ∃ b' it, b.exec c = some b' ∧ b'.scope = b.scope ∧ Built b' (items ++ [it]) ∧
      Emits b c (b.code.length, it) := by
  obtain ⟨off, hget, hoff, hoffset⟩ := BytecodeBuilder.offset_of_scope hl
  have hle : off.toNat ≤ b.code.length := by
    rw [h.length_code]
    refine (h.emitted.labels lbl.id off.toNat ?_).le
    simp [hget, boundOffset, hoff]
  have hdist : (toInt32 (b.code.length - off.toNat)).toNat = b.code.length - off.toNat :=
    toNat_toInt32 (by omega)
  have hnonneg : 0 ≤ (toInt32 (b.code.length - off.toNat)).toInt := by
    rw [toInt_toInt32 (by omega)]
    omega
  have hexec : b.exec c = some (b.append ((jumpLoop
      (b.code.length - off.toNat)).encode (jumpLoop (b.code.length - off.toNat)).width)) := by
    have hi : (jumpLoop (b.code.length - off.toNat)).operands =
        [toInt32 (b.code.length - off.toNat)].map BitVec.toNat := by
      simp [operands, hdist]
    have hvals := b.emitVals_eq hi (by simpa using hnonneg)
    rw [b.exec_loop hv, BytecodeBuilder.emitJumpLoop, b.isBound_eq, hl, hoffset]
    simp only [Option.bind_eq_bind, Option.bind_some, guard, if_true, pure, toInt32_sub hle
      (show b.code.length < 2 ^ 32 by omega)]
    exact hvals.trans (by simp [encode, encodeOperands_eq, immediate])
  refine ⟨_, _, hexec, rfl, h.inst ?_, ?_⟩
  · simp only [operands, mem_singleton]
    omega
  · simp only [Emits, hv]
    exact ⟨off, hoffset, hoff, hle, hcode, rfl⟩

/-- **A call appends the item it stands for.** -/
theorem exec (hn : c.NonNegative) (hm : ¬c.Mismatched) (hs : scopeStep b.scope c = some labels)
    (hcode : b.code.length < 2 ^ 31) (hpool : b.constPool.length < 2 ^ 31) :
    ∃ b' new, b.exec c = some b' ∧ b'.scope = labels ∧ Built b' (items ++ new) ∧
      List.Forall₂ (Emits b) ([c].filter emits) (place Item.size b.code.length new) := by
  have hone : ∀ {it : Item}, c.emits → Emits b c (b.code.length, it) →
      List.Forall₂ (Emits b) ([c].filter emits) (place Item.size b.code.length [it]) := by
    intro it hemits hitem
    rw [filter_cons_of_pos hemits]
    exact .cons hitem .nil
  cases hv : c.view with
  | silent =>
    obtain ⟨b', hb', hscope, h'⟩ := h.silent hcode hv hs
    refine ⟨b', [], hb', hscope, by rwa [append_nil], ?_⟩
    simp [emits, hv, place]
  | values opcode vals immediate =>
    obtain ⟨i, -, hop, hi, himm, hhandles⟩ := instruction_of_view hv hm
    have hnonneg : ∀ val ∈ vals, 0 ≤ val.toInt := by simpa [NonNegative, hv] using hn
    refine ⟨_, [.inst i], b.exec_instruction hv hop hi himm hnonneg, ?_, h.inst ?_,
      hone (by simp [emits, hv]) ?_⟩
    · simp only [scopeStep, hv] at hs
      exact Option.some.inj hs
    · intro value hvalue
      rw [hi] at hvalue
      obtain ⟨val, -, rfl⟩ := mem_map.mp hvalue
      exact val.isLt
    · simp only [Emits, hv]
      exact ⟨hnonneg, i, rfl, hop, hi, himm, hhandles⟩
  | forward inst instConst opnd lbl =>
    simp only [scopeStep, hv] at hs
    split_ifs at hs with hl
    obtain ⟨b', it, hb', hscope, h', hitem⟩ :=
      h.forward hpool hv (by simpa [NonNegative, hv] using hn) hl
    exact ⟨b', [it], hb', hscope.trans (Option.some.inj hs), h',
      hone (by simp [emits, hv]) (hitem _)⟩
  | loop lbl =>
    simp only [scopeStep, hv] at hs
    split_ifs at hs with hl
    obtain ⟨b', it, hb', hscope, h', hitem⟩ := h.loop hcode hv hl
    exact ⟨b', [it], hb', hscope.trans (Option.some.inj hs), h', hone (by simp [emits, hv]) hitem⟩

/-- **A run appends one item for each call that emits**, in order. -/
theorem run {calls : List Call} (hn : ∀ c ∈ calls, c.NonNegative) (hm : ∀ c ∈ calls, ¬c.Mismatched)
    (hs : calls.foldlM scopeStep b.scope = some labels)
    (hsmall : ∀ pre, pre <+: calls → ∀ b', b.run pre = some b' →
      b'.code.length < 2 ^ 31 ∧ b'.constPool.length < 2 ^ 31) :
    ∃ b' new, b.run calls = some b' ∧ b'.scope = labels ∧ Built b' (items ++ new) ∧
      List.Forall₂ (fun e p => Emits e.1 e.2 p) (history b calls)
        (place Item.size b.code.length new) := by
  induction calls generalizing b items with
  | nil => exact ⟨b, [], rfl, Option.some.inj hs, by rwa [append_nil], .nil⟩
  | cons c calls ih =>
    obtain ⟨labels', hc, hs⟩ := Option.bind_eq_some_iff.mp hs
    obtain ⟨hcode, hpool⟩ := hsmall [] nil_prefix b rfl
    obtain ⟨b1, new1, hb1, rfl, h1, hitems1⟩ :=
      h.exec (hn c mem_cons_self) (hm c mem_cons_self) hc hcode hpool
    have hrun : ∀ pre, b.run (c :: pre) = b1.run pre := by
      intro pre
      rw [BytecodeBuilder.run, foldlM_cons, hb1]
      rfl
    obtain ⟨b', new, hb', hscope, h', hitems⟩ := ih h1
      (fun d hd => hn d (mem_cons_of_mem _ hd)) (fun d hd => hm d (mem_cons_of_mem _ hd))
      hs fun pre hpre b' hb' =>
        hsmall (c :: pre) (cons_prefix_cons.mpr ⟨rfl, hpre⟩) b' ((hrun pre).trans hb')
    refine ⟨b', new1 ++ new, (hrun calls).trans hb', hscope, by rwa [← append_assoc], ?_⟩
    have hlen : b1.code.length = b.code.length + extent Item.size new1 := by
      rw [h1.length_code, h.length_code, Layout.extent_append]
    rw [Layout.place_append, ← hlen, history, hb1]
    refine rel_append ?_ hitems
    exact List.forall₂_map_left_iff.mpr hitems1

end

end Built

end Dora.Boots
