import Dora.Asm.X64Agreement

/-!
# Runs of both x64 assemblers

Two runs of the same calls stay together as long as the instructions are encoded alike. The first
call that is not leaves different bytes at the same place, where no fixup touches them.

## Main definitions

* `codeStep`: the step on code with labels that both assemblers refine
* `Diverged`: code that differs where no displacement is filled in

## Main results

* `AssemblerX64.step_refines`, `Boots.AssemblerX64.step_refines`: every call refines it
* `run_lockstep`: runs stay together, or part at a call that does not agree
* `same_code_iff`: when both assemblers produce the same code
-/

namespace Dora.Asm

open Emission Fixups X64 Option ForwardJump AssemblerX64 Int32
open Assembler (createLabel_eq createAndBindLabel_inv bindLabel_inv resolveJumps_eq
  finalize_none_eq)
open Code (Grows)

variable {e : Emission} {bs : List UInt8}

/-! ### The step of both assemblers -/

abbrev LabelledCode := Code UInt8 ForwardJump

/-- A jump back, in the short form if the displacement fits. -/
def backward (short far : List UInt8) (size target : ℕ) : List UInt8 :=
  if -128 ≤ (target : ℤ) - (size + 2 : ℕ) then
    short ++ [UInt8.ofInt ((target : ℤ) - (size + 2 : ℕ))]
  else far ++ le32 (UInt32.ofInt ((target : ℤ) - (size + (far.length + 4) : ℕ)))

def backwardNear (short : List UInt8) (size target : ℕ) : List UInt8 :=
  short ++ [UInt8.ofInt ((target : ℤ) - (size + 2 : ℕ))]

/-- A jump to a label. -/
def jumpStep (s : LabelledCode) (back : ℕ → List UInt8) (opcode zeros : List UInt8) (l : Label)
    (distance : JumpDistance) : Option LabelledCode :=
  match s.labels[l]? with
  | none => none
  | some (some target) => some ⟨s.code ++ back target, s.labels, s.jumps⟩
  | some none =>
    some ⟨s.code ++ (opcode ++ zeros), s.labels,
      s.jumps ++ [⟨s.code.length + opcode.length, l, distance⟩]⟩

def longJump (s : LabelledCode) (short far : List UInt8) (l : Label) : Option LabelledCode :=
  jumpStep s (backward short far s.code.length) far (le32 0) l .far

def nearJump (s : LabelledCode) (short : List UInt8) (l : Label) : Option LabelledCode :=
  jumpStep s (backwardNear short s.code.length) short [0] l .near

/-- **A call** for which an assembler emits the given bytes, unless it is about labels. -/
def codeStep (emission : Emission) (s : LabelledCode) : Call → Option LabelledCode
  | .createLabel => some ⟨s.code, s.labels ++ [none], s.jumps⟩
  | .createAndBindLabel => some ⟨s.code, s.labels ++ [some s.code.length], s.jumps⟩
  | .bindLabel l =>
    if s.labels[l]? = some none then
      some ⟨s.code, s.labels.set l (some s.code.length), s.jumps⟩
    else none
  | .jcc condition l => longJump s [0x70 + condition.int] [0x0F, 0x80 + condition.int] l
  | .jccNear condition l => nearJump s [0x70 + condition.int] l
  | .jmp l => longJump s [0xEB] [0xE9] l
  | .jmpNear l => nearJump s [0xEB] l
  | .inst _ | .mem _ _ | .emitU8 _ | .emitU32 _ | .emitU64 _ =>
    emission.map fun bs => ⟨s.code ++ bs, s.labels, s.jumps⟩

section Grows

variable {s s' : LabelledCode}

theorem jumpStep_grows {back : ℕ → List UInt8} {opcode zeros : List UInt8} {l : Label}
    {distance : JumpDistance}
    (hsize : ∀ offset, (mk offset l distance).size = zeros.length)
    (h : jumpStep s back opcode zeros l distance = some s') :
    Grows s s' := by
  rw [jumpStep.eq_def] at h
  split at h
  · cases h
  · cases h
    exact Grows.append s _
  · cases h
    refine Grows.jump s (opcode ++ zeros) (Nat.le_add_right _ _) ?_
    rw [List.length_append, ← Nat.add_assoc, ← hsize (s.code.length + opcode.length)]
    exact Nat.le_refl _

/-- **Every call lets the code grow**, whatever is emitted. -/
theorem codeStep_grows {emission : Emission} {c : Call} (h : codeStep emission s c = some s') :
    Grows s s' := by
  have happend (h : emission.map (fun bs => (⟨s.code ++ bs, s.labels, s.jumps⟩)) =
      some s') : Grows s s' := by
    obtain ⟨bs, -, rfl⟩ := map_eq_some_iff.mp h
    exact Grows.append s bs
  cases c with
  | inst | mem | emitU8 | emitU32 | emitU64 => exact happend h
  | createLabel =>
    cases h
    exact Grows.create s fun t ht => nomatch ht
  | createAndBindLabel =>
    cases h
    exact Grows.create s fun t ht => (Option.some.inj ht).symm
  | bindLabel l =>
    rw [codeStep] at h
    split at h
    · cases h
      exact Grows.bind s ‹_›
    · cases h
  | jcc | jmp | jccNear | jmpNear => exact jumpStep_grows (fun _ => rfl) h

end Grows

/-! ### The assembler in Rust -/

/-- What is emitted for a call that is not about labels. -/
def Call.emission : Call → Emission
  | .inst i => i.emit
  | .mem i form => i.emitWith form
  | .emitU8 value => Asm.emitU8 value
  | .emitU32 value => Asm.emitU32 value
  | .emitU64 value => Asm.emitU64 value
  | _ => fail

namespace AssemblerX64

variable {a a' : AssemblerX64} {l : Label} {short far : List UInt8}

/-- Distances of jumps back, as they are computed. -/
theorem sub_eq_neg_sub {t n : ℕ} (h : t ≤ a.size) :
    (t : ℤ) - (a.view.code.length + n : ℕ) = -((a.size + n - t : ℕ) : ℤ) := by
  have : a.view.code.length = a.size := rfl
  omega

theorem jumpTo_refines (hend : a.AtEnd)
    (hstep : a.jumpTo short far (far.length + 4) l = some a') :
    longJump a.view short far l = some a'.view := by
  obtain ⟨v, hv, hstep⟩ := bind_eq_some_iff.mp hstep
  have hv : a.view.labels[l]? = some v := hv
  have hpos : a.position = a.size := hend
  rw [longJump, jumpStep.eq_def, hv]
  cases v with
  | none =>
    obtain rfl := forward_eq hend far (le32 0) l .far hstep
    rfl
  | some t =>
    dsimp only at hstep ⊢
    rw [hpos] at hstep
    split_ifs at hstep with hle h2 h128
    · cases (emit_bytes hend _).symm.trans hstep
      rw [backward, sub_eq_neg_sub hle, if_pos h128]
      rfl
    · cases (emit_bytes hend _).symm.trans hstep
      rw [backward, sub_eq_neg_sub hle, sub_eq_neg_sub hle, if_neg h128]
      rfl

theorem jumpNearTo_refines (hend : a.AtEnd) (hstep : a.jumpNearTo short l = some a') :
    nearJump a.view short l = some a'.view := by
  obtain ⟨v, hv, hstep⟩ := bind_eq_some_iff.mp hstep
  have hv : a.view.labels[l]? = some v := hv
  have hpos : a.position = a.size := hend
  rw [nearJump, jumpStep.eq_def, hv]
  cases v with
  | none =>
    obtain rfl := forward_eq hend short [0] l .near hstep
    rfl
  | some t =>
    dsimp only at hstep ⊢
    rw [hpos] at hstep
    split_ifs at hstep with hle h2
    cases (emit_bytes hend _).symm.trans hstep
    rw [backwardNear, sub_eq_neg_sub hle]
    rfl

/-- **Every call refines the common step.** -/
theorem step_refines {c : Call} (hend : a.AtEnd) (hstep : a.step c = some a') :
    codeStep c.emission a.view c = some a'.view := by
  have hemit {e : Emission} (h : a.emit e = some a') :
      e.map (fun bs => (⟨a.view.code ++ bs, a.view.labels, a.view.jumps⟩)) = some a'.view := by
    obtain ⟨bs, rfl, rfl⟩ := exists_append_of_emit hend h
    rfl
  cases c with
  | inst | mem => exact hemit hstep
  | emitU8 value => exact hemit (show a.emit (Asm.emitU8 value) = some a' from hstep)
  | emitU32 value => exact hemit (show a.emit (Asm.emitU32 value) = some a' from hstep)
  | emitU64 value => exact hemit (show a.emit (Asm.emitU64 value) = some a' from hstep)
  | createLabel =>
    cases hstep
    rw [createLabel_eq hend]
    rfl
  | createAndBindLabel =>
    obtain rfl := createAndBindLabel_inv hend hstep
    rfl
  | bindLabel l =>
    obtain ⟨hl, rfl⟩ := bindLabel_inv hend hstep
    exact if_pos hl
  | jcc | jmp => exact jumpTo_refines hend hstep
  | jccNear | jmpNear => exact jumpNearTo_refines hend hstep

end AssemblerX64

/-! ### The assembler in Dora -/

namespace Boots

/-- What is emitted for a call that is not about labels. -/
def emission : Call → Emission
  | .inst i => emit i
  | .mem i form => emitMemWith i form
  | _ => fail

namespace AssemblerX64

variable {a a' : AssemblerX64} {l : Label} {short far : List UInt8}

def view (a : AssemblerX64) : LabelledCode := ⟨a.buffer, a.labels, a.jumps⟩

theorem view_push {e : Emission} (h : a.push e = some a') :
    e.map (fun bs => (⟨a.view.code ++ bs, a.view.labels, a.view.jumps⟩ : LabelledCode)) =
      some a'.view := by
  cases e with
  | none => cases h
  | some bs =>
    cases h
    rfl

theorem toUInt32_ofInt (d : ℤ) : (ofInt d).toUInt32 = UInt32.ofInt d := by
  apply UInt32.toNat_inj.mp
  rw [← UInt32.toNat_toBitVec, toBitVec_toUInt32, toBitVec_ofInt, BitVec.toNat_ofInt,
    UInt32.ofInt, UInt32.toNat_ofNat']
  omega

theorem jumpTo_refines (hstep : a.jumpTo short far (far.length + 4) l = some a') :
    longJump a.view short far l = some a'.view := by
  obtain ⟨v, hv, hstep⟩ := bind_eq_some_iff.mp hstep
  have hv : a.view.labels[l]? = some v := hv
  rw [longJump, jumpStep.eq_def, hv]
  cases v with
  | none =>
    cases hstep
    simp [emitJump, size]
    rfl
  | some t =>
    have hd : (t : ℤ) - (a.view.code.length + 2 : ℕ) = t - (a.size + 2) := by
      simp [view, size]
    have hd' : (t : ℤ) - (a.view.code.length + (far.length + 4) : ℕ) =
        t - (a.size + (far.length + 4)) := by
      simp [view, size]
    dsimp only at hstep ⊢
    rw [backward, hd, hd']
    split_ifs at hstep with h2 h128 hfit
    · rw [if_pos h128, ← view_push hstep]
      rfl
    · rw [if_neg h128, ← view_push hstep, emitInt32, int32Bytes_eq, toUInt32_ofInt]
      rfl

theorem jumpNearTo_refines (hstep : a.jumpNearTo short l = some a') :
    nearJump a.view short l = some a'.view := by
  obtain ⟨v, hv, hstep⟩ := bind_eq_some_iff.mp hstep
  have hv : a.view.labels[l]? = some v := hv
  rw [nearJump, jumpStep.eq_def, hv]
  cases v with
  | none =>
    cases hstep
    simp [view, emitJump, size]
  | some t =>
    dsimp only at hstep ⊢
    split_ifs at hstep with h2
    rw [← view_push hstep]
    rfl

theorem bindLabel_refines (hstep : a.bindLabel l = some a') :
    a.view.labels[l]? = some none ∧
      a'.view = ⟨a.view.code, a.view.labels.set l (some a.view.code.length), a.view.jumps⟩ := by
  rw [bindLabel] at hstep
  split at hstep
  · cases hstep
    exact ⟨‹_›, rfl⟩
  · cases hstep

/-- **Every call refines the common step.** -/
theorem step_refines {c : Call} (hstep : a.step c = some a') :
    codeStep (emission c) a.view c = some a'.view := by
  cases c with
  | inst | mem => exact view_push hstep
  | emitU8 | emitU32 | emitU64 => cases hstep
  | createLabel =>
    cases hstep
    rfl
  | createAndBindLabel =>
    obtain ⟨-, h⟩ := bindLabel_refines
      (show a.createLabel.bindLabel a.labels.length = some a' from hstep)
    rw [h]
    simp [codeStep, view, createLabel]
  | bindLabel l =>
    obtain ⟨hl, h⟩ := bindLabel_refines hstep
    rw [h]
    exact if_pos hl
  | jcc condition l =>
    rw [step, toUInt8_condition, toUInt8_condition] at hstep
    exact jumpTo_refines hstep
  | jmp => exact jumpTo_refines hstep
  | jccNear condition l =>
    rw [step, toUInt8_condition] at hstep
    exact jumpNearTo_refines hstep
  | jmpNear => exact jumpNearTo_refines hstep

end AssemblerX64

end Boots

/-! ### Calls that do not agree -/

/-- The bytes differ if the REX bits of index and base differ: with the bit of the base in both, the
prefix is another one, or is missing and the opcode stands in its place. -/
theorem Spec.encode_differ {s : Spec} (h : s.WF) {l : Layout} (hx : l.x ≠ l.b) :
    Differ (s.encode l) (s.encode { l with x := l.b }) := by
  obtain ⟨b, rest, hopcode, -, hnorex⟩ := isOpcode_head h.opcode
  obtain ⟨rex, hrex, hrx⟩ : ∃ rex, s.operand.rex l = some rex ∧ rex.x = l.x := by
    have hor : l.x || l.b := by
      cases hlx : l.x <;> cases hlb : l.b <;> simp_all
    refine ⟨⟨s.operand.w, s.operand.needsRex, l.x, l.b⟩, if_pos ?_, rfl⟩
    rcases Bool.or_eq_true_iff.mp hor with h | h <;> simp [h]
  rw [Spec.encode, Spec.encode, hopcode, hrex]
  apply Differ.prepend
  cases hrex' : s.operand.rex { l with x := l.b } with
  | none =>
    apply Differ.of_head
    rintro rfl
    rw [Rex.ofByte_toByte] at hnorex
    cases hnorex
  | some rex' =>
    have hrx' : rex'.x = l.b := by
      have hgetD := s.operand.rex_getD { l with x := l.b }
      rw [hrex'] at hgetD
      exact congrArg Rex.x hgetD
    apply Differ.of_head
    intro heq
    have hsome : some rex = some rex' := by rw [← Rex.ofByte_toByte, heq, Rex.ofByte_toByte]
    cases hsome
    exact hx (hrx.symm.trans hrx')

theorem of_check_append {p : Prop} [Decidable p] (h : check p ++ e = bytes bs) : p := by
  by_cases hp : p
  · exact hp
  · rw [check, if_neg hp, fail_append] at h
    cases h

theorem MemInst.accepts_of_emit {inst : MemInst} {address : Address}
    (h : inst.emit address = bytes bs) : inst.Accepts := by
  cases inst with
  | movbAi | cmpbAi | movqAi | movlAi | testlAi | testqAi =>
    rw [MemInst.emit, append_assoc (check _)] at h
    have hcheck := of_check_append h
    exact hcheck
  | cmplAi | cmpqAi =>
    have hcheck := of_check_append h
    exact hcheck
  | _ => trivial

theorem exists_of_bytes_append {bs' : List UInt8} (h : bytes bs ++ e = bytes bs') :
    ∃ rest, bs' = bs ++ rest := by
  cases e with
  | none => cases h
  | some rest => exact ⟨rest, (Option.some.inj h).symm⟩

namespace Boots

/-- **Memory operands**: both assemblers encode the same instruction with their own layouts. -/
theorem emitWith_layout {inst : MemInst} {form : AddressForm} {bs bs' : List UInt8}
    (h : inst.emitWith form = bytes bs) (h' : emitMemWith inst form = bytes bs') :
    bs = inst.spec.encode form.layout ∧ bs' = inst.spec.encode (layout form) := by
  by_cases hvalid : form.Valid
  · rw [MemInst.emitWith, AddressForm.build_eq hvalid] at h
    rw [emitMemWith, build_eq hvalid] at h'
    have haccepts := MemInst.accepts_of_emit h
    have henc := emit_eq_encode haccepts (layout form)
    refine ⟨Option.some.inj (h.symm.trans (emit_eq_encode haccepts form.layout)), ?_⟩
    have hemit : inst.emit (layout form).address ≠ fail := by
      rw [henc]
      exact Option.some_ne_none _
    have heq := emitMem_eq hemit fun hfail => Option.some_ne_none _ (h'.symm.trans hfail)
    exact Option.some.inj (h'.symm.trans (heq.trans henc))
  · rw [MemInst.emitWith, (build_eq_none hvalid).2] at h
    cases h

theorem movqRi_differ {dest : Register} {imm : Immediate}
    (hagrees : ¬ (Inst.movqRi dest imm).Agrees)
    {bs bs' : List UInt8} (h : (Inst.movqRi dest imm).emit = bytes bs)
    (h' : emit (.movqRi dest imm) = bytes bs') : Differ bs bs' := by
  have hrange : 2 ^ 31 ≤ imm.value.toInt ∧ imm.value.toInt < 2 ^ 32 ∨
      -2 ^ 32 ≤ imm.value.toInt ∧ imm.value.toInt < -2 ^ 31 := Classical.not_not.mp hagrees
  have hrust : ¬ imm.isInt32 = true := by
    refine fun himm => ?_
    have := of_decide_eq_true himm
    omega
  have hboots : isInt32 imm = true := decide_eq_true (by omega)
  rw [Inst.emit, if_neg hrust, append_assoc] at h
  rw [emit, if_pos hboots, emitRex64RmField_eq, append_assoc, append_assoc] at h'
  obtain ⟨rex, hrex⟩ : ∃ rex, emitRex64Rm dest = bytes [rex] := ⟨_, rfl⟩
  rw [hrex] at h h'
  obtain ⟨rest, rfl⟩ := exists_of_bytes_append
    ((append_assoc (bytes [rex]) (bytes [0xB8 + dest.lowBits]) _).trans h)
  obtain ⟨rest', rfl⟩ := exists_of_bytes_append
    ((append_assoc (bytes [rex]) (bytes [0xC7]) _).trans h')
  -- the opcodes of both forms are different
  have hne : 0xB8 + dest.lowBits ≠ 0xC7 := by
    intro heq
    have hnat : (184 + dest.lowBits.toNat) % 2 ^ 8 = 199 := congrArg UInt8.toNat heq
    rw [dest.lowBits_toNat] at hnat
    omega
  exact Differ.prepend (Differ.of_head hne) [rex]

/-- **What a call emits that does not agree** is different. -/
theorem call_differ {c : Call} (hagrees : ¬ c.Agrees) {bs bs' : List UInt8}
    (h : c.emission = bytes bs) (h' : emission c = bytes bs') : Differ bs bs' := by
  cases c with
  | inst i =>
    cases i with
    | movqRi dest imm => exact movqRi_differ hagrees h h'
    | _ => exact absurd trivial hagrees
  | mem i form =>
    obtain ⟨rfl, rfl⟩ := emitWith_layout h h'
    have hne : layout form ≠ form.layout := fun heq => hagrees ((layout_eq_iff form).mp heq)
    cases form with
    | offset base disp | rip disp => exact absurd trivial hagrees
    | index idx factor disp =>
      refine Spec.encode_differ i.spec_wf fun hx => hne ?_
      exact congrArg (fun x => { (AddressForm.index idx factor disp).layout with x }) hx.symm
    | array base idx factor disp =>
      refine Spec.encode_differ i.spec_wf fun hx => hne ?_
      exact congrArg (fun x => { (AddressForm.array base idx factor disp).layout with x }) hx.symm
  | _ => exact absurd trivial hagrees

/-- **What a call emits that agrees** is the same. -/
theorem call_eq {c : Call} (hagrees : c.Agrees) {bs bs' : List UInt8}
    (h : c.emission = bytes bs) (h' : emission c = bytes bs') : bs = bs' := by
  cases c with
  | inst i =>
    have heq := emit_eq hagrees (fun hfail => nomatch hfail.symm.trans h)
      (fun hfail => nomatch hfail.symm.trans h')
    exact Option.some.inj (h.symm.trans (heq.symm.trans h'))
  | mem i form =>
    obtain ⟨rfl, rfl⟩ := emitWith_layout h h'
    rw [(layout_eq_iff form).mpr hagrees]
  | _ => cases h'

end Boots

/-! ### Runs in lockstep -/

/-- Code that was the same until a call left different bytes. -/
def Diverged (s s' : LabelledCode) : Prop :=
  ∃ (before : LabelledCode) (bs bs' : List UInt8), Grows Code.empty before ∧
    Grows ⟨before.code ++ bs, before.labels, before.jumps⟩ s ∧
    Grows ⟨before.code ++ bs', before.labels, before.jumps⟩ s' ∧
    Differ bs bs'

namespace Boots.AssemblerX64

variable {b b' : AssemblerX64}

theorem step_grows {c : Call} (hstep : b.step c = some b') :
    Grows b.view b'.view := codeStep_grows (step_refines hstep)

theorem run_grows {calls : List Call} (h : run step calls b = some b') : Grows b.view b'.view := by
  induction calls generalizing b with
  | nil =>
    cases h
    exact Grows.refl _
  | cons c calls ih =>
    obtain ⟨b1, hstep, h⟩ := run_cons.mp h
    exact (step_grows hstep).trans (ih h)

end Boots.AssemblerX64

section Lockstep

variable {a a' : AssemblerX64} {b b' : Boots.AssemblerX64} {c : Call}

/-- **A call that agrees** keeps both assemblers together. -/
theorem step_agrees (hagrees : c.Agrees) (hend : a.AtEnd) (hview : a.view = b.view)
    (ha : a.step c = some a') (hb : b.step c = some b') : a'.view = b'.view := by
  have hrust := step_refines hend ha
  have hboots := Boots.AssemblerX64.step_refines hb
  rw [← hview] at hboots
  cases c with
  | inst | mem =>
    obtain ⟨bs, hbs, hbytes⟩ := map_eq_some_iff.mp hrust
    obtain ⟨bs', hbs', hbytes'⟩ := map_eq_some_iff.mp hboots
    obtain rfl := Boots.call_eq hagrees hbs hbs'
    exact hbytes.symm.trans hbytes'
  | emitU8 | emitU32 | emitU64 => cases hb
  | _ => exact Option.some.inj (hrust.symm.trans hboots)

/-- **A call that does not agree** appends different bytes. -/
theorem step_not_agrees (hagrees : ¬ c.Agrees) (hend : a.AtEnd) (hview : a.view = b.view)
    (ha : a.step c = some a') (hb : b.step c = some b') :
    ∃ bs bs', a'.view = ⟨a.view.code ++ bs, a.view.labels, a.view.jumps⟩ ∧
      b'.view = ⟨a.view.code ++ bs', a.view.labels, a.view.jumps⟩ ∧ Differ bs bs' := by
  have hrust := step_refines hend ha
  have hboots := Boots.AssemblerX64.step_refines hb
  rw [← hview] at hboots
  cases c with
  | inst | mem =>
    obtain ⟨bs, hbs, hbytes⟩ := map_eq_some_iff.mp hrust
    obtain ⟨bs', hbs', hbytes'⟩ := map_eq_some_iff.mp hboots
    exact ⟨bs, bs', hbytes.symm, hbytes'.symm, Boots.call_differ hagrees hbs hbs'⟩
  | _ => exact absurd trivial hagrees

/-- **Runs of the same calls** stay together, or part at the first call that does not agree. -/
theorem run_lockstep {calls : List Call} (hend : a.AtEnd) (hview : a.view = b.view)
    (hg : Grows Code.empty a.view)
    (ha : run step calls a = some a')
    (hb : run Boots.AssemblerX64.step calls b = some b') :
    (∀ c ∈ calls, c.Agrees) ∧ a'.view = b'.view ∨
      (¬ ∀ c ∈ calls, c.Agrees) ∧ Diverged a'.view b'.view := by
  induction calls generalizing a b with
  | nil =>
    cases ha
    cases hb
    exact .inl ⟨List.forall_mem_nil _, hview⟩
  | cons c calls ih =>
    obtain ⟨a1, hastep, ha⟩ := run_cons.mp ha
    obtain ⟨b1, hbstep, hb⟩ := run_cons.mp hb
    obtain ⟨hend1, hg1⟩ := step_grows hend hastep
    rw [List.forall_mem_cons]
    by_cases hagrees : c.Agrees
    · have hview1 := step_agrees hagrees hend hview hastep hbstep
      rcases ih hend1 hview1 (hg.trans hg1) ha hb with ⟨hall, heq⟩ | ⟨hnot, hdiv⟩
      · exact .inl ⟨⟨hagrees, hall⟩, heq⟩
      · exact .inr ⟨fun h => hnot h.2, hdiv⟩
    · obtain ⟨bs, bs', hbs, hbs', hdiffer⟩ := step_not_agrees hagrees hend hview hastep hbstep
      refine .inr ⟨fun h => hagrees h.1, a.view, bs, bs', hg, ?_, ?_, hdiffer⟩
      · rw [← hbs]
        exact (run_grows ha hend1).2
      · rw [← hbs']
        exact Boots.AssemblerX64.run_grows hb

end Lockstep

/-! ### Final code -/

/-- **What has parted stays different**, since displacements are filled in elsewhere. -/
theorem Diverged.ne {s s' : LabelledCode} (h : Diverged s s') (hres : s.Resolvable)
    (hres' : s'.Resolvable) (pad pad' : List UInt8) :
    s.resolved ++ pad ≠ s'.resolved ++ pad' := by
  obtain ⟨before, bs, bs', hbefore, hg, hg', hdiffer⟩ := h
  have hslice {s : LabelledCode} {bs : List UInt8} (hres : s.Resolvable) (pad : List UInt8)
      (hg : Grows ⟨before.code ++ bs, before.labels, before.jumps⟩ s) :
      slice (s.resolved ++ pad) before.code.length bs.length = bs := by
    have hall := (hbefore.trans (Grows.append before bs)).trans hg
    have hlen : before.code.length + bs.length ≤ s.resolved.length := by
      rw [Grows.length_resolved hres hall, ← List.length_append]
      exact hg.length_le
    rw [slice_append_left hlen]
    exact Grows.slice_resolved hres hall hbefore hg rfl rfl
  exact hdiffer.ne_of_slice (hslice hres pad hg) (hslice hres' pad' hg')

namespace Boots

variable {labels : List (Option ℕ)} {j : ForwardJump} {bs : List UInt8}

/-- The bytes of a displacement, if the label is bound and the displacement fits. -/
def encode (labels : List (Option ℕ)) (j : ForwardJump) : Option (List UInt8) :=
  match labels[j.label]? with
  | some (some target) =>
    match j.distance with
    | .near =>
      if -128 ≤ (target : ℤ) - (j.offset + 1) ∧ (target : ℤ) - (j.offset + 1) ≤ 127 then
        some [UInt8.ofInt ((target : ℤ) - (j.offset + 1))]
      else none
    | .far =>
      if (ofInt ((target : ℤ) - (j.offset + 4))).toInt = (target : ℤ) - (j.offset + 4) then
        some (int32Bytes (ofInt ((target : ℤ) - (j.offset + 4))))
      else none
  | _ => none

theorem displacement_eq (j : ForwardJump) (target : ℕ) :
    j.displacement target = ofInt ((target : ℤ) - (j.offset + j.size)) := by
  rw [displacement, ofInt_sub, ofInt_add]
  rfl

theorem toUInt8_ofInt (d : ℤ) : (UInt32.ofInt d).toUInt8 = UInt8.ofInt d := by
  apply UInt8.toNat_inj.mp
  rw [UInt32.toNat_toUInt8, UInt32.ofInt, UInt8.ofInt, UInt32.toNat_ofNat', UInt8.toNat_ofNat']
  omega

/-- Displacements that are checked here are also accepted in Rust, and have the same bytes. -/
theorem encode_of (h : encode labels j = some bs) : j.encode labels = some bs := by
  obtain ⟨offset, label, distance⟩ := j
  rw [encode] at h
  split at h
  next t htarget =>
    simp only [ForwardJump.encode, htarget, displacement_eq]
    cases distance with
    | near =>
      simp only [ForwardJump.size, Int.natCast_one] at h ⊢
      split_ifs at h with hfit
      cases h
      have hint := toInt_ofInt_of_le (show -2 ^ 31 ≤ (t : ℤ) - (offset + 1) by omega)
        (show _ < 2 ^ 31 by omega)
      refine (if_pos ?_).trans ?_
      · rw [le_iff_toInt_le, lt_iff_toInt_lt, hint]
        exact ⟨hfit.1, Int.lt_add_one_of_le hfit.2⟩
      · rw [AssemblerX64.toUInt32_ofInt, toUInt8_ofInt]
    | far =>
      dsimp only at h ⊢
      split_ifs at h with hfit
      cases h
      rw [int32Bytes_eq]
      rfl
  next => cases h

theorem length_encode
    (h : encode labels j = some bs) : bs.length = j.size := ForwardJump.length_encode (encode_of h)

namespace AssemblerX64

variable {a a' : AssemblerX64}

theorem resolveJump_eq (a : AssemblerX64) (j : ForwardJump)
    (h : j.offset + j.size ≤ a.buffer.length) :
    (a.resolveJump j).map (fun a => (a.buffer, a.labels)) =
      (encode a.labels j).map fun bytes => (Fixups.patch a.buffer j.offset bytes, a.labels) := by
  obtain ⟨offset, label, distance⟩ := j
  rw [resolveJump.eq_def, encode.eq_def]
  cases hv : a.labels[label]? with
  | none => rfl
  | some v =>
    cases v with
    | none => rfl
    | some t =>
      have hpatch {bytes : List UInt8} (h : offset + bytes.length ≤ a.buffer.length) :
          (a.patch offset bytes).map (fun a => (a.buffer, a.labels)) =
            some (Fixups.patch a.buffer offset bytes, a.labels) := by
        rw [patch, if_pos h]
        rfl
      cases distance with
      | near | far =>
        dsimp only
        split_ifs
        · exact hpatch h
        · rfl

section

variable (hg : Grows Code.empty a.view)
include hg

/-- **Resolving jumps is patching**, with the same bytes. -/
theorem resolveJumps_inv (h : a.resolveJumps = some a') :
    a.view.Resolvable ∧ a'.buffer = a.view.resolved := by
  have hjumps : ∀ j ∈ a.jumps, j.offset + j.size ≤ a.buffer.length :=
    fun j hj => hg.fields.le _ (List.mem_map_of_mem hj)
  have hres := resolve_eq (v := fun a : AssemblerX64 => (a.buffer, a.labels))
    resolveJump_eq (fun _ _ _ => length_encode) hjumps
  obtain ⟨a1, ha1, h⟩ := bind_eq_some_iff.mp h
  cases h
  rw [ha1] at hres
  split_ifs at hres with hall
  · have hencode (j : ForwardJump) (hj : j ∈ a.jumps) :
        Fixup.encode a.view.labels j = encode a.labels j := by
      obtain ⟨bs, hbs⟩ := isSome_iff_exists.mp (hall j hj)
      exact (encode_of hbs).trans hbs.symm
    refine ⟨fun j hj => hencode j hj ▸ hall j hj, ?_⟩
    obtain ⟨hcode, -⟩ := Prod.mk.inj (Option.some.inj hres)
    refine hcode.trans (congrArg (patchAll a.buffer) ?_)
    refine List.map_congr_left fun j hj => ?_
    rw [hencode j hj]
    rfl
  · cases hres

theorem finalizeTesting_inv {code : List UInt8} (h : a.finalizeTesting = some code) :
    a.view.Resolvable ∧ code = a.view.resolved := by
  obtain ⟨a', ha', rfl⟩ := map_eq_some_iff.mp h
  exact resolveJumps_inv hg ha'

theorem finalize_inv {code : List UInt8} (h : a.finalize = some code) :
    a.view.Resolvable ∧ ∃ a1 a2 pad, a1.buffer = a.view.resolved ∧ a2.buffer = code ∧
      code = a.view.resolved ++ pad ∧
      whileLoop (fun a : AssemblerX64 => a.size % 16 ≠ 0) (fun a => a.push (emit .int3)) 17 a1 =
        some a2 := by
  obtain ⟨a1, ha1, h⟩ := bind_eq_some_iff.mp h
  obtain ⟨a2, ha2, h⟩ := bind_eq_some_iff.mp h
  obtain ⟨hres, hcode⟩ := resolveJumps_inv hg ha1
  obtain ⟨⟨pad, hpad⟩, -⟩ := whileLoop_partial
    (I := fun a' : AssemblerX64 => ∃ pad, a'.buffer = a1.buffer ++ pad)
    (fun s s' hs _ hbody => by
      obtain ⟨pad, hpad⟩ := hs
      cases hbody
      exact ⟨pad ++ [0xCC], by rw [← List.append_assoc, ← hpad]⟩)
    ha2 ⟨[], (List.append_nil _).symm⟩
  cases h
  exact ⟨hres, a1, a2, pad, hcode, rfl, hcode ▸ hpad, ha2⟩

end

end AssemblerX64

end Boots

namespace AssemblerX64

variable {a : AssemblerX64} {code : List UInt8}

theorem finalize_none_inv (hg : Grows Code.empty a.view)
    (h : a.finalize none = some code) : a.view.Resolvable ∧ code = a.view.resolved := by
  rw [finalize, finalize_none_eq resolveJump_eq hg] at h
  split_ifs at h with hres
  exact ⟨hres, (Option.some.inj h).symm⟩

theorem finalize_some_inv (hend : a.AtEnd) (hg : Grows Code.empty a.view)
    (h : a.finalize (some 16) = some code) :
    a.view.Resolvable ∧ ∃ (a1 a2 : AssemblerX64) (pad : List UInt8), a1.AtEnd ∧
      a1.buffer.code = a.view.resolved ∧ a2.buffer.code = code ∧
      code = a.view.resolved ++ pad ∧
      whileLoop (fun a : AssemblerX64 => a.buffer.code.length % 16 ≠ 0)
        (fun a => a.emit Inst.int3.emit) 17 a1 = some a2 := by
  have hfinal := finalize_eq hg hend (show some 16 ≠ some 0 by decide)
  by_cases hres : a.view.Resolvable
  · rw [if_pos hres] at hfinal
    obtain ⟨pad, hpad⟩ := hfinal
    cases h.symm.trans hpad
    rw [finalize, Assembler.finalize, resolveJumps_eq resolveJump_eq hg, if_pos hres] at h
    obtain ⟨a2, ha2, hcode⟩ := map_eq_some_iff.mp h
    exact ⟨hres, ⟨[], ⟨a.view.resolved, a.position, a.buffer.labels⟩⟩, a2, pad,
      hend.trans (Grows.length_resolved hres hg).symm, rfl, hcode, rfl, ha2⟩
  · rw [if_neg hres, h] at hfinal
    cases hfinal

end AssemblerX64

/-- The code of a sequence of calls, filled up to a multiple of the alignment if there is one. -/
def assemble (alignment : Option ℕ) (calls : List Call) : Option (List UInt8) :=
  (run step calls .new).bind (·.finalize alignment)

namespace Boots

/-- The code of a sequence of calls, filled up to a multiple of 16. -/
def assemble (calls : List Call) : Option (List UInt8) :=
  (run AssemblerX64.step calls .new).bind (·.finalize)

/-- The same without filling up. -/
def assembleTesting (calls : List Call) : Option (List UInt8) :=
  (run AssemblerX64.step calls .new).bind (·.finalizeTesting)

end Boots

theorem fill_eq {a a' : AssemblerX64} {b b' : Boots.AssemblerX64} (hend : a.AtEnd)
    (hcode : a.buffer.code = b.buffer)
    (ha : whileLoop (fun a : AssemblerX64 => a.buffer.code.length % 16 ≠ 0)
      (fun a => a.emit Inst.int3.emit) 17 a = some a')
    (hb : whileLoop (fun b : Boots.AssemblerX64 => b.size % 16 ≠ 0)
      (fun b => b.push (Boots.emit .int3)) 17 b = some b') : a'.buffer.code = b'.buffer := by
  have hrel := whileLoop_related
    (R := fun a b => a.AtEnd ∧ a.buffer.code = b.buffer)
    (fun a b h => by rw [h.2]; rfl)
    (fun a b a' b' h ha hb => by
      obtain rfl := Option.some.inj ((emit_bytes h.1 [0xCC]).symm.trans ha)
      cases hb
      exact ⟨rfl, congrArg (· ++ [0xCC]) h.2⟩)
    ⟨hend, hcode⟩ ha hb
  exact hrel.2

/-- **Both x64 assemblers** produce the same code from the same calls, which both accept, exactly if
every memory operand with an index has the same REX bit for its base and its index, and no immediate
of `movq` is among those that only one of them takes for a number of 32 bits. -/
theorem same_code_iff (calls : List Call) :
    (∀ code code', assemble none calls = some code → Boots.assembleTesting calls = some code' →
      (code = code' ↔ ∀ c ∈ calls, c.Agrees)) ∧
    ∀ code code', assemble (some 16) calls = some code → Boots.assemble calls = some code' →
      (code = code' ↔ ∀ c ∈ calls, c.Agrees) := by
  refine ⟨fun code code' h h' => ?_, fun code code' h h' => ?_⟩
  · obtain ⟨a, ha, h⟩ := bind_eq_some_iff.mp h
    obtain ⟨b, hb, h'⟩ := bind_eq_some_iff.mp h'
    obtain ⟨hend, hg⟩ := AssemblerX64.new_grows ha
    obtain ⟨hres, rfl⟩ := AssemblerX64.finalize_none_inv hg h
    obtain ⟨hres', rfl⟩ := Boots.AssemblerX64.finalizeTesting_inv
      (Boots.AssemblerX64.run_grows hb) h'
    rcases run_lockstep (a := .new) rfl rfl (Grows.refl _) ha hb with ⟨hall, hview⟩ | ⟨hnot, hdiv⟩
    · exact iff_of_true (congrArg Code.resolved hview) hall
    · refine iff_of_false (fun heq => ?_) hnot
      exact hdiv.ne hres hres' [] [] (congrArg (· ++ []) heq)
  · obtain ⟨a, ha, h⟩ := bind_eq_some_iff.mp h
    obtain ⟨b, hb, h'⟩ := bind_eq_some_iff.mp h'
    obtain ⟨hend, hg⟩ := AssemblerX64.new_grows ha
    obtain ⟨hres, a1, a2, pad, hend1, hcode1, rfl, hpad, hloop⟩ :=
      AssemblerX64.finalize_some_inv hend hg h
    obtain ⟨hres', b1, b2, pad', hcode1', rfl, hpad', hloop'⟩ :=
      Boots.AssemblerX64.finalize_inv (Boots.AssemblerX64.run_grows hb) h'
    rcases run_lockstep (a := .new) rfl rfl (Grows.refl _) ha hb with ⟨hall, hview⟩ | ⟨hnot, hdiv⟩
    · refine iff_of_true (fill_eq hend1 ?_ hloop hloop') hall
      rw [hcode1, hcode1', hview]
    · refine iff_of_false (fun heq => ?_) hnot
      exact hdiv.ne hres hres' pad pad' (hpad.symm.trans (heq.trans hpad'))

/-- A jump forward over two memory accesses. -/
def accessCalls : List Call :=
  [.createLabel, .jmp 0, .mem (.movqRa RAX) (.array R8 R12 .eight 16),
    .mem (.lea RCX) (.offset RBP 0), .inst (.movqRi RAX ⟨1⟩), .bindLabel 0, .inst .retq]

theorem same_code_iff_access :
    ∃ code, assemble (some 16) accessCalls = some code ∧
      Boots.assemble accessCalls = some code := by
  have hrust : (assemble (some 16) accessCalls).isSome := by decide +kernel
  have hboots : (Boots.assemble accessCalls).isSome := by decide +kernel
  obtain ⟨code, hcode⟩ := isSome_iff_exists.mp hrust
  obtain ⟨code', hcode'⟩ := isSome_iff_exists.mp hboots
  have himm : (Inst.movqRi RAX ⟨1⟩).Agrees := by
    rw [Inst.Agrees]
    decide
  have hagrees : ∀ c ∈ accessCalls, c.Agrees := by
    simp only [accessCalls, List.forall_mem_cons]
    exact ⟨trivial, trivial, rfl, trivial, himm, trivial, trivial, List.forall_mem_nil _⟩
  obtain rfl := ((same_code_iff accessCalls).2 code code' hcode hcode').mpr hagrees
  exact ⟨code, hcode, hcode'⟩

/-- An index that needs a REX bit, with a base that does not: the bit is missing. -/
theorem not_same_code_array :
    assemble none [.mem (.movqRa RAX) (.array RAX R8 .one 0)] = some [0x4A, 0x8B, 0x04, 0x00] ∧
      Boots.assembleTesting [.mem (.movqRa RAX) (.array RAX R8 .one 0)] =
        some [0x48, 0x8B, 0x04, 0x00] := by
  decide +kernel

end Dora.Asm
