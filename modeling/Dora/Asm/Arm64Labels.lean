import Dora.Asm.Arm64Assembler
import Dora.Asm.X64Operands
import Dora.Lib.Arm64Format

/-!
# Labels of the arm64 assembler

As long as the code has less than 2^31 bytes, every branch in the final code is the one that was
asked for and leads to its label, and all other words are as they were written. Beyond that,
positions are truncated, and a branch may be taken for one over a short distance.

## Main definitions

* `BranchesResolved`: the branches of some calls in the final code

## Main results

* `resolvable_iff`: when the jumps can be resolved
* `arm64_labels_resolved`: `finalize` returns exactly then, and the branches are resolved
* `not_resolved_far`: code in which a distance is truncated
-/

namespace Dora.Asm.Arm64

open Fixups X64 A64 List Option Arm64.ForwardJump Int32
open Assembler hiding append resolveJumps alignTo finalize
open Code (Grows)

/-! ### Words -/

theorem toNat_or_of_lt {x y : UInt32} {k : ℕ} (hx : x.toNat % 2 ^ k = 0) (hy : y.toNat < 2 ^ k) :
    (x ||| y).toNat = x.toNat + y.toNat := by
  have hx' : 2 ^ k * (x.toNat / 2 ^ k) = x.toNat := Nat.mul_div_cancel' (Nat.dvd_of_mod_eq_zero hx)
  rw [UInt32.toNat_or, ← hx']
  exact (Nat.two_pow_add_eq_or_of_lt hy _).symm

variable (imm : Int32) {a : AssemblerArm64}

theorem toNat_field19 : (imm.toUInt32 &&& 0x7FFFF).toNat = imm.toUInt32.toNat % 2 ^ 19 := by
  exact Nat.and_two_pow_sub_one_eq_mod _ 19

theorem toNat_field26 : (imm.toUInt32 &&& 0x3FFFFFF).toNat = imm.toUInt32.toNat % 2 ^ 26 := by
  exact Nat.and_two_pow_sub_one_eq_mod _ 26

theorem signed_toUInt32 : signed 32 imm.toUInt32.toNat = imm.toInt := by
  rw [← signed_le32, leNat_le32]

theorem signed_field19 {imm : Int32} (h : -2 ^ 18 ≤ imm.toInt ∧ imm.toInt < 2 ^ 18) :
    signed 19 (imm.toUInt32.toNat % 2 ^ 19) = imm.toInt := by
  have hsigned := signed_toUInt32 imm
  rw [signed] at hsigned ⊢
  split at hsigned <;> split <;> omega

theorem signed_field26 {imm : Int32} (h : -2 ^ 25 ≤ imm.toInt ∧ imm.toInt < 2 ^ 25) :
    signed 26 (imm.toUInt32.toNat % 2 ^ 26) = imm.toInt := by
  have hsigned := signed_toUInt32 imm
  rw [signed] at hsigned ⊢
  split at hsigned <;> split <;> omega

namespace JumpKind

/-- What a branch is meant to be. -/
def branchKind : JumpKind → BranchKind
  | unconditional => .b
  | conditional cond => .bcond cond.u32.toNat
  | nonZero sf reg => .cbnz sf reg.value.toNat
  | zero sf reg => .cbz sf reg.value.toNat

/-- Only general registers can be compared. -/
def Accepts : JumpKind → Prop
  | nonZero _ reg | zero _ reg => reg.isGpr
  | unconditional | conditional _ => True

end JumpKind

theorem fitsI19_iff : fitsI19 imm = true ↔ -2 ^ 18 ≤ imm.toInt ∧ imm.toInt < 2 ^ 18 := by
  rw [fitsI19, Bool.and_eq_true, decide_eq_true_iff, decide_eq_true_iff, le_iff_toInt_le,
    lt_iff_toInt_lt]
  exact Iff.rfl

theorem fitsI26_iff : fitsI26 imm = true ↔ -2 ^ 25 ≤ imm.toInt ∧ imm.toInt < 2 ^ 25 := by
  rw [fitsI26, Bool.and_eq_true, decide_eq_true_iff, decide_eq_true_iff, le_iff_toInt_le,
    lt_iff_toInt_lt]
  exact Iff.rfl

theorem toNat_shiftLeft {x k : UInt32} (hk : k.toNat < 32) (h : x.toNat * 2 ^ k.toNat < 2 ^ 32) :
    (x <<< k).toNat = x.toNat * 2 ^ k.toNat := by
  rw [UInt32.toNat_shiftLeft, Nat.mod_eq_of_lt hk, Nat.shiftLeft_eq, Nat.mod_eq_of_lt h]

theorem Cond.toNat_lt (cond : Cond) : cond.u32.toNat < 2 ^ 4 := by
  cases cond <;> decide

theorem Register.toNat_lt {r : Register} (h : r.isGpr = true) : r.value.toNat < 31 := by
  have hle : r.value ≤ R30.value := of_decide_eq_true h
  have := UInt8.le_iff_toNat_le.mp hle
  have h30 : R30.value.toNat = 30 := rfl
  omega

/-- A field of 19 bits between the opcode and the low bits of a branch. -/
theorem toNat_branch19 {base low : UInt32} (imm : Int32) (hbase : base.toNat % 2 ^ 24 = 0)
    (hlow : low.toNat < 2 ^ 5) :
    (base ||| (imm.toUInt32 &&& 0x7FFFF) <<< 5 ||| low).toNat =
      base.toNat + imm.toUInt32.toNat % 2 ^ 19 * 2 ^ 5 + low.toNat := by
  have hf := toNat_field19 imm
  generalize imm.toUInt32 &&& 0x7FFFF = field at hf ⊢
  have hshift : (field <<< 5).toNat = field.toNat * 2 ^ 5 :=
    toNat_shiftLeft (by decide) (show field.toNat * 2 ^ 5 < 2 ^ 32 by omega)
  have h1 : (base ||| field <<< 5).toNat = base.toNat + field.toNat * 2 ^ 5 := by
    rw [toNat_or_of_lt hbase (by omega), hshift]
  rw [toNat_or_of_lt (k := 5) (by rw [h1]; omega) (by omega), h1, hf]

theorem condBranchImm_eq (cond : Cond) {imm : Int32} (h : fitsI19 imm = true) :
    ∃ w, condBranchImm cond imm = some w ∧
      w.toNat = (BranchKind.bcond cond.u32.toNat).word (imm.toUInt32.toNat % 2 ^ 19) :=
  ⟨_, if_pos h, toNat_branch19 imm rfl (Nat.lt_trans cond.toNat_lt (by decide))⟩

theorem uncondBranchImm_eq {imm : Int32} (h : fitsI26 imm = true) :
    ∃ w, uncondBranchImm 0 imm = some w ∧
      w.toNat = BranchKind.b.word (imm.toUInt32.toNat % 2 ^ 26) := by
  refine ⟨_, if_pos ⟨rfl, h⟩, ?_⟩
  have hop : ((0b101 : UInt32) <<< 26 ||| (0 : UInt32) <<< 31).toNat = 0b000101 * 2 ^ 26 := rfl
  have hf := toNat_field26 imm
  rw [toNat_or_of_lt (k := 26) ((congrArg (· % _) hop).trans (Nat.mul_mod_left ..)) (by omega),
    hop, hf]
  rfl

/-- The word of a comparison with zero. -/
def cmpKind (sf op : Bool) (rt : ℕ) : BranchKind := if op then .cbnz sf rt else .cbz sf rt

theorem cmpBranchImm_eq (sf op : Bool) {reg : Register} {imm : Int32} (h : fitsI19 imm = true)
    (hreg : reg.isGpr = true) :
    ∃ w, cmpBranchImm sf.toUInt32 op.toUInt32 reg imm = some w ∧
      w.toNat = (cmpKind sf op reg.value.toNat).word (imm.toUInt32.toNat % 2 ^ 19) := by
  have hbit (b : Bool) : fitsBit b.toUInt32 = true := by cases b <;> rfl
  have hval := Register.toNat_lt hreg
  refine ⟨sf.toUInt32 <<< 31 ||| (0b011010 : UInt32) <<< 25 ||| op.toUInt32 <<< 24 |||
    (imm.toUInt32 &&& 0x7FFFF) <<< 5 ||| reg.value.toUInt32, ?_, ?_⟩
  · rw [cmpBranchImm, if_pos ⟨hbit sf, hbit op, h, hreg⟩, Register.encoding, if_pos hreg]
    rfl
  have hbase : (sf.toUInt32 <<< 31 ||| (0b011010 : UInt32) <<< 25 ||| op.toUInt32 <<< 24).toNat =
      BranchKind.sfBit sf + 0b011010 * 2 ^ 25 + if op then 2 ^ 24 else 0 := by
    cases sf <;> cases op <;> rfl
  have hreg' : reg.value.toUInt32.toNat = reg.value.toNat := UInt8.toNat_toUInt32 _
  rw [toNat_branch19 imm (by cases sf <;> cases op <;> rfl) (by omega), hbase, hreg', cmpKind]
  cases op <;> simp [BranchKind.word]

namespace JumpKind

variable {kind : JumpKind} {imm : Int32}

/-- How far a branch goes, in words. -/
def Fits (kind : JumpKind) (offset : ℤ) : Prop :=
  -2 ^ (kind.branchKind.bits - 1) ≤ offset ∧ offset < 2 ^ (kind.branchKind.bits - 1)

/-- **The word of a branch** that is accepted and fits. -/
theorem inst_eq (haccepts : kind.Accepts) (hfits : kind.Fits imm.toInt) :
    ∃ w, kind.inst imm = some w ∧ decodeBranch w.toNat = some ⟨kind.branchKind, imm.toInt⟩ := by
  have hmod (n k : ℕ) : n % 2 ^ k < 2 ^ k := Nat.mod_lt _ (Nat.two_pow_pos k)
  have key19 {bk : BranchKind} (hvalid : bk.Valid) (hbits : bk.bits = 19) {w : UInt32}
      (hw : w.toNat = bk.word (imm.toUInt32.toNat % 2 ^ 19)) (h : fitsI19 imm = true) :
      decodeBranch w.toNat = some ⟨bk, imm.toInt⟩ := by
    rw [hw, decodeBranch_word hvalid (hbits ▸ hmod _ _), hbits,
      signed_field19 ((fitsI19_iff imm).mp h)]
  have keyCmp (sf op : Bool) {reg : Register} (hreg : reg.isGpr = true) (h : fitsI19 imm = true) :
      ∃ w, cmpBranchImm sf.toUInt32 op.toUInt32 reg imm = some w ∧
        decodeBranch w.toNat = some ⟨cmpKind sf op reg.value.toNat, imm.toInt⟩ := by
    obtain ⟨w, hw, hnat⟩ := cmpBranchImm_eq sf op h hreg
    have hval := Register.toNat_lt hreg
    refine ⟨w, hw, key19 ?_ ?_ hnat h⟩
    · cases op <;> exact Nat.lt_succ_of_lt hval
    · cases op <;> rfl
  cases kind with
  | unconditional =>
    have h := (fitsI26_iff imm).mpr hfits
    obtain ⟨w, hw, hnat⟩ := uncondBranchImm_eq h
    have hdecode := decodeBranch_word (show BranchKind.b.Valid from trivial)
      (hmod imm.toUInt32.toNat 26)
    refine ⟨w, hw, ?_⟩
    rw [hnat]
    exact hdecode.trans (congrArg (fun offset => some (Branch.mk .b offset)) (signed_field26 hfits))
  | conditional cond =>
    have h := (fitsI19_iff imm).mpr hfits
    obtain ⟨w, hw, hnat⟩ := condBranchImm_eq cond h
    have hvalid : (BranchKind.bcond cond.u32.toNat).Valid := cond.toNat_lt
    exact ⟨w, hw, key19 hvalid rfl hnat h⟩
  | nonZero sf reg =>
    have h := (fitsI19_iff imm).mpr hfits
    cases sf with
    | true => exact keyCmp true true haccepts h
    | false => exact keyCmp false true haccepts h
  | zero sf reg =>
    have h := (fitsI19_iff imm).mpr hfits
    cases sf with
    | true => exact keyCmp true false haccepts h
    | false => exact keyCmp false false haccepts h

/-- **Other branches fail an assertion.** -/
theorem inst_eq_none (h : ¬ (kind.Accepts ∧ kind.Fits imm.toInt)) : kind.inst imm = none := by
  have keyCmp (sf op : UInt32) {reg : Register}
      (h : ¬ (reg.isGpr = true ∧ -2 ^ 18 ≤ imm.toInt ∧ imm.toInt < 2 ^ 18)) :
      cmpBranchImm sf op reg imm = none := by
    rw [cmpBranchImm, if_neg]
    exact fun ⟨_, _, hfits, hreg⟩ => h ⟨hreg, (fitsI19_iff imm).mp hfits⟩
  cases kind with
  | unconditional =>
    rw [inst, uncondBranchImm, if_neg]
    exact fun hfits => h ⟨trivial, (fitsI26_iff imm).mp hfits.2⟩
  | conditional cond =>
    rw [inst, condBranchImm, if_neg]
    exact fun hfits => h ⟨trivial, (fitsI19_iff imm).mp hfits⟩
  | nonZero sf reg | zero sf reg => cases sf <;> exact keyCmp _ _ h

/-! ### Distances -/

/-- The word of a branch at one position to another. -/
def instAt (kind : JumpKind) (pos target : ℕ) : Option UInt32 :=
  let distance : Int32 := ofNat target - ofNat pos
  if distance % 4 = 0 then kind.inst (distance / 4) else none

/-- The distance in bytes can be encoded. -/
def Reaches (kind : JumpKind) (distance : ℤ) : Prop :=
  ∃ offset, distance = 4 * offset ∧ kind.Fits offset

variable {pos target : ℕ}

section

variable (hpos : pos < 2 ^ 31) (htarget : target < 2 ^ 31)
include hpos htarget

theorem toInt_distance : (ofNat target - ofNat pos).toInt = (target : ℤ) - pos := by
  have h {n : ℕ} (hn : n < 2 ^ 31) : (ofNat n).toInt = n := toInt_ofNat_of_lt hn
  rw [toInt_sub, h hpos, h htarget]
  exact Int.bmod_eq_of_le (by omega) (by omega)

/-- **In code that is not too large** a branch that is accepted and reaches its target leads
there. -/
theorem exists_instAt (haccepts : kind.Accepts) (hreach : kind.Reaches ((target : ℤ) - pos)) :
    ∃ w offset, kind.instAt pos target = some w ∧
      decodeBranch w.toNat = some ⟨kind.branchKind, offset⟩ ∧ (pos : ℤ) + 4 * offset = target := by
  obtain ⟨offset, heq, hfits⟩ := hreach
  have hint := (toInt_distance hpos htarget).trans heq
  rw [instAt]
  generalize ofNat target - ofNat pos = d at hint
  have h4 : (4 : Int32).toInt = 4 := rfl
  have hmod : d % 4 = 0 := by
    rw [← toInt_inj, toInt_mod, hint, h4]
    exact Int.tmod_eq_zero_of_dvd (Int.dvd_mul_right 4 offset)
  have hdiv : (d / 4).toInt = offset := by
    rw [toInt_div_of_ne_right _ _ (by decide), hint, h4]
    exact Int.mul_tdiv_cancel_left offset (by decide)
  obtain ⟨w, hw, hdecode⟩ := inst_eq haccepts (hdiv.symm ▸ hfits)
  exact ⟨w, offset, (if_pos hmod).trans hw, hdiv ▸ hdecode, by omega⟩

/-- **Otherwise an assertion fails.** -/
theorem instAt_eq_none (h : ¬ (kind.Accepts ∧ kind.Reaches ((target : ℤ) - pos))) :
    kind.instAt pos target = none := by
  have hint := toInt_distance hpos htarget
  have h4 : (4 : Int32).toInt = 4 := rfl
  rw [instAt]
  generalize ofNat target - ofNat pos = d at hint
  by_cases hmod : d % 4 = 0
  · rw [if_pos hmod]
    apply inst_eq_none
    rintro ⟨haccepts, hfits⟩
    rw [← toInt_inj, toInt_mod, h4] at hmod
    obtain ⟨offset, hoffset⟩ := Int.dvd_of_tmod_eq_zero hmod
    have hdiv : (d / 4).toInt = offset := by
      rw [toInt_div_of_ne_right _ _ (by decide), hoffset, h4]
      exact Int.mul_tdiv_cancel_left offset (by decide)
    exact h ⟨haccepts, offset, hint ▸ hoffset, hdiv ▸ hfits⟩
  · rw [if_neg hmod]

theorem isSome_instAt_iff :
    (kind.instAt pos target).isSome ↔ kind.Accepts ∧ kind.Reaches ((target : ℤ) - pos) := by
  by_cases h : kind.Accepts ∧ kind.Reaches (target - pos)
  · obtain ⟨w, -, hw, -⟩ := exists_instAt hpos htarget h.1 h.2
    rw [hw]
    exact iff_of_true rfl h
  · rw [instAt_eq_none hpos htarget h]
    exact iff_of_false (fun h' => nomatch h') h

theorem decode_instAt {w : UInt32} (h : kind.instAt pos target = some w) :
    ∃ offset, decodeBranch w.toNat = some ⟨kind.branchKind, offset⟩ ∧
      (pos : ℤ) + 4 * offset = target := by
  obtain ⟨haccepts, hreach⟩ := (isSome_instAt_iff hpos htarget).mp (isSome_iff_exists.mpr ⟨w, h⟩)
  obtain ⟨w', offset, hw', hdecode⟩ := exists_instAt hpos htarget haccepts hreach
  obtain rfl := some.inj (h.symm.trans hw')
  exact ⟨offset, hdecode⟩

end

end JumpKind

/-! ### What a call does -/

/-- The branch that a call stands for. -/
structure BranchCall where
  kind : JumpKind
  target : Label

def Call.branch : Call → Option BranchCall
  | .bL target => some ⟨.unconditional, target⟩
  | .bcL cond target => some ⟨.conditional cond, target⟩
  | .cbz reg target => some ⟨.zero true reg, target⟩
  | .cbzW reg target => some ⟨.zero false reg, target⟩
  | .cbnz reg target => some ⟨.nonZero true reg, target⟩
  | .cbnzW reg target => some ⟨.nonZero false reg, target⟩
  | _ => none

namespace ForwardJump

/-- The bytes of the word, if the label is bound and the branch reaches it. -/
def encode (labels : List (Option ℕ)) (j : ForwardJump) : Option (List UInt8) :=
  match labels[j.label]? with
  | some (some target) => (j.kind.instAt j.offset target).map le32
  | _ => none

theorem length_encode {labels : List (Option ℕ)} {j : ForwardJump} {bytes : List UInt8}
    (h : j.encode labels = some bytes) : bytes.length = 4 := by
  rw [encode] at h
  split at h
  · obtain ⟨w, -, rfl⟩ := map_eq_some_iff.mp h
    rfl
  · cases h

-- the whole word is written again
instance : Fixup UInt8 ForwardJump where
  start := offset
  size _ := 4
  encode := encode
  length_encode _ _ _ := length_encode

end ForwardJump

namespace AssemblerArm64

variable {a a' : AssemblerArm64} {c : Call} {calls : List Call}

/-- A branch whose word is left open. Its position is truncated. -/
def forward (a : AssemblerArm64) (j : BranchCall) : AssemblerArm64 where
  unresolvedJumps := a.unresolvedJumps ++ [⟨a.size % 2 ^ 32, j.target, j.kind⟩]
  buffer := (a.append (le32 0)).buffer

@[simp]
theorem size_forward (a : AssemblerArm64) (j : BranchCall) : (a.forward j).size = a.size + 4 :=
  a.size_append (le32 0)

/-- **What a call does**: it appends code, branches, or creates or binds a label. -/
inductive Effect (a : AssemblerArm64) : Call → AssemblerArm64 → Prop
  | append {c : Call} (bs : List UInt8) (hc : c.branch = none) : Effect a c (a.append bs)
  | backward {c : Call} {j : BranchCall} {t : ℕ} {w : UInt32} (hc : c.branch = some j)
    (ht : a.view.target j.target = some t) (hw : j.kind.instAt a.size t = some w) :
    Effect a c (a.append (le32 w))
  | forward {c : Call} {j : BranchCall} (hc : c.branch = some j)
    (ht : a.view.target j.target = none) : Effect a c (a.forward j)
  | create : Effect a .createLabel (a.withLabels (a.buffer.labels ++ [none]))
  | createBound : Effect a .createAndBindLabel
      (a.withLabels (a.buffer.labels ++ [some a.buffer.code.length]))
  | bind {l : Label} (h : a.buffer.labels[l]? = some none) : Effect a (.bindLabel l)
      (a.withLabels (a.buffer.labels.set l (some a.buffer.code.length)))

theorem branch_effect {j : BranchCall} (hc : c.branch = some j) (hend : a.AtEnd)
    (hstep : a.branch j.kind j.target = some a') : Effect a c a' := by
  obtain ⟨v, hv, hstep⟩ := bind_eq_some_iff.mp hstep
  have htarget := target_of_offset hv
  have hpos : a.position = a.size := hend
  cases v with
  | none =>
    obtain ⟨a1, ha1, hstep⟩ := bind_eq_some_iff.mp hstep
    obtain rfl := some.inj ((write_eq hend (le32 0)).symm.trans ha1)
    cases hstep
    rw [hpos]
    exact .forward hc htarget
  | some t =>
    dsimp only at hstep
    split at hstep
    next hmod =>
      obtain ⟨w, hw, hstep⟩ := bind_eq_some_iff.mp hstep
      obtain rfl := some.inj ((write_eq hend (le32 w)).symm.trans hstep)
      refine .backward hc htarget ?_
      rw [hpos, Int32.neg_sub] at hw hmod
      rw [JumpKind.instAt, if_pos hmod, hw]
    next => cases hstep

theorem step_effect (hend : a.AtEnd) (hstep : a.step c = some a') : Effect a c a' := by
  have hwrite {bs : List UInt8} (h : a.withBuffer (a.buffer.write bs) = some a')
      (hc : c.branch = none) : Effect a c a' := by
    obtain rfl := some.inj ((write_eq hend bs).symm.trans h)
    exact .append bs hc
  cases c with
  | emitU8 value | emitU32 value | emitU64 value => exact hwrite hstep rfl
  | createLabel =>
    cases hstep
    rw [createLabel_eq hend]
    exact .create
  | createAndBindLabel =>
    obtain rfl := createAndBindLabel_inv hend hstep
    exact .createBound
  | bindLabel l =>
    obtain ⟨hl, rfl⟩ := bindLabel_inv hend hstep
    exact .bind hl
  | bL | bcL | cbz | cbzW | cbnz | cbnzW => exact branch_effect rfl hend hstep

/-- **Every call lets the code grow**, at least as long as positions are not truncated. -/
structure Extends (a a' : AssemblerArm64) : Prop where
  atEnd : a'.AtEnd
  size_le : a.size ≤ a'.size
  grows : a'.size < 2 ^ 32 → Grows a.view a'.view

theorem Extends.trans {a1 a2 a3 : AssemblerArm64} (h : Extends a1 a2) (h' : Extends a2 a3) :
    Extends a1 a3 where
  atEnd := h'.atEnd
  size_le := Nat.le_trans h.size_le h'.size_le
  grows hsize := (h.grows (Nat.lt_of_le_of_lt h'.size_le hsize)).trans (h'.grows hsize)

theorem extends_append (a : AssemblerArm64) (bs : List UInt8) : Extends a (a.append bs) where
  atEnd := rfl
  size_le := by simp
  grows _ := Grows.append a.view bs

theorem extends_forward (a : AssemblerArm64) (j : BranchCall) : Extends a (a.forward j) where
  atEnd := rfl
  size_le := by simp
  grows hsize := by
    rw [size_forward] at hsize
    have hmod : a.size % 2 ^ 32 = a.size := Nat.mod_eq_of_lt (by omega)
    refine Grows.jump a.view (le32 0) ?_ ?_
    · simp only [hmod]
      exact Nat.le_refl _
    · simp only [hmod]
      exact Nat.le_refl _

theorem step_extends (hend : a.AtEnd) (hstep : a.step c = some a') : Extends a a' := by
  cases step_effect hend hstep with
  | append bs => exact extends_append a bs
  | @backward _ _ _ w => exact extends_append a (le32 w)
  | forward => exact extends_forward a _
  | create => exact ⟨rfl, Nat.le_refl _, fun _ => Grows.create a.view fun t h => nomatch h⟩
  | createBound =>
    exact ⟨rfl, Nat.le_refl _, fun _ => Grows.create a.view fun t h => (some.inj h).symm⟩
  | bind h => exact ⟨rfl, Nat.le_refl _, fun _ => Grows.bind a.view h⟩

theorem run_extends (h : run step calls a = some a') (hend : a.AtEnd) : Extends a a' := by
  refine run_induction (P := fun a a' => a.AtEnd → Extends a a')
    (fun a h => ⟨h, Nat.le_refl _, fun _ => .refl _⟩) (fun a1 a2 a3 h1 h2 h => ?_)
    (fun a c a' hstep hend => step_extends hend hstep) h hend
  exact (h1 h).trans (h2 (h1 h).atEnd)

theorem new_extends (hrun : run step calls new = some a) (hsize : a.size < 2 ^ 31) :
    a.AtEnd ∧ Grows Code.empty a.view := by
  have h := run_extends hrun rfl
  exact ⟨h.atEnd, h.grows (by omega)⟩

theorem Occurs.grows {a1 a2 : AssemblerArm64} (h : Occurs step new calls a c a1 a2)
    (hsize : a.size < 2 ^ 31) :
    a1.AtEnd ∧ Grows Code.empty a1.view ∧ a1.step c = some a2 ∧
      Grows a1.view a2.view ∧ Grows a2.view a.view := by
  obtain ⟨pre, post, -, hpre, hstep, hpost⟩ := h
  have h1 := run_extends hpre rfl
  have h2 := step_extends h1.atEnd hstep
  have h3 := run_extends hpost h2.atEnd
  have hle1 := h2.size_le
  have hle2 := h3.size_le
  exact ⟨h1.atEnd, h1.grows (by omega), hstep, h2.grows (by omega), h3.grows (by omega)⟩

/-! ### Resolving -/

theorem resolveJump_eq (b : AssemblerBuffer) (j : ForwardJump) (h : j.offset + 4 ≤ b.code.length) :
    (resolveJump b j).map AssemblerBuffer.view =
      (j.encode b.labels).map fun bytes => (patch b.code j.offset bytes, b.labels) := by
  rw [resolveJump, encode]
  cases hv : b.labels[j.label]? with
  | none =>
    rw [AssemblerBuffer.offset, hv]
    rfl
  | some v =>
    rw [AssemblerBuffer.offset, hv]
    cases v with
    | none => rfl
    | some t =>
      dsimp only [bind_eq_bind, bind_some]
      rw [JumpKind.instAt]
      split
      · cases hw : j.kind.inst ((ofNat t - ofNat j.offset) / 4) with
        | none => rfl
        | some w =>
          exact AssemblerBuffer.write_within (le32 w) (Nat.succ_pos 3) h
      · rfl

section

variable (hg : Grows Code.empty a.view)
include hg

omit hg in
theorem alignTo_inv {alignment : ℕ} (hend : a.AtEnd) (h : a.alignTo alignment = some a') :
    ∃ pad, a'.buffer.code = a.buffer.code ++ pad := by
  rw [alignTo, Assembler.alignTo] at h
  split at h
  · cases h
  · obtain ⟨⟨-, pad, hpad⟩, -⟩ := whileLoop_partial
      (I := fun a' : AssemblerArm64 => a'.AtEnd ∧ ∃ pad, a'.buffer.code = a.buffer.code ++ pad)
      (fun s s' ⟨hs, pad, hpad⟩ _ hbody => by
        obtain rfl := some.inj ((write_eq hs (le32 brk)).symm.trans hbody)
        exact ⟨rfl, pad ++ le32 brk, by rw [Assembler.append, hpad, append_assoc]⟩)
      h ⟨hend, [], (append_nil _).symm⟩
    exact ⟨pad, hpad⟩

/-- `finalize` returns the resolved code, filled up behind its end. -/
theorem finalize_inv (hend : a.AtEnd) {alignment : Option ℕ} {code : List UInt8}
    (h : a.finalize alignment = some code) :
    a.view.Resolvable ∧ ∃ pad, code = a.view.resolved ++ pad := by
  rw [finalize, Assembler.finalize, resolveJumps_eq resolveJump_eq hg] at h
  by_cases hres : a.view.Resolvable
  · refine ⟨hres, ?_⟩
    rw [if_pos hres] at h
    cases alignment with
    | none => exact ⟨[], (some.inj h).symm.trans (append_nil _).symm⟩
    | some n =>
      obtain ⟨a', ha', rfl⟩ := map_eq_some_iff.mp h
      exact alignTo_inv (a := ⟨[], ⟨a.view.resolved, a.position, a.buffer.labels⟩⟩)
        (hend.trans (Grows.length_resolved hres hg).symm) ha'
  · rw [if_neg hres] at h
    cases h

theorem finalize_none_iff : (∃ code, a.finalize none = some code) ↔ a.view.Resolvable := by
  rw [finalize, finalize_none_eq resolveJump_eq hg]
  split_ifs with hres
  · exact iff_of_true ⟨_, rfl⟩ hres
  · exact iff_of_false (fun ⟨_, h⟩ => nomatch h) hres

end

/-! ### Runs -/

theorem step_new_jump {f : ForwardJump} (hend : a.AtEnd) (hstep : a.step c = some a')
    (hf : f ∉ a.unresolvedJumps) (hf' : f ∈ a'.unresolvedJumps) :
    ∃ j, c.branch = some j ∧ a' = a.forward j ∧ f = ⟨a.size % 2 ^ 32, j.target, j.kind⟩ := by
  cases step_effect hend hstep with
  | @forward _ j hc =>
    rcases mem_append.mp hf' with hf' | hf'
    · exact absurd hf' hf
    · exact ⟨j, hc, rfl, mem_singleton.mp hf'⟩
  | _ => exact absurd hf' hf

/-- A label is bound by the calls that bind it, to the end of the code. -/
theorem step_new_target {l t : ℕ} (hend : a.AtEnd) (hstep : a.step c = some a')
    (ht : a.view.target l ≠ some t) (ht' : a'.view.target l = some t) :
    a.size = t ∧ (c = .bindLabel l ∨ c = .createAndBindLabel ∧ l = a.buffer.labels.length) := by
  cases step_effect hend hstep with
  | append bs | backward | forward => exact absurd ht' ht
  | create => cases (Code.eq_of_target_create ht ht').2
  | createBound =>
    obtain ⟨hl, hv⟩ := Code.eq_of_target_create ht ht'
    exact ⟨some.inj hv, .inr ⟨rfl, hl⟩⟩
  | bind hk =>
    obtain ⟨rfl, hlen⟩ := Code.eq_of_target_set (List.getElem?_eq_some_iff.mp hk).1 ht ht'
    exact ⟨hlen, .inl rfl⟩

end AssemblerArm64

/-! ### The final code -/

open AssemblerArm64

/-- **The branches are resolved** in the final code of a sequence of calls, which ends in the
assembler `a` before the jumps are resolved. -/
structure BranchesResolved (calls : List Call) (a : AssemblerArm64) (code : List UInt8) : Prop where
  /-- Every branch is the one that was asked for and leads to the position of its label. -/
  branch : ∀ c a1 a2 j, Occurs step .new calls a c a1 a2 → c.branch = some j →
    ∃ t offset, a.view.target j.target = some t ∧
      decodeBranch (leNat (slice code a1.size 4)) = some ⟨j.kind.branchKind, offset⟩ ∧
      (a1.size : ℤ) + 4 * offset = t
  /-- The position of a label is where it was bound. -/
  bound : ∀ l t, a.view.target l = some t → ∃ c a1 a2, Occurs step .new calls a c a1 a2 ∧
    a1.size = t ∧ (c = .bindLabel l ∨ c = .createAndBindLabel ∧ l = a1.buffer.labels.length)
  /-- Only the words of branches are changed. -/
  unchanged : ∀ i < a.size, code[i]? ≠ a.buffer.code[i]? →
    ∃ c a1 a2 j, Occurs step .new calls a c a1 a2 ∧ c.branch = some j ∧ a1.size ≤ i ∧
      i < a1.size + 4

section Final

variable {calls : List Call} {a a1 a2 : AssemblerArm64} {c : Call} {j : BranchCall}
    (hrun : run step calls .new = some a) (hsize : a.size < 2 ^ 31)

theorem encode_of_target {f : ForwardJump} {t : ℕ} (h : a.view.target f.label = some t) :
    f.encode a.buffer.labels = (f.kind.instAt f.offset t).map le32 := by
  rw [encode, getElem?_of_target h]

theorem exists_target_of_encode {f : ForwardJump} (h : (f.encode a.buffer.labels).isSome) :
    ∃ t, a.view.target f.label = some t := by
  rw [encode] at h
  split at h
  next t ht => exact ⟨t, congrArg join ht⟩
  next => cases h

theorem forward_mem (hg : Grows (a1.forward j).view a.view)
    (hsize : a.size < 2 ^ 32) : ⟨a1.size, j.target, j.kind⟩ ∈ a.unresolvedJumps := by
  have hle : (a1.forward j).size ≤ a.size := hg.length_le
  rw [size_forward] at hle
  have hmod : a1.size % 2 ^ 32 = a1.size := Nat.mod_eq_of_lt (by omega)
  have hmem := hg.mem_jumps (mem_append_right a1.unresolvedJumps (mem_singleton_self _))
  rw [hmod] at hmem
  exact hmem

theorem slice_forward (hg1 : Grows Code.empty a1.view) (hg3 : Grows (a1.forward j).view a.view)
    (hg : Grows Code.empty a.view) (hsize : a.size < 2 ^ 32)
    (hres : a.view.Resolvable) {w : UInt32}
    (hw : encode a.buffer.labels ⟨a1.size, j.target, j.kind⟩ = some (le32 w)) :
    slice a.view.resolved a1.size 4 = le32 w := by
  have hle : (a1.forward j).size ≤ a.size := hg3.length_le
  rw [size_forward] at hle
  have hmod : a1.size % 2 ^ 32 = a1.size := Nat.mod_eq_of_lt (by omega)
  rw [← hmod] at hw
  change slice a.view.resolved a1.size ([] ++ le32 0).length = [] ++ le32 w
  refine Grows.slice_resolved_jump hres hg hg1 hg3 rfl rfl ?_ hw
  rw [Code.field, hmod]
  rfl

include hrun hsize

/-- **The word of a branch** in the resolved code is the one for the position of its label. -/
theorem exists_instAt (hres : a.view.Resolvable) (hocc : Occurs step .new calls a c a1 a2)
    (hc : c.branch = some j) :
    ∃ t w, a.view.target j.target = some t ∧ t ≤ a.size ∧ a1.size + 4 ≤ a.size ∧
      j.kind.instAt a1.size t = some w ∧ slice a.view.resolved a1.size 4 = le32 w := by
  obtain ⟨-, hg⟩ := new_extends hrun hsize
  obtain ⟨hend, hg1, hstep, hg2, hg3⟩ := Occurs.grows hocc hsize
  have hle : a2.size ≤ a.size := hg3.length_le
  cases step_effect hend hstep with
  | append bs hnone => cases hnone.symm.trans hc
  | @backward _ j' t w hc' ht hw =>
    obtain rfl := some.inj (hc.symm.trans hc')
    have htle : t ≤ a1.size := hg1.target_le ht
    rw [size_append] at hle
    exact ⟨t, w, (hg2.trans hg3).target _ _ ht, by omega, hle, hw,
      Grows.slice_resolved hres hg hg1 hg3 rfl rfl⟩
  | @forward _ j' hc' =>
    obtain rfl := some.inj (hc.symm.trans hc')
    rw [size_forward] at hle
    have hmem := forward_mem hg3 (by omega)
    obtain ⟨t, ht⟩ := exists_target_of_encode (hres _ hmem)
    obtain ⟨bytes, hbytes⟩ := isSome_iff_exists.mp (hres _ hmem)
    obtain ⟨w, hw, rfl⟩ := map_eq_some_iff.mp ((encode_of_target ht).symm.trans hbytes)
    exact ⟨t, w, ht, hg.target_le ht, hle, hw, slice_forward hg1 hg3 hg (by omega) hres hbytes⟩
  | create | createBound | bind => cases hc

/-- **When the jumps can be resolved**: every label that is used is bound within reach, and only
general registers are compared. -/
theorem resolvable_iff :
    a.view.Resolvable ↔ ∀ c a1 a2 j, Occurs step .new calls a c a1 a2 → c.branch = some j →
      j.kind.Accepts ∧ ∃ t, a.view.target j.target = some t ∧
        j.kind.Reaches ((t : ℤ) - a1.size) := by
  obtain ⟨-, hg⟩ := new_extends hrun hsize
  constructor
  · intro hres c a1 a2 j hocc hc
    obtain ⟨t, w, ht, htle, hle, hw, -⟩ := exists_instAt hrun hsize hres hocc hc
    obtain ⟨haccepts, hreach⟩ := (JumpKind.isSome_instAt_iff (by omega) (by omega)).mp
      (isSome_iff_exists.mpr ⟨w, hw⟩)
    exact ⟨haccepts, t, ht, hreach⟩
  · intro h f hf
    obtain ⟨c, a1, a2, hocc, hf1, hf2⟩ := exists_occurs
      (Q := fun a : AssemblerArm64 => f ∈ a.unresolvedJumps) hrun not_mem_nil hf
    obtain ⟨hend, -, hstep, hg2, hg3⟩ := Occurs.grows hocc hsize
    have hle : a1.size ≤ a.size := (hg2.trans hg3).length_le
    have hpos : a1.size < 2 ^ 31 := Nat.lt_of_le_of_lt hle hsize
    obtain ⟨j, hc, -, hfeq⟩ := step_new_jump hend hstep hf1 hf2
    rw [Nat.mod_eq_of_lt (by omega)] at hfeq
    obtain ⟨haccepts, t, ht, hreach⟩ := h c a1 a2 j hocc hc
    have htle : t ≤ a.size := hg.target_le ht
    subst hfeq
    refine (congrArg isSome (encode_of_target (a := a) ht)).trans ?_
    rw [isSome_map]
    exact (JumpKind.isSome_instAt_iff hpos (by omega)).mpr ⟨haccepts, hreach⟩

/-- The code with all branches filled in, and padding. -/
theorem branchesResolved (hres : a.view.Resolvable) (pad : List UInt8) :
    BranchesResolved calls a (a.view.resolved ++ pad) := by
  obtain ⟨-, hg⟩ := new_extends hrun hsize
  have hlen : a.view.resolved.length = a.size := Grows.length_resolved hres hg
  refine ⟨fun c a1 a2 j hocc hc => ?_, fun l t ht => ?_, fun i hi hne => ?_⟩
  · obtain ⟨t, w, ht, htle, hle, hw, hslice⟩ := exists_instAt hrun hsize hres hocc hc
    obtain ⟨offset, hdecode, hoffset⟩ := JumpKind.decode_instAt (by omega) (by omega) hw
    refine ⟨t, offset, ht, ?_, hoffset⟩
    rw [slice_append_left (by omega), hslice, leNat_le32, hdecode]
  · obtain ⟨c, a1, a2, hocc, ht1, ht2⟩ := exists_occurs
      (Q := fun a : AssemblerArm64 => a.view.target l = some t) hrun not_target_new ht
    obtain ⟨hend, -, hstep, -⟩ := Occurs.grows hocc hsize
    obtain ⟨hsize1, hc⟩ := step_new_target hend hstep ht1 ht2
    exact ⟨c, a1, a2, hocc, hsize1, hc⟩
  · -- a byte that has changed lies in the word of a fixup
    rw [getElem?_append_left (by omega)] at hne
    obtain ⟨f, hf, hlo, hhi⟩ := Grows.exists_field hres hg hne
    change f.offset ≤ i at hlo
    change i < f.offset + 4 at hhi
    obtain ⟨c, a1, a2, hocc, hf1, hf2⟩ := exists_occurs
      (Q := fun a : AssemblerArm64 => f ∈ a.unresolvedJumps) hrun not_mem_nil hf
    obtain ⟨hend, -, hstep, hg2, hg3⟩ := Occurs.grows hocc hsize
    have hle : a1.size ≤ a.size := (hg2.trans hg3).length_le
    obtain ⟨j, hc, -, rfl⟩ := step_new_jump hend hstep hf1 hf2
    rw [Nat.mod_eq_of_lt (by omega)] at hlo hhi
    exact ⟨c, a1, a2, j, hocc, hc, hlo, hhi⟩

end Final

/-- **A branch to a label that is bound** succeeds exactly if it is accepted and reaches the
label. -/
theorem step_branch_iff {c : Call} {j : BranchCall} {t : ℕ} (hend : a.AtEnd)
    (hg : Grows Code.empty a.view) (hsize : a.size < 2 ^ 31) (hc : c.branch = some j)
    (ht : a.view.target j.target = some t) :
    (∃ a', a.step c = some a') ↔ j.kind.Accepts ∧ j.kind.Reaches ((t : ℤ) - a.size) := by
  have htle : t ≤ a.size := hg.target_le ht
  have hpos : a.position = a.size := hend
  have hstep : a.step c = a.branch j.kind j.target := by
    cases c with
    | bL | bcL | cbz | cbzW | cbnz | cbnzW =>
      cases hc
      rfl
    | _ => cases hc
  have hbranch : a.branch j.kind j.target = (j.kind.instAt a.size t).bind fun w => a.emitU32 w := by
    rw [branch, AssemblerBuffer.offset, getElem?_of_target ht]
    dsimp only [bind_eq_bind, bind_some]
    rw [hpos, Int32.neg_sub, JumpKind.instAt]
    split <;> rfl
  rw [hstep, hbranch, ← JumpKind.isSome_instAt_iff hsize (by omega)]
  cases hw : j.kind.instAt a.size t with
  | none => exact iff_of_false (fun ⟨_, h⟩ => nomatch h) (fun h => nomatch h)
  | some w => exact iff_of_true ⟨_, write_eq hend (le32 w)⟩ rfl

/-- **Labels**: after any sequence of calls, with code of less than 2^31 bytes, `finalize` returns
exactly if all labels that are used are bound within reach of the branches and only general
registers are compared; otherwise an assertion fails. In the code that it returns every branch has
the opcode, the condition and the register that were asked for and leads to the position at which
its label was bound, and no other word has changed. A branch back that does not reach its label
fails when it is emitted. -/
theorem arm64_labels_resolved {calls : List Call} {a : AssemblerArm64}
    (hrun : run step calls .new = some a) (hsize : a.size < 2 ^ 31) :
    ((∃ code, a.finalize none = some code) ↔
      ∀ c a1 a2 j, Occurs step .new calls a c a1 a2 → c.branch = some j →
        j.kind.Accepts ∧ ∃ t, a.view.target j.target = some t ∧
          j.kind.Reaches ((t : ℤ) - a1.size)) ∧
    (∀ alignment code, a.finalize alignment = some code → BranchesResolved calls a code) ∧
    ∀ c j t, c.branch = some j → a.view.target j.target = some t →
      ((∃ a', a.step c = some a') ↔ j.kind.Accepts ∧ j.kind.Reaches ((t : ℤ) - a.size)) := by
  obtain ⟨hend, hg⟩ := new_extends hrun hsize
  refine ⟨?_, fun alignment code hcode => ?_, fun c j t hc ht =>
    step_branch_iff hend hg hsize hc ht⟩
  · rw [finalize_none_iff hg, resolvable_iff hrun hsize]
  · obtain ⟨hres, pad, rfl⟩ := finalize_inv hg hend hcode
    exact branchesResolved hrun hsize hres pad

/-- Branches forward and back around a word. -/
def branchCalls : List Call :=
  [.createLabel, .cbz R0 0, .createAndBindLabel, .emitU32 0xD503201F, .bcL .NE 1, .bindLabel 0,
    .bL 1]

theorem arm64_labels_resolved_branches :
    ∃ a code, run step branchCalls .new = some a ∧ a.finalize (some 16) = some code ∧
      BranchesResolved branchCalls a code := by
  have hrun : (run step branchCalls .new).map (fun a =>
      decide (a.size < 2 ^ 31 ∧ (a.finalize (some 16)).isSome)) = some true := by
    decide +kernel
  obtain ⟨a, ha, hend⟩ := map_eq_some_iff.mp hrun
  obtain ⟨hsize, hcode⟩ := of_decide_eq_true hend
  obtain ⟨code, hcode⟩ := isSome_iff_exists.mp hcode
  exact ⟨a, code, ha, hcode, (arm64_labels_resolved ha hsize).2.1 (some 16) code hcode⟩

/-! ### Code that is too large -/

theorem run_replicate (hend : a.AtEnd) (w : UInt32) (n : ℕ) :
    ∃ bs, bs.length = 4 * n ∧ run step (List.replicate n (.emitU32 w)) a = some (a.append bs) := by
  induction n generalizing a with
  | zero =>
    refine ⟨[], rfl, ?_⟩
    rw [Assembler.append, append_nil, ← Assembler.size, ← hend]
    rfl
  | succ n ih =>
    obtain ⟨bs, hlen, hrun⟩ := ih (a := a.append (le32 w)) rfl
    refine ⟨le32 w ++ bs, ?_, ?_⟩
    · rw [length_append, hlen, Nat.mul_succ, Nat.add_comm]
      rfl
    · rw [replicate_succ, run_cons]
      refine ⟨_, write_eq hend (le32 w), hrun.trans ?_⟩
      simp only [Assembler.append, append_assoc]

/-- A branch over almost 4 GiB of code. -/
def farCalls : List Call :=
  [.createLabel, .bL 0] ++ (List.replicate (2 ^ 30 - 2) (.emitU32 0xD503201F) ++ [.bindLabel 0])

/-- The distance is taken for -4, which is in range: no assertion fails, and the branch leads to the
word before it. -/
theorem not_resolved_far :
    ∃ a code, run step farCalls .new = some a ∧ a.finalize none = some code ∧
      a.view.target 0 = some (2 ^ 32 - 4) ∧
      decodeBranch (leNat (slice code 0 4)) = some ⟨.b, -1⟩ := by
  -- the states before and after the branch, before the label is bound, and at the end
  obtain ⟨a1, ha1⟩ : ∃ a1 : AssemblerArm64, a1 = new.withLabels [none] := ⟨_, rfl⟩
  obtain ⟨a2, ha2⟩ : ∃ a2, a2 = a1.forward ⟨.unconditional, 0⟩ := ⟨_, rfl⟩
  have hrun1 : run step [.createLabel] new = some a1 := by rw [ha1]; rfl
  have hrun2 : run step [.createLabel, .bL 0] new = some a2 := by rw [ha2, ha1]; rfl
  obtain ⟨bs, hlen, hrun3⟩ := run_replicate (a := a2) (by rw [ha2]; rfl) 0xD503201F (2 ^ 30 - 2)
  have hsize2 : a2.size = 4 := by rw [ha2, ha1]; rfl
  have hsize3 : (a2.append bs).size = 2 ^ 32 - 4 := by
    rw [size_append]
    omega
  obtain ⟨a, ha⟩ : ∃ a : AssemblerArm64,
    a = (a2.append bs).withLabels [some (2 ^ 32 - 4)] := ⟨_, rfl⟩
  have hstep : run step [.bindLabel 0] (a2.append bs) = some a := by
    have hl : (a2.append bs).buffer.labels = [none] := by rw [ha2, ha1]; rfl
    have hpos : (a2.append bs).buffer.position = 2 ^ 32 - 4 := hsize3
    refine run_cons.mpr ⟨a, ?_, rfl⟩
    rw [step, AssemblerBuffer.bindLabel, hl, hpos, ha, withLabels, hsize3]
    rfl
  have hrest : run step (List.replicate (2 ^ 30 - 2) (.emitU32 0xD503201F) ++ [.bindLabel 0]) a2 =
      some a := run_append.mpr ⟨_, hrun3, hstep⟩
  have hrun : run step farCalls new = some a := run_append.mpr ⟨_, hrun2, hrest⟩
  have hsize : a.size < 2 ^ 32 := by
    have : a.size = (a2.append bs).size := by rw [ha]; rfl
    omega
  have hg1 := (run_extends hrun1 rfl).grows (by rw [ha1]; decide)
  have hg := (run_extends hrun rfl).grows hsize
  have hg3 := (run_extends hrest (by rw [ha2]; rfl)).grows hsize
  have hlabels : a.buffer.labels = [some (2 ^ 32 - 4)] := by rw [ha]; rfl
  have hjumps : a.unresolvedJumps = [⟨0, 0, .unconditional⟩] := by rw [ha, ha2, ha1]; rfl
  have hword : encode [some (2 ^ 32 - 4)] ⟨0, 0, .unconditional⟩ =
      some (le32 0x17FFFFFF) := by decide +kernel
  have hres : a.view.Resolvable := by
    intro j hj
    rw [view, hjumps, mem_singleton] at hj
    rw [hj, view, hlabels]
    exact congrArg isSome hword
  refine ⟨a, a.view.resolved, hrun, ?_, ?_, ?_⟩
  · rw [finalize, finalize_none_eq resolveJump_eq hg, if_pos hres]
  · rw [Code.target, view, hlabels]
    rfl
  · rw [ha2] at hg3
    have hslice := slice_forward hg1 hg3 hg hsize hres (by
      rw [hlabels, ha1]
      exact hword)
    rw [ha1] at hslice
    have hdecode : decodeBranch (leNat (le32 0x17FFFFFF)) = some ⟨.b, -1⟩ := by decide +kernel
    exact (congrArg (fun bytes => decodeBranch (leNat bytes)) hslice).trans hdecode

end Dora.Asm.Arm64
