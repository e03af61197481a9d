import Dora.Masm.Arm64

/-!
# The sequences of arm64 compute the operations

Addition, subtraction and multiplication give the answer of the operation for all operands; the
divisions do where the forms of the instructions that they use do not matter.

## Main definitions

* `Operands`: the registers of a sequence
* `code`, `outcome`: the sequence of an operation, and how it ends from an arbitrary state
* `FormsAgree`: the operands on which the forms do not matter

## Main results

* `outcome_of_low_eq_zero`: a divisor of `Int64` whose low half is zero is taken for zero
* `outcome_eq_answer`: the sequences give the answers of their operations
-/

namespace Dora.Masm.Arm64

open Asm.Arm64 (Register JumpKind REG_ZERO)
open BitVec State

attribute [local simp] Insn.sf execAt intMulChecked

/-- **Registers for a sequence**: the scratch registers are not in use, and a product overwrites at
most one of its operands. -/
structure Operands (op : Operation) where
  dest : Register
  lhs : Register
  rhs : Register
  scratch : Register
  scratch' : Register
  dest_ne : dest ≠ REG_ZERO
  scratch_ne : scratch ≠ REG_ZERO ∧ scratch' ≠ REG_ZERO
  scratch_free : ∀ r ∈ [dest, lhs, rhs], r ≠ scratch ∧ r ≠ scratch'
  rhs_ne : op = .mul → lhs = dest → rhs ≠ dest

variable {op : Operation}

/-- The sequence of an operation. -/
def code (mode : MachineMode) (r : Operands op) : Code :=
  match op with
  | .add => intAddChecked mode r.dest r.lhs r.rhs
  | .sub => intSubChecked mode r.dest r.lhs r.rhs
  | .mul => intMulChecked mode r.dest r.lhs r.rhs r.scratch
  | .div => intDiv mode r.dest r.lhs r.rhs r.scratch r.scratch'
  | .mod => intMod mode r.dest r.lhs r.rhs r.scratch r.scratch'

/-- **The outcome**: a trap, or the number in the destination. -/
def outcome (mode : MachineMode) (r : Operands op) (s : State) : Exit ℤ Trap :=
  (run (code mode r) s).map fun s => (s.read mode.bits r.dest).toInt

/-- The answer for what the operands hold. -/
abbrev Operands.answer (mode : MachineMode) (r : Operands op) (s : State) : Exit ℤ Trap :=
  op.answer mode.bits (s.read mode.bits r.lhs).toInt (s.read mode.bits r.rhs).toInt

namespace State

variable (s : State) {w : ℕ}

@[simp]
theorem read_setFlags (f : Flags) (w : ℕ) (r : Register) :
    (s.setFlags f).read w r = s.read w r := rfl

@[simp]
theorem flags_setFlags (f : Flags) : (s.setFlags f).flags = f := rfl

@[simp]
theorem read_write {r : Register} (h : r ≠ REG_ZERO) (x : BitVec w) (v : ℕ) :
    (s.write w r x).read v r = (x.setWidth 64).setWidth v := by
  simp [read, write, h, Registers.read_write]

@[simp]
theorem read_write_of_ne {r r' : Register} (h : r' ≠ r) (x : BitVec w) (v : ℕ) :
    (s.write w r x).read v r' = s.read v r' := by
  unfold write
  split
  · rfl
  · simp [read, Registers.read_write_of_ne _ h]

@[simp]
theorem read_zero (v : ℕ) : s.read v REG_ZERO = 0 := if_pos rfl

@[simp]
theorem write_zero (x : BitVec w) : s.write w REG_ZERO x = s := if_pos rfl

end State

/-! ### Addition and subtraction -/

section Addsub

variable {w : ℕ} (hw : 0 < w) (x y : BitVec w) {rd : Register} (s : State)

include hw

theorem addWithCarry_add : addWithCarry x y false = (x + y, ⟨(x + y).msb, x + y = 0,
    (x + y).toNat ≠ x.toNat + y.toNat, ¬ Fits w (x.toInt + y.toInt)⟩) := by
  have hv : (x + y).toInt ≠ x.toInt + y.toInt ↔ ¬ Fits w (x.toInt + y.toInt) :=
    not_congr (toInt_add_eq_iff hw x y)
  simp [addWithCarry, ← hv]

theorem addWithCarry_sub : addWithCarry x (~~~y) true = (x - y, ⟨(x - y).msb, x = y,
    (x - y).toNat ≠ x.toNat + (~~~y).toNat + 1, ¬ Fits w (x.toInt - y.toInt)⟩) := by
  have hv : (x - y).toInt ≠ x.toInt - y.toInt ↔ ¬ Fits w (x.toInt - y.toInt) :=
    not_congr (BitVec.toInt_sub_eq_iff hw x y)
  have hexact : x.toInt + (~~~y).toInt + 1 = x.toInt - y.toInt := by
    rw [BitVec.toInt_not_eq hw]
    omega
  have hz : x - y = 0#w ↔ x = y := by
    rw [BitVec.sub_eq_iff_eq_add, BitVec.zero_add]
  simp only [addWithCarry, BitVec.add_not_add_one, Bool.toNat_true, Nat.cast_one, hexact, ← hv]
  simp [hz]

theorem addsub_add : addsub 0 1 x y rd s = (s.write w rd (x + y)).setFlags ⟨(x + y).msb, x + y = 0,
    (x + y).toNat ≠ x.toNat + y.toNat, ¬ Fits w (x.toInt + y.toInt)⟩ := by
  rw [addsub, if_neg (by decide), addWithCarry_add hw]
  rfl

theorem addsub_sub : addsub 1 1 x y rd s = (s.write w rd (x - y)).setFlags ⟨(x - y).msb, x = y,
    (x - y).toNat ≠ x.toNat + (~~~y).toNat + 1, ¬ Fits w (x.toInt - y.toInt)⟩ := by
  rw [addsub, if_pos rfl, addWithCarry_sub hw]
  rfl

end Addsub

variable (r : Operands op) (s : State) (mode : MachineMode)

theorem run_checked {ops : List Insn} {cond : Asm.Arm64.Cond} {s s' : State}
    (h : ops.foldlM (fun s i => i.exec s) s = some s') :
    run (ops.map .op ++ [bcL cond .overflow, .bailout .overflow .OVERFLOW]) s =
      if s'.flags.holds cond then .trap .OVERFLOW else .done s' := by
  have hnil : ([] : List Insn).foldlM (fun s i => i.exec s) s' = some s' := rfl
  exact Listing.run_ops_branch h rfl hnil

@[simp]
theorem shiftReg_zero {w : ℕ} (x : BitVec w) : shiftReg x 0 .LSL = x := by
  simp [shiftReg]

theorem outcome_add (r : Operands .add) : outcome mode r s = r.answer mode s := by
  have hcode : intAddChecked mode r.dest r.lhs r.rhs =
      [if mode = .int64 then adds r.dest r.lhs r.rhs else addsW r.dest r.lhs r.rhs].map .op ++
        [bcL .VS .overflow, .bailout .overflow .OVERFLOW] := by
    cases mode <;> rfl
  have hexec :
      (if mode = .int64 then adds r.dest r.lhs r.rhs else addsW r.dest r.lhs r.rhs).exec s =
      some (addsub 0 1 (s.read mode.bits r.lhs) (s.read mode.bits r.rhs) r.dest s) := by
    cases mode <;> simp [adds, addsW, Insn.exec, MachineMode.bits]
  rw [outcome, code, hcode, run_checked (by simpa using hexec), addsub_add mode.bits_pos]
  refine map_checked rfl rfl fun hfits => ?_
  rw [read_setFlags, read_write s r.dest_ne, mode.setWidth_64]
  exact (toInt_add_eq_iff mode.bits_pos _ _).mpr hfits

theorem outcome_sub (r : Operands .sub) : outcome mode r s = r.answer mode s := by
  have hcode : intSubChecked mode r.dest r.lhs r.rhs =
      [if mode = .int64 then subs r.dest r.lhs r.rhs else subsW r.dest r.lhs r.rhs].map .op ++
        [bcL .VS .overflow, .bailout .overflow .OVERFLOW] := by
    cases mode <;> rfl
  have hexec :
      (if mode = .int64 then subs r.dest r.lhs r.rhs else subsW r.dest r.lhs r.rhs).exec s =
      some (addsub 1 1 (s.read mode.bits r.lhs) (s.read mode.bits r.rhs) r.dest s) := by
    cases mode <;> simp [subs, subsW, Insn.exec, MachineMode.bits]
  rw [outcome, code, hcode, run_checked (by simpa using hexec), addsub_sub mode.bits_pos]
  refine map_checked rfl rfl fun hfits => ?_
  rw [read_setFlags, read_write s r.dest_ne, mode.setWidth_64]
  exact (toInt_sub_eq_iff mode.bits_pos _ _).mpr hfits

/-! ### Multiplication -/

theorem extendReg_sxtw (x : BitVec 64) :
    extendReg x 64 0 .SXTW = (x.setWidth 32).signExtend 64 := by
  simp [extendReg]

theorem outcome_mul_int32 (r : Operands .mul) : outcome .int32 r s =
    Operation.answer .mul 32 (s.read 32 r.lhs).toInt (s.read 32 r.rhs).toInt := by
  set product := (s.read 32 r.lhs).signExtend 64 * (s.read 32 r.rhs).signExtend 64 with hproduct
  have hexact : product.toInt = (s.read 32 r.lhs).toInt * (s.read 32 r.rhs).toInt :=
    toInt_signExtend_mul (by omega) (by omega) _ _
  have hexec : [smull r.dest r.lhs r.rhs, cmpExt r.dest r.dest .SXTW 0].foldlM
      (fun s i => i.exec s) s =
        some (addsub 1 1 product ((product.setWidth 32).signExtend 64) REG_ZERO
          (s.write 64 r.dest product)) := by
    simp [smull, smaddl, cmpExt, subsExt, Insn.exec, extendReg_sxtw,
      read_write s r.dest_ne, ← hproduct]
  change (run (List.map .op [_, _] ++
    [bcL .NE .overflow, .bailout .overflow .OVERFLOW]) s).map _ = _
  rw [run_checked hexec, addsub_sub (by omega)]
  have hsame := eq_signExtend_setWidth_iff (w := 32) (by omega) (by omega) product
  rw [hexact] at hsame
  refine map_checked rfl ?_ fun hfits => ?_
  · simp only [flags_setFlags]
    rw [decide_eq_decide.mpr hsame]
    exact decide_not.symm
  · have hlow := (hsame.mpr hfits).symm
    rw [read_setFlags, write_zero, read_write s r.dest_ne]
    rw [← toInt_inj, toInt_signExtend_of_le (by omega), hexact] at hlow
    exact hlow

section Exec

variable (rd rn rm : Register)

theorem exec_mov : (mov rd rn).exec s = some (s.write 64 rd (s.read 64 rn)) := by
  simp [mov, Insn.exec]

theorem exec_mul : (mul rd rn rm).exec s = some (s.write 64 rd (s.read 64 rn * s.read 64 rm)) := by
  simp [mul, madd, Insn.exec]

@[simp]
theorem exec_smulh : (smulh rd rn rm).exec s = some (s.write 64 rd
    (BitVec.mulHigh (s.read 64 rn) (s.read 64 rm))) := rfl

@[simp]
theorem exec_cmpSh (amount : ℕ) : (cmpSh rn rm .ASR amount).exec s =
    some (addsub 1 1 (s.read 64 rn) ((s.read 64 rm).sshiftRight amount) REG_ZERO s) := rfl

theorem exec_cmp : (cmp rn rm).exec s =
    some (addsub 1 1 (s.read 64 rn) (s.read 64 rm) REG_ZERO s) := by
  simp [cmp, subs, Insn.exec]

theorem exec_cmpW : (cmpW rn rm).exec s =
    some (addsub 1 1 (s.read 32 rn) (s.read 32 rm) REG_ZERO s) := by
  simp [cmpW, subsW, Insn.exec]

theorem exec_msub (ra : Register) : (msub rd rn rm ra).exec s =
    some (s.write 64 rd (s.read 64 ra - s.read 64 rn * s.read 64 rm)) := rfl

theorem exec_msubW (ra : Register) : (msubW rd rn rm ra).exec s =
    some (s.write 32 rd (s.read 32 ra - s.read 32 rn * s.read 32 rm)) := rfl

end Exec

/-- The high half tells whether the product fits. -/
theorem outcome_mul_int64 (r : Operands .mul) : outcome .int64 r s =
    Operation.answer .mul 64 (s.read 64 r.lhs).toInt (s.read 64 r.rhs).toInt := by
  obtain ⟨⟨hfree, -⟩, ⟨hlhs, -⟩, hrhs, -⟩ := by simpa using r.scratch_free
  obtain ⟨hzero, -⟩ := r.scratch_ne
  set x := s.read 64 r.lhs with hx
  set y := s.read 64 r.rhs with hy
  obtain ⟨ops, s', hcode, hexec, hread⟩ : ∃ (ops : List Insn) (s' : State),
      intMulChecked .int64 r.dest r.lhs r.rhs r.scratch = ops.map .op ++
        [bcL .NE .overflow, .bailout .overflow .OVERFLOW] ∧
      ops.foldlM (fun s i => i.exec s) s =
        some (addsub 1 1 (BitVec.mulHigh x y) ((x * y).sshiftRight 63) REG_ZERO s') ∧
      s'.read 64 r.dest = x * y := by
    -- The operand that the product overwrites is kept in the scratch register.
    by_cases hl : r.lhs = r.dest
    · refine ⟨[mov r.scratch r.lhs, mul r.dest r.lhs r.rhs, smulh r.scratch r.scratch r.rhs,
        cmpSh r.scratch r.dest .ASR 63],
        ((s.write 64 r.scratch x).write 64 r.dest (x * y)).write 64 r.scratch (BitVec.mulHigh x y),
        by simp [hl], ?_, ?_⟩
      · simp [exec_mov, exec_mul,
          hzero, r.dest_ne, hfree, hlhs, hrhs, Ne.symm hfree, r.rhs_ne rfl hl, ← hx, ← hy]
      · simp [r.dest_ne, hfree]
    · by_cases hr : r.rhs = r.dest
      · refine ⟨[mov r.scratch r.rhs, mul r.dest r.lhs r.rhs, smulh r.scratch r.lhs r.scratch,
          cmpSh r.scratch r.dest .ASR 63],
          ((s.write 64 r.scratch y).write 64 r.dest (x * y)).write 64 r.scratch
            (BitVec.mulHigh x y),
          by simp [hl, hr], ?_, ?_⟩
        · simp [exec_mov, exec_mul,
            hzero, r.dest_ne, hfree, hlhs, hrhs, Ne.symm hfree, hl, ← hx, ← hy]
        · simp [r.dest_ne, hfree]
      · refine ⟨[mul r.dest r.lhs r.rhs, smulh r.scratch r.lhs r.rhs,
          cmpSh r.scratch r.dest .ASR 63],
          (s.write 64 r.dest (x * y)).write 64 r.scratch (BitVec.mulHigh x y),
          by simp [hl, hr], ?_, ?_⟩
        · simp [exec_mul, hzero, r.dest_ne, hfree, hl, hr, ← hx, ← hy]
        · simp [r.dest_ne, hfree]
  rw [outcome, code, hcode, run_checked hexec, addsub_sub (by omega)]
  have hsame := mulHigh_eq_iff (by omega) x y
  refine map_checked rfl ?_ fun hfits => ?_
  · simp only [flags_setFlags]
    rw [decide_eq_decide.mpr hsame]
    exact decide_not.symm
  · rw [read_setFlags, write_zero]
    change (s'.read 64 r.dest).toInt = _
    rw [hread]
    exact (toInt_mul_eq_iff (by omega) x y).mpr hfits

/-! ### Division -/

/-- **The operands on which the forms of the instructions do not matter.** `divmod_common` tests the
divisor of `Int32` with the 64-bit form of `cbz` and that of `Int64` with the 32-bit form, and it
computes the remainder of `Int64` with the 32-bit form of `msub`. -/
def FormsAgree (op : Operation) (mode : MachineMode) (lhs rhs : BitVec 64) : Prop :=
  op.divides → (rhs.setWidth 32 = 0 → rhs = 0) ∧ (op = .mod → mode = .int64 → rhs ≠ 0 →
      0 ≤ lhs.toInt.tmod rhs.toInt ∧ lhs.toInt.tmod rhs.toInt < 2 ^ 32)

/-- The dividend is compared with the least number. -/
def compareMin (lhs scratch : Register) : List Insn :=
  match mode with
  | .int32 => [movzW scratch 0x8000 1, cmpW lhs scratch]
  | .int64 => [movz scratch 0x8000 3, cmp lhs scratch]

/-- The divisor is compared with minus one. -/
def compareOne (rhs : Register) : Insn :=
  match mode with
  | .int32 => cmnImmW rhs 1 0
  | .int64 => cmnImm rhs 1 0

/-- The division itself. -/
def divide (isDiv : Bool) : List Insn :=
  match isDiv, mode with
  | true, .int32 => [sdivW r.dest r.lhs r.rhs]
  | true, .int64 => [sdiv r.dest r.lhs r.rhs]
  | false, .int32 => [sdivW r.scratch' r.lhs r.rhs, msub r.dest r.scratch' r.rhs r.lhs]
  | false, .int64 => [sdiv r.scratch' r.lhs r.rhs, msubW r.dest r.scratch' r.rhs r.lhs]

theorem divmodCommon_eq (isDiv : Bool) :
    divmodCommon mode r.dest r.lhs r.rhs r.scratch r.scratch' isDiv =
      division [] (.zero (mode = .int32) r.rhs) (compareMin mode r.lhs r.scratch)
        (.conditional .NE) [compareOne mode r.rhs] (.conditional .EQ) (divide r mode isDiv) [] := by
  cases mode <;> cases isDiv <;> rfl

theorem exec_compareMin {lhs scratch : Register} (hzero : scratch ≠ REG_ZERO)
    (hne : lhs ≠ scratch) :
    (compareMin mode lhs scratch).foldlM (fun s i => i.exec s) s =
      some (addsub 1 1 (s.read mode.bits lhs) (.intMin mode.bits) REG_ZERO
        (s.write mode.bits scratch (.intMin mode.bits))) := by
  cases mode with
  | int32 =>
    have hmov : (movzW scratch 0x8000 1).exec s = some (s.write 32 scratch (.intMin 32)) := by
      rfl
    simp [compareMin, hmov, exec_cmpW, hzero, hne, MachineMode.bits]
  | int64 =>
    have hmov : (movz scratch 0x8000 3).exec s = some (s.write 64 scratch (.intMin 64)) := by
      rfl
    simp [compareMin, hmov, exec_cmp, hzero, hne, MachineMode.bits]

theorem exec_compareOne (rhs : Register) : (compareOne mode rhs).exec s =
    some (addsub 0 1 (s.read mode.bits rhs) 1#(mode.bits) REG_ZERO s) := by
  have hone {w : ℕ} : 1#w <<< 0 = 1#w := shiftLeft_zero _
  cases mode with
  | int32 =>
    exact congrArg (fun y => some (addsub 0 1 (s.read 32 rhs) y REG_ZERO s)) hone
  | int64 =>
    exact congrArg (fun y => some (addsub 0 1 (s.read 64 rhs) y REG_ZERO s)) hone

theorem setWidth_read (q : Register) {v w : ℕ} (h : w ≤ v) :
    (s.read v q).setWidth w = s.read w q := by
  unfold State.read
  split
  · simp
  · exact setWidth_setWidth_of_le _ h

/-- A number that fits the low half is kept when the high half is cleared. -/
theorem toInt_setWidth_low {x : BitVec 64} (h1 : 0 ≤ x.toInt) (h2 : x.toInt < 2 ^ 32) :
    ((x.setWidth 32).setWidth 64).toInt = x.toInt := by
  have hlow : ((x.setWidth 32).setWidth 64).toNat = x.toNat := by
    rw [toInt_eq_toNat_cond] at h1 h2
    rw [toNat_setWidth, toNat_setWidth]
    split at h1 <;> omega
  rw [toNat_inj.mp hlow]

theorem exec_divide_true (t : State) : (divide r mode true).foldlM (fun s i => i.exec s) t =
    some (t.write mode.bits r.dest ((t.read mode.bits r.lhs).sdiv (t.read mode.bits r.rhs))) := by
  cases mode <;> rfl

theorem exec_divide_false (t : State) (h : mode = .int64 → t.read 64 r.rhs ≠ 0 →
      0 ≤ (t.read 64 r.lhs).toInt.tmod (t.read 64 r.rhs).toInt ∧
        (t.read 64 r.lhs).toInt.tmod (t.read 64 r.rhs).toInt < 2 ^ 32) :
    ∃ t', (divide r mode false).foldlM (fun s i => i.exec s) t = some t' ∧
      (t.read mode.bits r.rhs ≠ 0 → (t'.read mode.bits r.dest).toInt =
        (t.read mode.bits r.lhs).toInt.tmod (t.read mode.bits r.rhs).toInt) := by
  obtain ⟨⟨-, hdest⟩, ⟨-, hlhs⟩, -, hrhs⟩ := by simpa using r.scratch_free
  obtain ⟨-, hzero⟩ := r.scratch_ne
  cases mode with
  | int32 =>
    set q := (t.read 32 r.lhs).sdiv (t.read 32 r.rhs)
    refine ⟨(t.write 32 r.scratch' q).write 64 r.dest
      (t.read 64 r.lhs - q.setWidth 64 * t.read 64 r.rhs), ?_, fun _ => ?_⟩
    · have hdiv : (sdivW r.scratch' r.lhs r.rhs).exec t = some (t.write 32 r.scratch' q) := rfl
      simp [divide, hdiv, exec_msub, hzero, hlhs, hrhs]
    · change ((read _ 32 r.dest).toInt) = _
      rw [read_write _ r.dest_ne, setWidth_eq, setWidth_sub_mul (by omega),
        setWidth_read t _ (by omega), setWidth_read t _ (by omega),
        setWidth_setWidth_of_le _ (by omega), setWidth_eq]
      exact toInt_sub_sdiv_mul _ _
  | int64 =>
    set q := (t.read 64 r.lhs).sdiv (t.read 64 r.rhs)
    refine ⟨(t.write 64 r.scratch' q).write 32 r.dest
      (t.read 32 r.lhs - q.setWidth 32 * t.read 32 r.rhs), ?_, fun hne => ?_⟩
    · have hdiv : (sdiv r.scratch' r.lhs r.rhs).exec t = some (t.write 64 r.scratch' q) := rfl
      simp [divide, hdiv, exec_msubW, hzero, hlhs, hrhs]
    · obtain ⟨h1, h2⟩ := h rfl hne
      change ((read _ 64 r.dest).toInt) = (t.read 64 r.lhs).toInt.tmod (t.read 64 r.rhs).toInt
      rw [read_write _ r.dest_ne, setWidth_eq, ← setWidth_read t r.lhs (v := 64) (by omega),
        ← setWidth_read t r.rhs (v := 64) (by omega),
        ← setWidth_sub_mul (by omega)]
      rw [← toInt_sub_sdiv_mul] at h1 h2 ⊢
      exact toInt_setWidth_low h1 h2

theorem test_zero (rhs : Register) (hlow : (s.read 64 rhs).setWidth 32 = 0 → s.read 64 rhs = 0) :
    test s (.zero (mode = .int32) rhs) = decide (s.read mode.bits rhs = 0) := by
  have hzero : s.read 32 rhs = 0 ↔ s.read 64 rhs = 0 := by
    rw [← setWidth_read s rhs (v := 64) (by omega)]
    refine ⟨hlow, fun h => ?_⟩
    rw [h]
    rfl
  cases mode with
  | int32 => exact decide_eq_decide.mpr hzero.symm
  | int64 => exact decide_eq_decide.mpr hzero

theorem outcome_divmod {isDiv : Bool} (hop : op.divides = true)
    (hcode : code mode r = divmodCommon mode r.dest r.lhs r.rhs r.scratch r.scratch' isDiv)
    (hlow : (s.read 64 r.rhs).setWidth 32 = 0 → s.read 64 r.rhs = 0)
    (hdivide : ∀ t : State, (∀ v, t.read v r.lhs = s.read v r.lhs) →
      (∀ v, t.read v r.rhs = s.read v r.rhs) → ∃ t',
        (divide r mode isDiv).foldlM (fun s i => i.exec s) t = some t' ∧
        (s.read mode.bits r.rhs ≠ 0 →
          ¬ (s.read mode.bits r.lhs = .intMin mode.bits ∧ s.read mode.bits r.rhs = -1#(mode.bits)) →
          (t'.read mode.bits r.dest).toInt =
            op.exact (s.read mode.bits r.lhs).toInt (s.read mode.bits r.rhs).toInt)) :
    outcome mode r s = r.answer mode s := by
  obtain ⟨-, ⟨hlhs, -⟩, hrhs, -⟩ := by simpa using r.scratch_free
  set s2 := addsub 1 1 (s.read mode.bits r.lhs) (.intMin mode.bits) REG_ZERO
    (s.write mode.bits r.scratch (.intMin mode.bits)) with hs2
  set s3 := addsub 0 1 (s2.read mode.bits r.rhs) 1#(mode.bits) REG_ZERO s2 with hs3
  rw [addsub_sub mode.bits_pos, write_zero] at hs2
  rw [addsub_add mode.bits_pos, write_zero] at hs3
  have hread2 : ∀ q, q ≠ r.scratch → ∀ v, s2.read v q = s.read v q := by
    intro q hq v
    rw [hs2, read_setFlags, read_write_of_ne _ hq]
  have hread3 : ∀ q, q ≠ r.scratch → ∀ v, s3.read v q = s.read v q := by
    intro q hq v
    rw [hs3, read_setFlags, hread2 q hq]
  obtain ⟨t', ht', hf⟩ := hdivide
    (if decide (s.read mode.bits r.lhs ≠ .intMin mode.bits) then s2 else s3)
    (fun v => by split <;> simp [hread2, hread3, hlhs])
    (fun v => by split <;> simp [hread2, hread3, hrhs])
  have hzero : some (test s (.zero (mode = .int32) r.rhs)) =
      some (decide (s.read mode.bits r.rhs = 0)) := congrArg some (test_zero s mode r.rhs hlow)
  have hne : some (test s2 (.conditional .NE)) =
      some (decide (s.read mode.bits r.lhs ≠ .intMin mode.bits)) := by
    rw [hs2]
    exact congrArg some decide_not.symm
  have hone : [compareOne mode r.rhs].foldlM (fun s i => i.exec s) s2 = some s3 := by
    simp only [List.foldlM_cons, exec_compareOne]
    rfl
  have hover : some (test s3 (.conditional .EQ)) =
      some (decide (s.read mode.bits r.rhs = -1#(mode.bits))) := by
    rw [hs3, hread2 _ hrhs]
    exact congrArg some (decide_eq_decide.mpr (add_one_eq_zero_iff _))
  rw [outcome, hcode, divmodCommon_eq, run, run_division rfl hzero
    (exec_compareMin s mode r.scratch_ne.1 hlhs) hne hone hover [] (fun _ _ => ht')]
  exact map_division mode.bits_pos hop rfl rfl rfl hf

theorem outcome_div (r : Operands .div)
    (h : FormsAgree .div mode (s.read 64 r.lhs) (s.read 64 r.rhs)) :
    outcome mode r s = r.answer mode s := by
  refine outcome_divmod r s mode rfl rfl (h rfl).1 fun t hl hr => ?_
  refine ⟨_, exec_divide_true r mode t, fun _ hover => ?_⟩
  rw [read_write _ r.dest_ne, mode.setWidth_64, hl, hr]
  exact toInt_sdiv_of_ne_or_ne _ _ (not_and_or.mp hover)

theorem outcome_mod (r : Operands .mod)
    (h : FormsAgree .mod mode (s.read 64 r.lhs) (s.read 64 r.rhs)) :
    outcome mode r s = r.answer mode s := by
  refine outcome_divmod r s mode rfl rfl (h rfl).1 fun t hl hr => ?_
  obtain ⟨t', ht', hread⟩ := exec_divide_false r mode t (by
    rw [hl, hr]
    exact (h rfl).2 rfl)
  refine ⟨t', ht', fun hne _ => ?_⟩
  rw [hl, hr] at hread
  exact hread hne

/-- What follows from the form of the test: a divisor of `Int64` whose low half is zero is taken for
zero. -/
theorem outcome_of_low_eq_zero (hop : op.divides = true) (h : s.read 32 r.rhs = 0) :
    outcome .int64 r s = .trap .DIV0 := by
  obtain ⟨isDiv, hcode⟩ : ∃ isDiv,
      code .int64 r = divmodCommon .int64 r.dest r.lhs r.rhs r.scratch r.scratch' isDiv := by
    cases op with
    | div => exact ⟨true, rfl⟩
    | mod => exact ⟨false, rfl⟩
    | _ => simp [Operation.divides] at hop
  have hrun : run (divmodCommon .int64 r.dest r.lhs r.rhs r.scratch r.scratch' isDiv) s =
      .trap .DIV0 := by
    have htest : test s (.zero false r.rhs) = true := decide_eq_true h
    rw [divmodCommon_eq, run, Listing.run, division]
    refine (Listing.runFrom_branch (congrArg some htest)).trans ?_
    rfl
  rw [outcome, hcode, hrun]
  rfl

/-- **The sequences of arm64.** -/
theorem outcome_eq_answer (h : FormsAgree op mode (s.read 64 r.lhs) (s.read 64 r.rhs)) :
    outcome mode r s = r.answer mode s := by
  cases op with
  | add => exact outcome_add s mode r
  | sub => exact outcome_sub s mode r
  | mul =>
    cases mode with
    | int32 => exact outcome_mul_int32 s r
    | int64 => exact outcome_mul_int64 s r
  | div => exact outcome_div s mode r h
  | mod => exact outcome_mod s mode r h

end Dora.Masm.Arm64
