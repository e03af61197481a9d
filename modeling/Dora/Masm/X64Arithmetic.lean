import Dora.Masm.X64

/-!
# The sequences of x64 compute the operations

Each sequence is run from an arbitrary state and gives the answer of its operation.

## Main definitions

* `Operands`: the registers of a sequence
* `code`, `outcome`: the sequence of an operation, and how it ends

## Main results

* `exec_convertDivide`: the division itself
* `outcome_eq_answer`: the sequences give the answers of their operations
-/

namespace Dora.Masm.X64

open Asm (Register Condition Immediate Inst RAX)
open BitVec State

/-- **Registers for a sequence**: the divisor of a division is not where the dividend is put, and
its scratch register is not in use. -/
structure Operands (op : Operation) where
  dest : Register
  lhs : Register
  rhs : Register
  scratch : Register
  rhs_ne_rdx : op.divides → rhs ≠ RDX
  rhs_ne_rax : op.divides → lhs ≠ RAX → rhs ≠ RAX
  scratch_free : op.divides → lhs ≠ scratch ∧ rhs ≠ scratch

variable {op : Operation}

/-- The sequence of an operation. -/
def code (mode : MachineMode) (r : Operands op) : Option Code :=
  match op with
  | .add => intAddChecked mode r.dest r.lhs r.rhs
  | .sub => intSubChecked mode r.dest r.lhs r.rhs
  | .mul => intMulChecked mode r.dest r.lhs r.rhs
  | .div => intDiv mode r.dest r.lhs r.rhs r.scratch
  | .mod => intMod mode r.dest r.lhs r.rhs r.scratch

/-- **The outcome**: a trap, or the number in the destination; none if an assertion fails. -/
def outcome (mode : MachineMode) (r : Operands op) (s : State) : Option (Exit ℤ Trap) :=
  (code mode r).map fun code => (run code s).map fun s => (s.read mode.bits r.dest).toInt

/-- The answer for what the operands hold. -/
abbrev Operands.answer (mode : MachineMode) (r : Operands op) (s : State) : Exit ℤ Trap :=
  op.answer mode.bits (s.read mode.bits r.lhs).toInt (s.read mode.bits r.rhs).toInt

namespace State

variable (s : State) {w : ℕ}

theorem read_write (r : Register) (x : BitVec w) (v : ℕ) :
    (s.write w r x).read v r = (x.setWidth 64).setWidth v :=
  Registers.read_write s.regs r x v

theorem read_write_of_ne {r r' : Register} (h : r' ≠ r) (x : BitVec w) (v : ℕ) :
    (s.write w r x).read v r' = s.read v r' :=
  Registers.read_write_of_ne s.regs h x v

@[simp]
theorem read_setFlags (result : BitVec w) (exact : ℤ) (v : ℕ) (r : Register) :
    (setFlags s result exact).read v r = s.read v r := rfl

end State

variable (r : Operands op) (s : State) (mode : MachineMode)

/-- Nothing is moved where the result is in place. -/
def moves (dest src : Register) : List Inst :=
  if dest ≠ src then
    match mode with
    | .int64 => [.movqRr dest src]
    | .int32 => [.movlRr dest src]
  else []

theorem map_moves (dest src : Register) :
    (moves mode dest src).map .op = if dest ≠ src then [movRr mode dest src] else [] := by
  unfold moves
  split
  · cases mode <;> rfl
  · rfl

theorem exec_moves (dest src : Register) : ∃ s',
    (moves mode dest src).foldlM (fun s i => exec i s) s = some s' ∧
      s'.read mode.bits dest = s.read mode.bits src ∧
      ∀ q, (dest ≠ src → q ≠ dest) → ∀ v, s'.read v q = s.read v q := by
  by_cases h : dest = src
  · refine ⟨s, ?_, by rw [h], fun q _ v => rfl⟩
    simp [moves, h]
  · refine ⟨s.write mode.bits dest (s.read mode.bits src), ?_, ?_, fun q hq v => ?_⟩
    · unfold moves
      rw [if_pos h]
      cases mode <;> rfl
    · rw [read_write, mode.setWidth_64]
    · rw [read_write_of_ne _ (hq h)]

/-! ### Addition, subtraction and multiplication -/

/-- The operations on the first operand in place, from what they leave there. -/
theorem outcome_checked (hop : op.divides = false) (i : Inst) (result : BitVec mode.bits)
    (hcode : code mode r = some (checked mode r.dest r.lhs i))
    (hexec : exec i s = some ((setFlags s result (op.exact (s.read mode.bits r.lhs).toInt
      (s.read mode.bits r.rhs).toInt)).write mode.bits r.lhs result))
    (hresult : result.toInt = op.exact (s.read mode.bits r.lhs).toInt
        (s.read mode.bits r.rhs).toInt ↔
      Fits mode.bits (op.exact (s.read mode.bits r.lhs).toInt (s.read mode.bits r.rhs).toInt)) :
    outcome mode r s = some (r.answer mode s) := by
  generalize hs' : (setFlags s result _).write mode.bits r.lhs result = s' at hexec
  obtain ⟨t, ht, hdest, -⟩ := exec_moves s' mode r.dest r.lhs
  have hrun : run (checked mode r.dest r.lhs i) s = if s'.of then .trap .OVERFLOW else .done t := by
    have hop : [i].foldlM (fun s i => exec i s) s = some s' := by simpa using hexec
    have hover : test .overflow s' = some s'.of := rfl
    rw [run, checked, ← map_moves]
    exact Listing.run_ops_branch hop hover ht
  rw [outcome, hcode, Option.map_some, hrun]
  refine congrArg some (map_checked hop ?_ fun hfits => ?_)
  · rw [← hs']
    exact decide_eq_decide.mpr (not_congr hresult)
  · rw [hdest, ← hs', read_write, mode.setWidth_64]
    exact hresult.mpr hfits

theorem outcome_add (r : Operands .add) : outcome mode r s = some (r.answer mode s) := by
  refine outcome_checked r s mode rfl
    (if mode = .int64 then .addqRr r.lhs r.rhs else .addlRr r.lhs r.rhs)
    (s.read mode.bits r.lhs + s.read mode.bits r.rhs) ?_ ?_ (toInt_add_eq_iff mode.bits_pos _ _)
  all_goals cases mode <;> rfl

theorem outcome_sub (r : Operands .sub) : outcome mode r s = some (r.answer mode s) := by
  refine outcome_checked r s mode rfl
    (if mode = .int64 then .subqRr r.lhs r.rhs else .sublRr r.lhs r.rhs)
    (s.read mode.bits r.lhs - s.read mode.bits r.rhs) ?_ ?_ (toInt_sub_eq_iff mode.bits_pos _ _)
  all_goals cases mode <;> rfl

theorem outcome_mul (r : Operands .mul) : outcome mode r s = some (r.answer mode s) := by
  refine outcome_checked r s mode rfl
    (if mode = .int64 then .imulqRr r.lhs r.rhs else .imullRr r.lhs r.rhs)
    (s.read mode.bits r.lhs * s.read mode.bits r.rhs) ?_ ?_ (toInt_mul_eq_iff mode.bits_pos _ _)
  all_goals cases mode <;> rfl

/-! ### Division -/

variable (rhs : Register)

/-- The instructions of a division. -/
def testZero : Inst :=
  match mode with
  | .int64 => .testqRr rhs rhs
  | .int32 => .testlRr rhs rhs

def compareMin (lhs scratch : Register) : List Inst :=
  match mode with
  | .int64 => [.movqRi scratch ⟨Int64.minValue⟩, .cmpqRr scratch lhs]
  | .int32 => [.movlRi scratch ⟨Int32.minValue.toInt64⟩, .cmplRr scratch lhs]

def compareOne : Inst :=
  match mode with
  | .int64 => .cmpqRi rhs ⟨-1⟩
  | .int32 => .cmplRi rhs ⟨-1⟩

def convertDivide : List Inst :=
  match mode with
  | .int64 => [.cqo, .idivqR rhs]
  | .int32 => [.cdq, .idivlR rhs]

theorem divCommon_eq (hop : op.divides) (result : Register) :
    divCommon mode r.dest r.lhs r.rhs result r.scratch =
      some (division [testZero mode r.rhs] .zero (compareMin mode r.lhs r.scratch) .notEqual
        [compareOne mode r.rhs] .equal
        (moves mode RAX r.lhs ++ (convertDivide mode r.rhs ++ moves mode r.dest result))
          [.done]) := by
  have hassert : ¬ (r.lhs ≠ RAX ∧ r.rhs = RAX) := fun h => r.rhs_ne_rax hop h.1 h.2
  unfold divCommon
  rw [if_neg hassert]
  simp only [division, List.map_append, map_moves, ne_comm]
  cases mode <;> simp [testZero, compareMin, compareOne, convertDivide]

theorem exec_testZero : exec (testZero mode rhs) s = some (execTest mode.bits s rhs rhs) := by
  cases mode <;> rfl

theorem exec_compareMin {lhs scratch : Register} (hne : lhs ≠ scratch) :
    (compareMin mode lhs scratch).foldlM (fun s i => exec i s) s =
      some (execCmp mode.bits (s.write mode.bits scratch (.intMin mode.bits)) (.intMin mode.bits)
        (s.read mode.bits lhs)) := by
  cases mode with
  | int32 =>
    have hmov : exec (.movlRi scratch ⟨Int32.minValue.toInt64⟩) s =
        some (s.write 32 scratch (.intMin 32)) := rfl
    have hcmp (t : State) : exec (.cmplRr scratch lhs) t =
        some (execCmp 32 t (t.read 32 scratch) (t.read 32 lhs)) := rfl
    simp [compareMin, hmov, hcmp, read_write, read_write_of_ne, hne, MachineMode.bits]
  | int64 =>
    have hmov : exec (.movqRi scratch ⟨Int64.minValue⟩) s =
        some (s.write 64 scratch (.intMin 64)) := rfl
    have hcmp (t : State) : exec (.cmpqRr scratch lhs) t =
        some (execCmp 64 t (t.read 64 scratch) (t.read 64 lhs)) := rfl
    simp [compareMin, hmov, hcmp, read_write, read_write_of_ne, hne, MachineMode.bits]

theorem exec_compareOne : exec (compareOne mode rhs) s =
    some (execCmp mode.bits s (s.read mode.bits rhs) (-1#(mode.bits))) := by
  cases mode <;> rfl

theorem dividend_execConvert {w : ℕ} (hw : 0 < w) (hle : w ≤ 64) :
    dividend w (execConvert w s) = (s.read w RAX).toInt := by
  rw [dividend, execConvert, read_write, read_write_of_ne _ (by decide),
    setWidth_setWidth_of_le _ hle, setWidth_eq, toInt_sshiftRight_mul_add hw]

theorem exec_convertDivide {rhs : Register} (hrdx : rhs ≠ RDX) (hzero : s.read mode.bits rhs ≠ 0)
    (hover : ¬ (s.read mode.bits RAX = .intMin mode.bits ∧ s.read mode.bits rhs = -1#(mode.bits))) :
    ∃ t, (convertDivide mode rhs).foldlM (fun s i => exec i s) s = some t ∧
      (t.read mode.bits RAX).toInt =
        (s.read mode.bits RAX).toInt.tdiv (s.read mode.bits rhs).toInt ∧
      (t.read mode.bits RDX).toInt =
        (s.read mode.bits RAX).toInt.tmod (s.read mode.bits rhs).toInt := by
  have hw := mode.bits_pos
  have hexec : (convertDivide mode rhs).foldlM (fun s i => exec i s) s =
      execIdiv mode.bits (execConvert mode.bits s) rhs := by
    cases mode <;> simp [convertDivide, exec, MachineMode.bits]
  have hrhs : (execConvert mode.bits s).read mode.bits rhs = s.read mode.bits rhs :=
    read_write_of_ne _ hrdx _ _
  have hfits := (fits_tdiv_iff hw _ _).mpr hover
  have hne : (s.read mode.bits rhs).toInt ≠ 0 := by
    rw [← toInt_zero, Ne, toInt_inj]
    exact hzero
  rw [hexec, execIdiv]
  simp only [hrhs, dividend_execConvert s hw mode.bits_le]
  rw [if_neg (by have := hfits.1; have := hfits.2; omega)]
  refine ⟨_, rfl, ?_, ?_⟩
  · rw [read_write_of_ne _ (by decide), read_write, mode.setWidth_64]
    exact (toInt_ofInt_eq_iff hw _).mpr hfits
  · rw [read_write, mode.setWidth_64]
    exact (toInt_ofInt_eq_iff hw _).mpr (fits_tmod _ _)

/-- The instructions after the tests leave the result in the destination. -/
theorem exec_divide {result : Register} (hop : op.divides)
    (hresult : ∀ (t : State) (x y : ℤ), (t.read mode.bits RAX).toInt = x.tdiv y →
      (t.read mode.bits RDX).toInt = x.tmod y → (t.read mode.bits result).toInt = op.exact x y)
    {t : State} (hl : ∀ v, t.read v r.lhs = s.read v r.lhs)
    (hr : ∀ v, t.read v r.rhs = s.read v r.rhs) : ∃ t',
    (s.read mode.bits r.rhs ≠ 0 →
      ¬ (s.read mode.bits r.lhs = .intMin mode.bits ∧ s.read mode.bits r.rhs = -1#(mode.bits)) →
      (moves mode RAX r.lhs ++ (convertDivide mode r.rhs ++ moves mode r.dest result)).foldlM
        (fun s i => exec i s) t = some t') ∧
    (s.read mode.bits r.rhs ≠ 0 →
      ¬ (s.read mode.bits r.lhs = .intMin mode.bits ∧ s.read mode.bits r.rhs = -1#(mode.bits)) →
      (t'.read mode.bits r.dest).toInt =
        op.exact (s.read mode.bits r.lhs).toInt (s.read mode.bits r.rhs).toInt) := by
  by_cases hzero : s.read mode.bits r.rhs = 0
  · exact ⟨t, fun h => absurd hzero h, fun h => absurd hzero h⟩
  by_cases hover : s.read mode.bits r.lhs = .intMin mode.bits ∧
      s.read mode.bits r.rhs = -1#(mode.bits)
  · exact ⟨t, fun _ h => absurd hover h, fun _ h => absurd hover h⟩
  obtain ⟨t1, h1, hrax, hframe⟩ := exec_moves t mode RAX r.lhs
  have hrhs := hframe r.rhs (fun h => r.rhs_ne_rax hop (Ne.symm h)) mode.bits
  rw [hl] at hrax
  rw [hr] at hrhs
  obtain ⟨t2, h2, hquot, hrem⟩ := exec_convertDivide t1 mode (r.rhs_ne_rdx hop)
    (by rwa [hrhs]) (by rwa [hrax, hrhs])
  rw [hrax, hrhs] at hquot hrem
  obtain ⟨t3, h3, hdest, -⟩ := exec_moves t2 mode r.dest result
  refine ⟨t3, fun _ _ => ?_, fun _ _ => ?_⟩
  · simp only [List.foldlM_append, h1, h2, h3, Option.bind_eq_bind, Option.bind_some]
  · rw [hdest]
    exact hresult t2 _ _ hquot hrem

theorem outcome_divmod {result : Register} (hop : op.divides)
    (hcode : code mode r = divCommon mode r.dest r.lhs r.rhs result r.scratch)
    (hresult : ∀ (t : State) (x y : ℤ), (t.read mode.bits RAX).toInt = x.tdiv y →
      (t.read mode.bits RDX).toInt = x.tmod y → (t.read mode.bits result).toInt = op.exact x y) :
    outcome mode r s = some (r.answer mode s) := by
  set s1 := execTest mode.bits s r.rhs r.rhs with hs1
  set s2 := execCmp mode.bits (s1.write mode.bits r.scratch (.intMin mode.bits))
    (.intMin mode.bits) (s1.read mode.bits r.lhs) with hs2
  set s3 := execCmp mode.bits s2 (s2.read mode.bits r.rhs) (-1#(mode.bits)) with hs3
  have hread2 : ∀ q, q ≠ r.scratch → ∀ v, s2.read v q = s.read v q := by
    intro q hq v
    rw [hs2, execCmp, read_setFlags, read_write_of_ne _ hq]
    rfl
  have hread3 : ∀ q, q ≠ r.scratch → ∀ v, s3.read v q = s.read v q := by
    intro q hq v
    rw [hs3, execCmp, read_setFlags, hread2 q hq]
  obtain ⟨hlhs, hrhs⟩ := r.scratch_free hop
  have hsub {w : ℕ} (x y : BitVec w) : x - y = 0 ↔ x = y := by
    rw [BitVec.sub_eq_iff_eq_add]
    simp
  obtain ⟨s4, hs4, hf⟩ := exec_divide r s mode hop hresult
    (t := if decide (s.read mode.bits r.lhs ≠ .intMin mode.bits) then s2 else s3)
    (fun v => by split <;> simp [hread2, hread3, hlhs])
    (fun v => by split <;> simp [hread2, hread3, hrhs])
  have htest : [testZero mode r.rhs].foldlM (fun s i => exec i s) s = some s1 := by
    rw [List.foldlM_cons, exec_testZero]
    rfl
  have hzero : test .zero s1 = some (decide (s.read mode.bits r.rhs = 0)) := by
    rw [hs1, execTest, BitVec.and_self]
    rfl
  have hne : test .notEqual s2 = some (decide (s.read mode.bits r.lhs ≠ .intMin mode.bits)) := by
    change some (!decide (_ - _ = 0)) = _
    rw [← decide_not]
    exact congrArg some (decide_eq_decide.mpr (not_congr ((hsub _ _).trans eq_comm)))
  have hone : [compareOne mode r.rhs].foldlM (fun s i => exec i s) s2 = some s3 := by
    rw [List.foldlM_cons, exec_compareOne]
    rfl
  have hover : test .equal s3 = some (decide (s.read mode.bits r.rhs = -1#(mode.bits))) := by
    rw [hs3, hread2 _ hrhs]
    exact congrArg some (decide_eq_decide.mpr (hsub _ _))
  rw [outcome, hcode, divCommon_eq r mode hop, Option.map_some, run, run_division htest hzero
    (exec_compareMin s1 mode hlhs) hne hone hover [.done] ?_]
  · exact congrArg some (map_division mode.bits_pos hop rfl rfl rfl hf)
  · intro hz ho
    refine hs4 (of_decide_eq_false hz) fun h => ?_
    simp [h.1, h.2] at ho

/-- **The sequences of x64.** -/
theorem outcome_eq_answer : outcome mode r s = some (r.answer mode s) := by
  cases op with
  | add => exact outcome_add s mode r
  | sub => exact outcome_sub s mode r
  | mul => exact outcome_mul s mode r
  | div => exact outcome_divmod r s mode rfl rfl fun _ _ _ h _ => h
  | mod => exact outcome_divmod r s mode rfl rfl fun _ _ _ _ h => h

end Dora.Masm.X64
