import Dora.Lib.Listing
import Dora.Lib.Signed

/-!
# Checked integer arithmetic

What the macro assemblers have to compute: for each operation and each mode the trap, or the number
that is left in the destination.

## Main definitions

* `Operation.mathematical`, `Operation.answer`: the operation, and what the language makes of it
* `division`: the shape that the divisions of both macro assemblers have

## Main results

* `run_division`: what a sequence of that shape does, from its tests
* `map_checked`, `map_division`: the answer, from the tests and from the number that is left
-/

namespace Dora.Masm

open Listing

variable {op : Operation} {w : ℕ}

/-- The modes of integers. -/
inductive MachineMode
  | int32
  | int64
deriving DecidableEq

inductive Trap
  | DIV0
  | OVERFLOW
deriving DecidableEq

/-- The labels of a sequence. -/
inductive Lbl
  | zero
  | div
  | overflow
  | done
deriving DecidableEq

/-- The number of bits. -/
def MachineMode.bits : MachineMode → ℕ
  | int32 => 32
  | int64 => 64

inductive Operation
  | add
  | sub
  | mul
  | div
  | mod
deriving DecidableEq

namespace Operation

/-- The mathematical result: division truncates, a remainder has the sign of the dividend. -/
def exact : Operation → ℤ → ℤ → ℤ
  | add, x, y => x + y
  | sub, x, y => x - y
  | mul, x, y => x * y
  | div, x, y => x.tdiv y
  | mod, x, y => x.tmod y

def divides : Operation → Bool
  | div | mod => true
  | _ => false

/-- The number that is tested for overflow: the quotient also for a remainder. -/
def tested : Operation → ℤ → ℤ → ℤ
  | mod, x, y => x.tdiv y
  | op, x, y => op.exact x y

/-- **The mathematical operation** at a width. -/
def mathematical (op : Operation) (w : ℕ) (x y : ℤ) : Exit ℤ Trap :=
  if op.divides ∧ y = 0 then .trap .DIV0
  else if Fits w (op.exact x y) then .done (op.exact x y)
  else .trap .OVERFLOW

/-- **The operation of the language** at a width. -/
def answer (op : Operation) (w : ℕ) (x y : ℤ) : Exit ℤ Trap :=
  if op.divides ∧ y = 0 then .trap .DIV0
  else if Fits w (op.tested x y) then .done (op.exact x y)
  else .trap .OVERFLOW

end Operation

theorem MachineMode.bits_pos (mode : MachineMode) : 0 < mode.bits := by
  cases mode <;> decide

theorem MachineMode.bits_le (mode : MachineMode) : mode.bits ≤ 64 := by
  cases mode <;> decide

theorem MachineMode.setWidth_64 (mode : MachineMode) (x : BitVec mode.bits) :
    (x.setWidth 64).setWidth mode.bits = x := by
  rw [BitVec.setWidth_setWidth_of_le _ mode.bits_le, BitVec.setWidth_eq]

/-- The answer to an operation without a division, from the test and the number that is left. -/
theorem map_checked {σ : Type} {s : σ} {f : σ → ℤ} {x y : ℤ}
    {isOver : Bool} (hop : op.divides = false) (hover : isOver = decide (¬ Fits w (op.exact x y)))
    (hf : Fits w (op.exact x y) → f s = op.exact x y) :
    (if isOver then .trap .OVERFLOW else .done s : Exit σ Trap).map f = op.answer w x y := by
  have htested : op.tested x y = op.exact x y := by
    cases op with
    | mod => simp [Operation.divides] at hop
    | _ => rfl
  rw [Operation.answer, hop, htested, hover]
  by_cases hfits : Fits w (op.exact x y)
  · simp [hfits, Exit.map, hf hfits]
  · simp [hfits, Exit.map]

/-- The answer to a division, from the tests and the number that is left. -/
theorem map_division {σ : Type} {s : σ} {f : σ → ℤ} (hw : 0 < w)
    {x y : BitVec w} {isZero isNe isOver : Bool} (hop : op.divides = true)
    (hzero : isZero = decide (y = 0)) (hne : isNe = decide (x ≠ .intMin w))
    (hover : isOver = decide (y = -1#w))
    (hf : y ≠ 0 → ¬ (x = .intMin w ∧ y = -1#w) → f s = op.exact x.toInt y.toInt) :
    (if isZero then .trap .DIV0
      else if isNe = false ∧ isOver = true then .trap .OVERFLOW
      else .done s : Exit σ Trap).map f = op.answer w x.toInt y.toInt := by
  have htested : op.tested x.toInt y.toInt = x.toInt.tdiv y.toInt := by
    cases op with
    | div | mod => rfl
    | _ => simp [Operation.divides] at hop
  have hint : y.toInt = 0 ↔ y = 0 := by
    rw [← BitVec.toInt_zero, BitVec.toInt_inj]
    rfl
  simp only [Operation.answer, hop, htested, BitVec.fits_tdiv_iff hw, hint, true_and, hzero, hne,
    hover, decide_eq_true_eq, decide_eq_false_iff_not, not_not]
  by_cases hy : y = 0
  · simp [hy, Exit.map]
  · by_cases hxy : x = .intMin w ∧ y = -1#w
    · rw [if_neg hy, if_neg hy, if_pos hxy, if_neg (not_not.mpr hxy)]
      rfl
    · rw [if_neg hy, if_neg hy, if_neg hxy, if_pos hxy, Exit.map, hf hy hxy]

section Division

variable {I B σ : Type} {exec : I → σ → Option σ} {test : B → σ → Option Bool}
  {ops1 ops2 ops3 : List I} {b1 b2 b3 : B} {s s1 s2 s3 : σ} {isZero isNe isOver : Bool}

/-- **The shape of a division**: a test for zero, a test for overflow that is left out if the
dividend is not the least number, and the division itself. -/
def division (ops1 : List I) (b1 : B) (ops2 : List I) (b2 : B) (ops3 : List I) (b3 : B)
    (ops4 : List I) (ls : List Lbl) : List (Item I B Lbl Trap) :=
  ops1.map .op ++ ([.branch b1 .zero, .bailout .zero .DIV0] ++ (ops2.map .op ++
    ([.branch b2 .div] ++ (ops3.map .op ++ ([.branch b3 .overflow, .bailout .overflow .OVERFLOW,
      .bind .div] ++ (ops4.map .op ++ ls.map .bind))))))

theorem runFrom_binds {traps : Lbl → Option Trap} (ls : List Lbl) :
    runFrom exec test traps none (ls.map .bind) s = .done s := by
  induction ls with
  | nil => rfl
  | cons l ls ih => exact ih

theorem trapOf_binds (l : Lbl) (ls : List Lbl) :
    trapOf (I := I) (B := B) (T := Trap) l (ls.map .bind) = none := by
  induction ls with
  | nil => rfl
  | cons l' ls ih => exact ih

/-- The tests come before the division. -/
theorem run_division (h1 : ops1.foldlM (fun s i => exec i s) s = some s1)
    (hzero : test b1 s1 = some isZero) (h2 : ops2.foldlM (fun s i => exec i s) s1 = some s2)
    (hne : test b2 s2 = some isNe) (h3 : ops3.foldlM (fun s i => exec i s) s2 = some s3)
    (hover : test b3 s3 = some isOver) {ops4 : List I} {s4 : σ} (ls : List Lbl)
    (h4 : isZero = false → (isNe = false → isOver = false) →
      ops4.foldlM (fun s i => exec i s) (if isNe then s2 else s3) = some s4) :
    run exec test (division ops1 b1 ops2 b2 ops3 b3 ops4 ls) s =
      if isZero then .trap .DIV0
      else if isNe = false ∧ isOver = true then .trap .OVERFLOW
      else .done s4 := by
  rw [run]
  generalize htraps : (fun l => trapOf l (division ops1 b1 ops2 b2 ops3 b3 ops4 ls)) = traps
  have hdiv : traps .div = none := by simp [← htraps, division, trapOf_ops, trapOf, trapOf_binds]
  have htrap : traps .zero = some .DIV0 := by simp [← htraps, division, trapOf_ops, trapOf]
  have htrap' : traps .overflow = some .OVERFLOW := by
    simp [← htraps, division, trapOf_ops, trapOf]
  have hend {t : σ} (ht : ops4.foldlM (fun s i => exec i s) t = some s4) :
      runFrom exec test traps none (ops4.map .op ++ ls.map .bind) t = .done s4 := by
    rw [runFrom_ops ht, runFrom_binds]
  rw [division, runFrom_ops h1, List.cons_append, runFrom_branch hzero, htrap]
  cases isZero with
  | true => rfl
  | false =>
    simp only [List.cons_append, List.nil_append, runFrom]
    rw [runFrom_ops h2, runFrom_branch hne, hdiv]
    cases isNe with
    | true =>
      -- The second test is skipped.
      simp only
      rw [runFrom_skip_ops]
      exact hend (h4 rfl (by simp))
    | false =>
      rw [runFrom_ops h3, runFrom_branch hover, htrap']
      cases isOver with
      | true => rfl
      | false => exact hend (h4 rfl (fun _ => rfl))

end Division

end Dora.Masm
