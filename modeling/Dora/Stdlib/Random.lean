import Dora.Lib.Fueled
import Dora.Masm.Checked

/-!
# Random numbers

`Random` steps a seed of 48 bits. `nextInt32WithBound` draws numbers of 31 bits until one lies below
the last multiple of the bound, and tests this by an addition that is meant to wrap around. Addition
traps instead.

## Main results

* `Random.draw_succ`: the loop never goes into a second round
* `Random.drawsBelow_iff`: when nothing traps and the results are in range
-/

namespace Dora.Stdlib

open BitVec

open Masm (Operation)

/-- `+`, `-` or `%` on numbers of 32 bits, as compiled code computes them. -/
def checked (op : Operation) (x y : ℤ) : Fueled ℤ :=
  match op.answer 32 x y with
  | .done z => .returns z
  | _ => .trap

structure Random where
  seed : BitVec 64
deriving DecidableEq

namespace Random

def RANDOM_MULTIPLIER : BitVec 64 := 25214903917

def RANDOM_INCREMENT : BitVec 64 := 11

def RANDOM_MASK : BitVec 64 := 0xFFFFFFFFFFFF

def new (seed : BitVec 64) : Random := ⟨(seed ^^^ RANDOM_MULTIPLIER) &&& RANDOM_MASK⟩

def nextInt32 (r : Random) : BitVec 32 × Random :=
  let seed := (r.seed * RANDOM_MULTIPLIER + RANDOM_INCREMENT) &&& RANDOM_MASK
  ((seed >>> 16).setWidth 32, ⟨seed⟩)

def nextInt31 (r : Random) : BitVec 32 × Random := (r.nextInt32.1 &&& 0x7FFFFFFF, r.nextInt32.2)

/-- The loop of `nextInt32WithBound`. -/
def draw (bound boundMinus1 : ℤ) : ℕ → Random → Fueled (ℤ × Random)
  | 0, _ => .running
  | fuel + 1, r => do
    let (num, r) := r.nextInt31
    let modulo ← checked .mod num.toInt bound
    if (← checked .add (← checked .sub num.toInt modulo) boundMinus1) ≥ 0 then return (modulo, r)
    draw bound boundMinus1 fuel r

def nextInt32WithBound (bound : BitVec 32) (fuel : ℕ) (r : Random) : Fueled (ℤ × Random) := do
  Fueled.assert (bound.toInt > 0)
  let boundMinus1 ← checked .sub bound.toInt 1
  if bound &&& BitVec.ofInt 32 boundMinus1 = 0 then
    let (num, r) := r.nextInt31
    return (((bound.signExtend 64 * num.signExtend 64) >>> 31).setWidth 32 |>.toInt, r)
  draw bound.toInt boundMinus1 fuel r

/-- **What is asked for**: no trap, and every result is a number below the bound. -/
def DrawsBelow (r : Random) (bound : BitVec 32) : Prop :=
  ∀ fuel, r.nextInt32WithBound bound fuel ≠ .trap ∧
    ∀ result r', r.nextInt32WithBound bound fuel = .returns (result, r') →
      0 ≤ result ∧ result < bound.toInt

theorem checked_eq {op : Operation} {x y : ℤ} (hy : op.divides = true → y ≠ 0) :
    checked op x y = if Fits 32 (op.tested x y) then .returns (op.exact x y) else .trap := by
  rw [checked, Operation.answer, if_neg fun h => hy h.1 h.2]
  by_cases hfits : Fits 32 (op.tested x y)
  · rw [if_pos hfits, if_pos hfits]
  · rw [if_neg hfits, if_neg hfits]

theorem checked_sub {x y : ℤ} (h : Fits 32 (x - y)) : checked .sub x y = .returns (x - y) := by
  rw [checked_eq (by simp [Operation.divides])]
  exact if_pos h

theorem checked_mod {x y : ℤ} (hx : 0 ≤ x) (hx' : x < 2 ^ 31) (hy : 0 < y) :
    checked .mod x y = .returns (x % y) := by
  have htested : Fits 32 (x.tdiv y) := by
    have hnonneg := Int.tdiv_nonneg hx hy.le
    have hle := Int.tdiv_le_self y hx
    constructor <;> omega
  rw [checked_eq fun _ => hy.ne', ← Int.tmod_eq_emod_of_nonneg hx]
  exact if_pos htested

theorem nextInt31_bounds (r : Random) : 0 ≤ r.nextInt31.1.toInt ∧ r.nextInt31.1.toInt < 2 ^ 31 := by
  have hle : r.nextInt31.1.toNat ≤ 2 ^ 31 - 1 := by
    rw [nextInt31, toNat_and]
    exact Nat.and_le_right
  rw [toInt_eq_toNat_cond]
  omega

/-- A number as it is without its sign. -/
theorem toNat_signExtend {x : BitVec 32} (h : 0 ≤ x.toInt) :
    ((x.signExtend 64).toNat : ℤ) = x.toInt := by
  have hmsb : x.msb = false := by rw [msb_eq_toInt, decide_eq_false_iff_not]; omega
  rw [signExtend_eq_setWidth_of_msb_false hmsb, toNat_setWidth_of_le (by decide),
    toInt_eq_toNat_of_msb hmsb]

/-- A product of 62 bits, shifted: the result for bounds that are powers of two. -/
theorem shifted_bounds {bound num : BitVec 32} (hbound : 0 < bound.toInt) (hnum : 0 ≤ num.toInt) :
    0 ≤ (((bound.signExtend 64 * num.signExtend 64) >>> 31).setWidth 32).toInt ∧
      (((bound.signExtend 64 * num.signExtend 64) >>> 31).setWidth 32).toInt < bound.toInt := by
  have hb := toNat_signExtend hbound.le
  have hn := toNat_signExtend hnum
  have hb' := bound.toInt_lt
  have hn' := num.toInt_lt
  obtain ⟨b, hbn⟩ : ∃ b, (bound.signExtend 64).toNat = b := ⟨_, rfl⟩
  obtain ⟨n, hnn⟩ : ∃ n, (num.signExtend 64).toNat = n := ⟨_, rfl⟩
  have hprod : b * n ≤ b * (2 ^ 31 - 1) := Nat.mul_le_mul_left b (by omega)
  have hshift : (((bound.signExtend 64 * num.signExtend 64) >>> 31).setWidth 32).toNat =
      b * n / 2 ^ 31 := by
    rw [toNat_setWidth, toNat_ushiftRight, toNat_mul, hbn, hnn, Nat.shiftRight_eq_div_pow]
    omega
  rw [toInt_eq_toNat_cond, hshift]
  omega

/-- **A round of the loop** is the last one. -/
theorem draw_succ {bound : ℤ} (hpos : 0 < bound) (hlt : bound < 2 ^ 31) (fuel : ℕ) (r : Random) :
    draw bound (bound - 1) (fuel + 1) r =
      if r.nextInt31.1.toInt - r.nextInt31.1.toInt % bound + bound ≤ 2 ^ 31 then
        .returns (r.nextInt31.1.toInt % bound, r.nextInt31.2) else .trap := by
  obtain ⟨hnum, hnum'⟩ := r.nextInt31_bounds
  rw [draw]
  dsimp only
  generalize r.nextInt31.1.toInt = num at hnum hnum' ⊢
  have hmod := Int.emod_nonneg num hpos.ne'
  have hle : num % bound ≤ num := by
    have hdiv := Int.mul_nonneg hpos.le (Int.ediv_nonneg hnum hpos.le)
    have heq := Int.mul_ediv_add_emod num bound
    omega
  have hsub : checked .sub num (num % bound) = .returns (num - num % bound) :=
    checked_sub ⟨by omega, by omega⟩
  -- the sum is not negative, so it is too large or the loop ends
  have hadd : checked .add (num - num % bound) (bound - 1) =
      if num - num % bound + bound ≤ 2 ^ 31 then .returns (num - num % bound + (bound - 1))
      else .trap := by
    rw [checked_eq (by simp [Operation.divides])]
    refine if_congr ⟨fun h => ?_, fun h => ?_⟩ rfl rfl
    · have hfits : num - num % bound + (bound - 1) < 2 ^ 31 := h.2
      omega
    · refine ⟨?_, ?_⟩ <;> simp only [Operation.tested, Operation.exact] <;> omega
  rw [checked_mod hnum hnum' hpos, Fueled.returns_bind, hsub, Fueled.returns_bind, hadd]
  split_ifs with hfits
  · rw [Fueled.returns_bind, if_pos (by omega)]
    rfl
  · rfl

/-- **Bounded random numbers**: nothing traps and all results are in range iff the bound is a power
of two or the number that is drawn lies below a multiple of the bound up to 2^31. -/
theorem drawsBelow_iff (r : Random) {bound : BitVec 32} (hbound : 0 < bound.toInt) :
    r.DrawsBelow bound ↔ bound &&& (bound - 1) = 0 ∨
      r.nextInt31.1.toInt - r.nextInt31.1.toInt % bound.toInt + bound.toInt ≤ 2 ^ 31 := by
  have hlt : bound.toInt < 2 ^ 31 := bound.toInt_lt
  have hsub : checked .sub bound.toInt 1 = .returns (bound.toInt - 1) :=
    checked_sub ⟨by omega, by omega⟩
  have hbits : BitVec.ofInt 32 (bound.toInt - 1) = bound - 1 := by
    have hone : (1 : BitVec 32).toInt = 1 := by decide
    rw [← ofInt_toInt (x := bound - 1), (toInt_sub_eq_iff (by decide) bound 1).mpr, hone]
    rw [hone]
    exact ⟨by omega, by omega⟩
  have hcall (fuel : ℕ) : r.nextInt32WithBound bound fuel =
      if bound &&& (bound - 1) = 0 then
        .returns ((((bound.signExtend 64 * r.nextInt31.1.signExtend 64) >>> 31).setWidth 32).toInt,
          r.nextInt31.2)
      else draw bound.toInt (bound.toInt - 1) fuel r := by
    rw [nextInt32WithBound, decide_eq_true hbound, Fueled.assert_true, Fueled.returns_bind, hsub,
      Fueled.returns_bind, hbits]
    rfl
  by_cases hpow : bound &&& (bound - 1) = 0
  · refine iff_of_true (fun fuel => ?_) (.inl hpow)
    rw [hcall, if_pos hpow]
    refine ⟨nofun, fun result r' h => ?_⟩
    rw [← (Prod.mk.inj (Fueled.returns.inj h)).1]
    exact shifted_bounds hbound r.nextInt31_bounds.1
  · simp only [DrawsBelow, hcall, hpow, false_or]
    refine ⟨fun h => ?_, fun hfits fuel => ?_⟩
    · by_contra hfits
      have hround := draw_succ hbound hlt 0 r
      rw [if_neg hfits] at hround
      exact (h 1).1 hround
    · cases fuel with
      | zero => exact ⟨nofun, nofun⟩
      | succ fuel =>
        rw [draw_succ hbound hlt, if_pos hfits]
        refine ⟨nofun, fun result r' h => ?_⟩
        rw [← (Prod.mk.inj (Fueled.returns.inj h)).1]
        exact ⟨Int.emod_nonneg _ hbound.ne', Int.emod_lt_of_pos _ hbound⟩

theorem drawsBelow_ten : (new 42).DrawsBelow 10 :=
  (drawsBelow_iff (new 42) (by decide)).mpr (by decide)

/-- A seed after which the largest number of 31 bits is drawn: the test for it traps. -/
theorem not_drawsBelow_three : ¬ (Random.mk 146857730845353).DrawsBelow 3 := by
  intro h
  exact (h 1).1 (by decide)

end Random

end Dora.Stdlib
