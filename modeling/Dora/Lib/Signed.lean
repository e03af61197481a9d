import Mathlib.Tactic.Linarith
import Mathlib.Tactic.Ring

/-!
# Signed numbers of a width

When the result of an operation on bit vectors is the exact one, and how this is seen from the
product of twice the width.

## Main definitions

* `Fits`: a number that a bit vector stands for
* `BitVec.mulHigh`: the upper half of a product
-/

/-- **The numbers of a width.** -/
def Fits (w : ℕ) (x : ℤ) : Prop := -2 ^ (w - 1) ≤ x ∧ x < 2 ^ (w - 1)

instance (w : ℕ) (x : ℤ) : Decidable (Fits w x) := inferInstanceAs (Decidable (_ ∧ _))

namespace BitVec

variable {w v : ℕ} (x y : BitVec w)

theorem fits_toInt : Fits w x.toInt := ⟨x.le_toInt, x.toInt_lt⟩

theorem toInt_ofInt_eq_iff (hw : 0 < w) (i : ℤ) : (BitVec.ofInt w i).toInt = i ↔ Fits w i := by
  constructor
  · intro h
    rw [← h]
    exact fits_toInt _
  · rintro ⟨h1, h2⟩
    rw [toInt_ofInt]
    obtain ⟨v, rfl⟩ : ∃ v, w = v + 1 := ⟨w - 1, by omega⟩
    simp only [Nat.add_sub_cancel] at h1 h2
    have hpow : ((2 ^ (v + 1) : ℕ) : ℤ) = 2 * 2 ^ v := by push_cast; ring
    apply Int.bmod_eq_of_le <;> omega

theorem toInt_add_eq_iff (hw : 0 < w) (x y : BitVec w) :
    (x + y).toInt = x.toInt + y.toInt ↔ Fits w (x.toInt + y.toInt) := by
  rw [← toInt_ofInt_eq_iff hw, toInt_add, toInt_ofInt]

theorem toInt_sub_eq_iff (hw : 0 < w) (x y : BitVec w) :
    (x - y).toInt = x.toInt - y.toInt ↔ Fits w (x.toInt - y.toInt) := by
  rw [← toInt_ofInt_eq_iff hw, toInt_sub, toInt_ofInt]

theorem toInt_mul_eq_iff (hw : 0 < w) (x y : BitVec w) :
    (x * y).toInt = x.toInt * y.toInt ↔ Fits w (x.toInt * y.toInt) := by
  rw [← toInt_ofInt_eq_iff hw, toInt_mul, toInt_ofInt]

theorem add_not_add_one : x + ~~~y + 1#w = x - y := by
  rw [BitVec.add_assoc, ← BitVec.neg_eq_not_add, ← BitVec.sub_eq_add_neg]

theorem toInt_not_eq (hw : 0 < w) (x : BitVec w) : (~~~x).toInt = -x.toInt - 1 := by
  obtain ⟨h1, h2⟩ := fits_toInt x
  have hfits : Fits w (-x.toInt - 1) := by
    constructor <;> omega
  have hone : ((1#w).toInt).bmod (2 ^ w) = (1 : ℤ).bmod (2 ^ w) := by
    rw [← toInt_ofInt, ← toInt_ofInt, ofInt_toInt]
    rfl
  rw [not_eq_neg_add, toInt_sub, toInt_neg, Int.bmod_sub_bmod, ← Int.sub_bmod_bmod, hone,
    Int.sub_bmod_bmod, ← toInt_ofInt, (toInt_ofInt_eq_iff hw _).mpr hfits]

theorem add_one_eq_zero_iff : x + 1#w = 0#w ↔ x = -1#w := by
  rw [← BitVec.sub_neg, BitVec.sub_eq_iff_eq_add, BitVec.zero_add]

theorem toInt_neg_one (hw : 0 < w) : (-1#w).toInt = -1 := by
  rw [BitVec.neg_one_eq_allOnes, toInt_allOnes, if_pos hw]

theorem fits_tdiv_iff (hw : 0 < w) (x y : BitVec w) :
    Fits w (x.toInt.tdiv y.toInt) ↔ ¬ (x = intMin w ∧ y = -1#w) := by
  constructor
  · rintro h ⟨rfl, rfl⟩
    rw [toInt_neg_one hw, toInt_intMin_of_pos hw, Int.tdiv_neg, Int.tdiv_one, Int.neg_neg] at h
    exact absurd h.2 (lt_irrefl _)
  · intro h
    rw [← toInt_sdiv_of_ne_or_ne x y (by rwa [← not_and_or])]
    exact fits_toInt _

theorem setWidth_sub_mul (h : w ≤ v) (x y z : BitVec v) :
    (x - y * z).setWidth w = x.setWidth w - y.setWidth w * z.setWidth w := by
  rw [← setWidth_mul _ _ h, BitVec.sub_eq_add_neg, setWidth_add _ _ h, setWidth_neg_of_le h,
    ← BitVec.sub_eq_add_neg]

theorem fits_tmod : Fits w (x.toInt.tmod y.toInt) := by
  rw [← toInt_srem]
  exact fits_toInt _

theorem toInt_sshiftRight_mul_add (hw : 0 < w) (x : BitVec w) :
    (x.sshiftRight (w - 1)).toInt * 2 ^ w + x.toNat = x.toInt := by
  obtain ⟨v, rfl⟩ : ∃ v, w = v + 1 := ⟨w - 1, by omega⟩
  have hpow : (2 : ℤ) ^ (v + 1) = 2 * 2 ^ v := by ring
  have hnat : ((2 ^ (v + 1) : ℕ) : ℤ) = 2 * 2 ^ v := by push_cast; ring
  obtain ⟨h1, h2⟩ := fits_toInt x
  rw [toInt_sshiftRight, Int.shiftRight_eq_div_pow, show v + 1 - 1 = v from rfl] at *
  have hcond := toInt_eq_toNat_cond x
  push_cast
  split at hcond
  · rw [Int.ediv_eq_zero_of_lt (by omega) h2, hcond]
    omega
  · have hsign : x.toInt / 2 ^ v = -1 := by
      rw [Int.ediv_eq_iff_of_pos (by positivity)]
      constructor <;> omega
    rw [hsign, hcond, hnat, hpow]
    omega

theorem toInt_sub_sdiv_mul : (x - x.sdiv y * y).toInt = x.toInt.tmod y.toInt := by
  have hrem : x.toInt - x.toInt.tdiv y.toInt * y.toInt = x.toInt.tmod y.toInt := by
    rw [Int.tmod_def, Int.mul_comm]
  have hwrap : (x.srem y).toInt.bmod (2 ^ w) = (x.srem y).toInt := toInt_bmod_cancel _
  rw [toInt_srem] at hwrap
  rw [toInt_sub, toInt_mul, toInt_sdiv, Int.sub_bmod_bmod, ← Int.sub_bmod_bmod,
    Int.bmod_mul_bmod, Int.sub_bmod_bmod, hrem, hwrap]

/-! ### Products of twice the width -/

theorem natAbs_toInt_le : x.toInt.natAbs ≤ 2 ^ (w - 1) := by
  obtain ⟨h1, h2⟩ := fits_toInt x
  have hpow : ((2 ^ (w - 1) : ℕ) : ℤ) = 2 ^ (w - 1) := by push_cast; rfl
  omega

theorem fits_mul (hw : 0 < w) (hv : w + w ≤ v) (x y : BitVec w) : Fits v (x.toInt * y.toInt) := by
  have hle : (x.toInt * y.toInt).natAbs ≤ 2 ^ (w - 1) * 2 ^ (w - 1) := by
    rw [Int.natAbs_mul]
    exact Nat.mul_le_mul (natAbs_toInt_le x) (natAbs_toInt_le y)
  have hlt : 2 ^ (w - 1) * 2 ^ (w - 1) < 2 ^ (v - 1) := by
    rw [← Nat.pow_add]
    exact Nat.pow_lt_pow_right (by omega) (by omega)
  have hpow : ((2 ^ (v - 1) : ℕ) : ℤ) = 2 ^ (v - 1) := by push_cast; rfl
  constructor <;> omega

theorem toInt_signExtend_mul (hw : 0 < w) (hv : w + w ≤ v) (x y : BitVec w) :
    (x.signExtend v * y.signExtend v).toInt = x.toInt * y.toInt := by
  have h := toInt_mul_eq_iff (by omega) (x.signExtend v) (y.signExtend v)
  rw [toInt_signExtend_of_le (by omega), toInt_signExtend_of_le (by omega)] at h
  exact h.mpr (fits_mul hw hv x y)

theorem setWidth_eq_ofInt (h : w ≤ v) (p : BitVec v) : p.setWidth w = BitVec.ofInt w p.toInt := by
  rw [← signExtend_eq_setWidth_of_le _ h, BitVec.signExtend]

theorem eq_signExtend_setWidth_iff (hw : 0 < w) (h : w ≤ v) (p : BitVec v) :
    p = (p.setWidth w).signExtend v ↔ Fits w p.toInt := by
  rw [← toInt_ofInt_eq_iff hw, ← setWidth_eq_ofInt h, ← toInt_inj,
    toInt_signExtend_of_le h, eq_comm]

theorem ediv_eq_bmod_ediv_iff {P p : ℤ} {m : ℕ} (hP : 0 < P) (hm : (m : ℤ) = 2 * P) :
    p / m = p.bmod m / P ↔ -P ≤ p ∧ p < P := by
  have hdiv : p = m * (p / m) + p % m := (Int.mul_ediv_add_emod p m).symm
  have hnonneg : 0 ≤ p % m := Int.emod_nonneg p (by omega)
  have hlt : p % m < m := Int.emod_lt_of_pos p (by omega)
  rw [Int.bmod_def]
  generalize p / m = q at hdiv ⊢
  generalize p % m = r at hdiv hnonneg hlt ⊢
  rw [hm] at hdiv hlt ⊢
  have hhalf : (2 * P + 1) / 2 = P := by omega
  rw [hhalf]
  split
  · next hr =>
    rw [Int.ediv_eq_zero_of_lt hnonneg hr, hdiv]
    constructor
    · rintro rfl
      omega
    · rintro ⟨h1, h2⟩
      by_contra hq
      rcases Int.lt_or_gt_of_ne hq with hq | hq
      · nlinarith
      · nlinarith
  · next hr =>
    have hsign : (r - 2 * P) / P = -1 := by
      rw [Int.ediv_eq_iff_of_pos hP]
      constructor <;> omega
    rw [hsign, hdiv]
    constructor
    · rintro rfl
      omega
    · rintro ⟨h1, h2⟩
      by_contra hq
      rcases Int.lt_or_gt_of_ne hq with hq | hq
      · nlinarith
      · nlinarith

/-- The high half of a product. -/
def mulHigh (x y : BitVec w) : BitVec w := BitVec.ofInt w (x.toInt * y.toInt / 2 ^ w)

/-- The high half of a product is the sign of the low half iff the product fits. -/
theorem mulHigh_eq_iff (hw : 0 < w) (x y : BitVec w) :
    mulHigh x y = (x * y).sshiftRight (w - 1) ↔ Fits w (x.toInt * y.toInt) := by
  have hpow : ((2 ^ w) : ℤ) = 2 * 2 ^ (w - 1) := by
    obtain ⟨v, rfl⟩ : ∃ v, w = v + 1 := ⟨w - 1, by omega⟩
    push_cast
    ring
  have hhigh : Fits w (x.toInt * y.toInt / 2 ^ w) := by
    obtain ⟨h1, h2⟩ := fits_mul hw le_rfl x y
    have hsquare : (2 : ℤ) ^ (w + w - 1) = 2 ^ (w - 1) * 2 ^ w := by
      rw [← pow_add]
      congr 1
      omega
    rw [hsquare] at h1 h2
    refine ⟨Int.le_ediv_of_mul_le (by positivity) ?_, Int.ediv_lt_of_lt_mul (by positivity) h2⟩
    rw [Int.neg_mul]
    exact h1
  rw [mulHigh, ← toInt_inj, (toInt_ofInt_eq_iff hw _).mpr hhigh, toInt_sshiftRight,
    Int.shiftRight_eq_div_pow, toInt_mul]
  have := ediv_eq_bmod_ediv_iff (p := x.toInt * y.toInt) (by positivity) hpow
  exact this

end BitVec
