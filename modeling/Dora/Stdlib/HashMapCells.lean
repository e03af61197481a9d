import Mathlib.Data.List.Iterate
import Dora.Lib.Probing
import Dora.Stdlib.HashMap

/-!
# The cells of a hash map

A hash map as a table with open addressing whose keys are classes of equal keys.

## Main definitions

* `HashMap.cells`, `HashMap.path`: the table, and the path of a key

## Main results

* `HashMap.probe_ends`, `HashMap.probe_running`: the loop ends as the search does, or never
-/

namespace Dora.Stdlib

open Words (Mem)
open Fueled

variable {K V : Type} [Key K]

instance keySetoid : Setoid K where
  r k k' := Key.equals k k' = true
  iseqv := ⟨Key.equals_refl, Key.equals_symm, Key.equals_trans⟩

instance decidableEquiv (k k' : K) : Decidable (k ≈ k') :=
  inferInstanceAs (Decidable (Key.equals k k' = true))

/-- Equal keys. -/
abbrev KeyClass (K : Type) [Key K] := Quotient (keySetoid (K := K))

/-- The hash of a class. -/
def KeyClass.hash : KeyClass K → BitVec 32 := Quotient.lift Key.hash fun _ _ => Key.hash_eq

theorem key_eq_iff {k k' : K} : (⟦k⟧ : KeyClass K) = ⟦k'⟧ ↔ Key.equals k k' = true := Quotient.eq

namespace HashMap

variable (m : HashMap K V)

variable {v : V} {α : Type} {n : ℕ}

/-- The slot `i` has the bit of an inserted key. -/
def Inserted (i : ℕ) : Prop := Mem m.insertedAndDeleted.data (2 * i)

/-- The slot `i` has the bit of a deleted key. -/
def Deleted (i : ℕ) : Prop := Mem m.insertedAndDeleted.data (2 * i + 1)

instance (i : ℕ) : Decidable (m.Inserted i) := inferInstanceAs (Decidable (Mem _ _))

instance (i : ℕ) : Decidable (m.Deleted i) := inferInstanceAs (Decidable (Mem _ _))

/-- The cells of the table. -/
def cells (i : ℕ) : Cell (KeyClass K) V :=
  if m.Deleted i then .deleted
  else if m.Inserted i then
    match m.keys[i]?.join, m.values[i]?.join with
    | some k, some v => .live ⟦k⟧ v
    | _, _ => .deleted
  else .empty

omit [Key K] in
/-- **The shape of a map**: the capacity is zero or a power of two, the bit set has two bits for
each slot, and an inserted key is there with its value. -/
structure Shape : Prop where
  capacity : m.cap = 0 ∨ ∃ n, m.cap = 2 ^ (n + 2)
  bits : m.insertedAndDeleted.capacity = 2 * m.cap
  keys : m.keys.length = m.cap
  values : m.values.length = m.cap
  live : ∀ i < m.cap, m.Inserted i → ¬ m.Deleted i →
    (∃ k, m.keys[i]? = some (some k)) ∧ ∃ v, m.values[i]? = some (some v)

/-- There is a slot that was never used since the table was made. -/
def Roomy : Prop := ∃ i < m.cap, ¬ m.Inserted i ∧ ¬ m.Deleted i

/-- The key is in the table. -/
def Present (key : K) : Prop :=
  ∃ i < m.cap, m.Inserted i ∧ ¬ m.Deleted i ∧
    ∃ k, m.keys[i]? = some (some k) ∧ Key.equals k key = true

variable {m} {i cap j : ℕ} (x : ℤ)

theorem cells_of_live {k : K} (hins : m.Inserted i) (hdel : ¬ m.Deleted i)
    (hk : m.keys[i]? = some (some k)) (hv : m.values[i]? = some (some v)) :
    m.cells i = .live ⟦k⟧ v := by
  rw [cells, if_neg hdel, if_pos hins, hk, hv]
  rfl

theorem cells_congr {m' : HashMap K V} (hins : m'.Inserted i ↔ m.Inserted i)
    (hdel : m'.Deleted i ↔ m.Deleted i) (hk : m'.keys[i]? = m.keys[i]?)
    (hv : m'.values[i]? = m.values[i]?) : m'.cells i = m.cells i := by
  unfold cells
  rw [hk, hv]
  exact if_congr hdel rfl (if_congr hins rfl rfl)

omit [Key K] in
theorem Shape.isDeleted_eq (h : m.Shape) (hi : i < m.cap) :
    m.isDeleted i = .returns (decide (m.Deleted i)) := by
  have hcast : 2 * (i : ℤ) + 1 = (2 * i + 1 : ℕ) := by omega
  rw [isDeleted, hcast, BitSet.contains_eq (by rw [h.bits]; omega)]
  rfl

omit [Key K] in
theorem Shape.isLive_eq (h : m.Shape) (hi : i < m.cap) :
    m.isLive i = .returns (decide (m.Inserted i ∧ ¬ m.Deleted i)) := by
  have hcast : 2 * (i : ℤ) = (2 * i : ℕ) := by omega
  have hdeleted := h.isDeleted_eq hi
  rw [isDeleted] at hdeleted
  rw [isLive, hcast, BitSet.contains_eq (by rw [h.bits]; omega), ← hcast, hdeleted]
  by_cases hins : m.Inserted i
  · have hmem : Mem m.insertedAndDeleted.data (2 * i) := hins
    simp [hins, hmem]
  · have hmem : ¬ Mem m.insertedAndDeleted.data (2 * i) := hins
    simp [hins, hmem]

omit [Key K] in
theorem getSlot_eq {array : List (Option α)} {a : α} (h : array[i]? = some (some a)) :
    getSlot array i = .returns a := by
  rw [getSlot, if_pos (Int.natCast_nonneg i), Int.toNat_natCast, h]
  rfl

omit [Key K] in
theorem setSlot_eq {array : List (Option α)} (h : i < array.length) (a : Option α) :
    setSlot array i a = .returns (array.set i a) := by
  rw [setSlot, if_pos ⟨Int.natCast_nonneg i, by omega⟩, Int.toNat_natCast]

/-- What the methods see of a slot. -/
inductive Slot (m : HashMap K V) (i : ℕ) : Prop
  | live (k : K) (v : V) (cell : m.cells i = .live ⟦k⟧ v) (isLive : m.isLive i = .returns true)
      (key : m.keys[i]? = some (some k)) (value : m.values[i]? = some (some v))
  | deleted (cell : m.cells i = .deleted) (isLive : m.isLive i = .returns false)
      (isDeleted : m.isDeleted i = .returns true)
  | unused (cell : m.cells i = .empty) (isLive : m.isLive i = .returns false)
      (isDeleted : m.isDeleted i = .returns false)

theorem Shape.slot (h : m.Shape) (hi : i < m.cap) : m.Slot i := by
  have hlive := h.isLive_eq hi
  have hdeleted := h.isDeleted_eq hi
  by_cases hdel : m.Deleted i
  · refine .deleted ?_ ?_ ?_
    · rw [cells, if_pos hdel]
    · rw [hlive, decide_eq_false (fun hc => hc.2 hdel)]
    · rw [hdeleted, decide_eq_true hdel]
  · by_cases hins : m.Inserted i
    · obtain ⟨⟨k, hk⟩, v, hv⟩ := h.live i hi hins hdel
      refine .live k v ?_ ?_ hk hv
      · exact cells_of_live hins hdel hk hv
      · rw [hlive, decide_eq_true ⟨hins, hdel⟩]
    · refine .unused ?_ ?_ ?_
      · rw [cells, if_neg hdel, if_neg hins]
      · rw [hlive, decide_eq_false (fun hc => hins hc.1)]
      · rw [hdeleted, decide_eq_false hdel]

theorem Shape.values_of_cell (h : m.Shape) (hi : i < m.cap) {q : KeyClass K}
    (hcell : m.cells i = .live q v) : m.values[i]? = some (some v) := by
  cases h.slot hi with
  | deleted cell | unused cell => rw [cell] at hcell; cases hcell
  | live k v' cell isLive key value =>
    rw [cell, Cell.live.injEq] at hcell
    rw [value, hcell.2]

theorem cells_eq_empty_iff (h : m.Shape) (hi : i < m.cap) :
    m.cells i = .empty ↔ ¬ m.Inserted i ∧ ¬ m.Deleted i := by
  constructor
  · intro hcell
    cases h.slot hi with
    | live k v cell | deleted cell => rw [cell] at hcell; cases hcell
    | unused cell isLive isDeleted =>
      rw [h.isDeleted_eq hi] at isDeleted
      rw [h.isLive_eq hi] at isLive
      have hdel := of_decide_eq_false (returns.inj isDeleted)
      have hlive := of_decide_eq_false (returns.inj isLive)
      exact ⟨fun hins => hlive ⟨hins, hdel⟩, hdel⟩
  · rintro ⟨hins, hdel⟩
    rw [cells, if_neg hdel, if_neg hins]

theorem roomy_iff (h : m.Shape) : m.Roomy ↔ ∃ i < m.cap, m.cells i = .empty :=
  exists_congr fun _ => and_congr_right fun hi => (cells_eq_empty_iff h hi).symm

theorem present_iff (h : m.Shape) (key : K) :
    m.Present key ↔ ∃ i < m.cap, (m.cells i).key? = some ⟦key⟧ := by
  refine exists_congr fun i => and_congr_right fun hi => ?_
  constructor
  · rintro ⟨hins, hdel, k, hk, heq⟩
    obtain ⟨-, v, hv⟩ := h.live i hi hins hdel
    rw [cells_of_live hins hdel hk hv]
    exact congrArg some (key_eq_iff.mpr heq)
  · intro hkey
    cases h.slot hi with
    | deleted cell | unused cell => rw [cell] at hkey; cases hkey
    | live k v cell isLive key value =>
      rw [cell] at hkey
      rw [h.isLive_eq hi] at isLive
      obtain ⟨hins, hdel⟩ := of_decide_eq_true (returns.inj isLive)
      exact ⟨hins, hdel, k, key, key_eq_iff.mp (Option.some.inj hkey)⟩

/-! ## Paths -/

/-- The slots from one on, in the order in which the loops visit them. -/
def slotsFrom (cap i n : ℕ) : List ℕ := List.iterate (fun idx => (idx + 1) % cap) i n

/-- The slots for a key. After one round the loops would visit the same slots again. -/
def path (cap : ℕ) (q : KeyClass K) : List ℕ := slotsFrom cap (q.hash.toInt % cap).toNat cap

omit [Key K] in
theorem mem_slotsFrom (hi : i < cap) : j ∈ slotsFrom cap i n ↔ ∃ d < n, j = (i + d) % cap := by
  have hiter : ∀ d, (fun idx => (idx + 1) % cap)^[d] i = (i + d) % cap := by
    intro d
    induction d with
    | zero => exact (Nat.mod_eq_of_lt hi).symm
    | succ d ih =>
      rw [Function.iterate_succ_apply', ih, Nat.mod_add_mod]
      rfl
  rw [slotsFrom, List.mem_iterate]
  exact exists_congr fun d => and_congr_right fun _ => by rw [hiter, eq_comm]

omit [Key K] in
theorem mem_slotsFrom_cap (hi : i < cap) : j ∈ slotsFrom cap i cap ↔ j < cap := by
  rw [mem_slotsFrom hi]
  constructor
  · rintro ⟨d, -, rfl⟩
    exact Nat.mod_lt _ (by omega)
  · intro hj
    refine ⟨(j + cap - i) % cap, Nat.mod_lt _ (by omega), ?_⟩
    rw [Nat.add_mod_mod, show i + (j + cap - i) = j + cap by omega, Nat.add_mod_right,
      Nat.mod_eq_of_lt hj]

theorem start_lt (hcap : 0 < cap) (q : KeyClass K) : (q.hash.toInt % cap).toNat < cap := by
  have hlt := Int.emod_lt_of_pos q.hash.toInt (by omega : (0 : ℤ) < cap)
  omega

theorem mem_path (hcap : 0 < cap) (q : KeyClass K) : j ∈ path cap q ↔ j < cap :=
  mem_slotsFrom_cap (start_lt hcap q)

/-! ## The loops search the table -/

omit [Key K] in
/-- The mask of all bits below `n`, also for a negative number. -/
theorem land_two_pow_sub_one (n : ℕ) : x.land ((2 ^ n : ℕ) - 1) = x % (2 ^ n : ℕ) := by
  have hpos := Nat.two_pow_pos n
  have hmask : ((2 ^ n : ℕ) - 1 : ℤ) = (2 ^ n - 1 : ℕ) := by omega
  rw [hmask]
  cases x with
  | ofNat a =>
    change ((a &&& (2 ^ n - 1) : ℕ) : ℤ) = a % (2 ^ n : ℕ)
    rw [Nat.and_two_pow_sub_one_eq_mod, Int.natCast_emod]
  | negSucc a =>
    have hldiff : (2 ^ n - 1).ldiff a = 2 ^ n - (a % 2 ^ n + 1) := by
      refine Nat.eq_of_testBit_eq fun i => ?_
      rw [Nat.testBit_ldiff, Nat.testBit_two_pow_sub_one,
        Nat.testBit_two_pow_sub_succ (Nat.mod_lt _ hpos), Nat.testBit_mod_two_pow]
      by_cases hi : i < n <;> simp [hi]
    change (((2 ^ n - 1).ldiff a) : ℤ) = _
    rw [hldiff, Int.negSucc_emod _ (by omega), ← Int.natCast_emod]
    omega

omit [Key K] in
theorem land_neg_one : x.land (-1) = x := by
  cases x with
  | ofNat a =>
    refine congrArg Nat.cast (Nat.eq_of_testBit_eq fun i => ?_)
    rw [Nat.testBit_ldiff, Nat.zero_testBit, Bool.not_false, Bool.and_true]
  | negSucc a =>
    change Int.negSucc (a ||| 0) = _
    rw [Nat.or_zero]

omit [Key K] in
theorem Shape.mask_eq (h : m.Shape) (x : ℤ) : m.mask x = x % m.cap := by
  unfold mask
  rcases h.capacity with hcap | ⟨n, hcap⟩
  · rw [hcap]
    exact (land_neg_one x).trans (Int.emod_zero x).symm
  · rw [hcap]
    exact land_two_pow_sub_one x (n + 2)

omit [Key K] in
theorem Shape.mask_succ (h : m.Shape) (i : ℕ) : m.mask (i + 1) = ((i + 1) % m.cap : ℕ) := by
  rw [h.mask_eq, Int.natCast_emod]
  rfl

/-- What a loop ends with, for what the search of the table ends with. -/
def Matches (p : Probe) (r : ℕ × Bool) : Prop :=
  if r.2 then p = .found r.1 else ∃ i ins, p = .unused i ins ∧ ins.getD i = (r.1 : ℤ)

section Rounds

variable (key : K) (fuel : ℕ) (ins : Option ℤ)

theorem probe_live {k : K} (h : m.Shape) (hlive : m.isLive i = .returns true)
    (hkey : m.keys[i]? = some (some k)) :
    m.probe key (fuel + 1) i ins =
      if (⟦k⟧ : KeyClass K) = ⟦key⟧ then .returns (.found i)
      else m.probe key fuel ((i + 1) % m.cap : ℕ) ins := by
  rw [probe, hlive]
  simp only [returns_bind, if_true, getSlot_eq hkey, h.mask_succ, pure_eq]
  by_cases heq : Key.equals k key = true
  · rw [if_pos ⟨Key.hash_eq heq, heq⟩, if_pos (key_eq_iff.mpr heq)]
  · rw [if_neg fun hc => heq hc.2, if_neg fun hc => heq (key_eq_iff.mp hc)]

theorem probe_deleted (h : m.Shape) (hlive : m.isLive i = .returns false)
    (hdeleted : m.isDeleted i = .returns true) :
    m.probe key (fuel + 1) i ins =
      m.probe key fuel ((i + 1) % m.cap : ℕ) (ins.or (some (i : ℤ))) := by
  rw [probe, hlive]
  simp only [returns_bind, Bool.false_eq_true, if_false, hdeleted, if_true, h.mask_succ]

theorem probe_unused (hlive : m.isLive i = .returns false)
    (hdeleted : m.isDeleted i = .returns false) :
    m.probe key (fuel + 1) i ins = .returns (.unused i ins) := by
  rw [probe, hlive]
  simp only [returns_bind, Bool.false_eq_true, if_false, hdeleted, pure_eq]

end Rounds

/-- **A search that ends**: the loop ends as the search of the table does. -/
theorem probe_ends (h : m.Shape) (key : K) {r : ℕ × Bool} (hi : i < m.cap)
    {free : Option ℕ} (hsearch : search m.cells ⟦key⟧ (slotsFrom m.cap i n) free = some r) :
    ∃ p, Matches p r ∧ Ends (fun fuel => m.probe key fuel i (free.map Nat.cast)) p := by
  induction n generalizing i free with
  | zero => cases hsearch
  | succ n ih =>
    have hnext : (i + 1) % m.cap < m.cap := Nat.mod_lt _ (by omega)
    have hslots : slotsFrom m.cap i (n + 1) = i :: slotsFrom m.cap ((i + 1) % m.cap) n := rfl
    rw [hslots, search] at hsearch
    cases h.slot hi with
    | live k v cell isLive hkey value =>
      rw [cell] at hsearch
      have hround := fun fuel => probe_live key fuel (free.map Nat.cast) h isLive hkey
      by_cases heq : ⟦k⟧ = ⟦key⟧
      · simp only [if_pos heq] at hsearch hround
        cases hsearch
        exact ⟨.found i, by simp [Matches], (Ends.of_eq fun _ => rfl).succ rfl hround⟩
      · simp only [if_neg heq] at hsearch hround
        obtain ⟨p, hp, hends⟩ := ih hnext hsearch
        exact ⟨p, hp, hends.succ rfl hround⟩
    | deleted cell isLive isDeleted =>
      rw [cell] at hsearch
      have hround := fun fuel => probe_deleted key fuel (free.map Nat.cast) h isLive isDeleted
      obtain ⟨p, hp, hends⟩ := ih hnext hsearch
      have hfree : (free.or (some i)).map Nat.cast =
          (free.map Nat.cast).or (some (i : ℤ)) := by cases free <;> rfl
      rw [hfree] at hends
      exact ⟨p, hp, hends.succ rfl hround⟩
    | unused cell isLive isDeleted =>
      rw [cell] at hsearch
      cases hsearch
      refine ⟨.unused i (free.map Nat.cast), ?_, (Ends.of_eq fun _ => rfl).succ rfl
        fun fuel => probe_unused key fuel _ isLive isDeleted⟩
      refine ⟨_, _, rfl, ?_⟩
      cases free <;> rfl

/-- **A search without end**: the table is full of other keys and of deleted ones. -/
theorem probe_running (h : m.Shape) (key : K) (hfull : ¬ m.Roomy) (habsent : ¬ m.Present key)
    (hi : i < m.cap) (fuel : ℕ) (ins : Option ℤ) : m.probe key fuel i ins = .running := by
  rw [roomy_iff h] at hfull
  rw [present_iff h] at habsent
  induction fuel generalizing i ins with
  | zero => rfl
  | succ fuel ih =>
    have hnext : (i + 1) % m.cap < m.cap := Nat.mod_lt _ (by omega)
    cases h.slot hi with
    | live k v cell isLive hkey value =>
      rw [probe_live key fuel ins h isLive hkey, if_neg, ih hnext]
      intro heq
      exact habsent ⟨i, hi, by rw [cell, heq]; rfl⟩
    | deleted cell isLive isDeleted =>
      rw [probe_deleted key fuel ins h isLive isDeleted, ih hnext]
    | unused cell => exact absurd ⟨i, hi, cell⟩ hfull

theorem find_eq (h : m.Shape) (hcap : 0 < m.cap) (fuel : ℕ) (key : K) :
    m.find fuel key = m.probe key fuel (((KeyClass.hash ⟦key⟧).toInt % m.cap).toNat : ℕ) none := by
  have hnn := Int.emod_nonneg (Key.hash key).toInt (by omega : (m.cap : ℤ) ≠ 0)
  rw [find, h.mask_eq]
  congr 1
  exact (Int.toNat_of_nonneg hnn).symm

end HashMap

end Dora.Stdlib
