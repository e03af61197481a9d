import Mathlib.Algebra.Group.Int.Defs
import Mathlib.Algebra.Group.Nat.Defs
import Mathlib.Data.Finset.Basic

/-!
# Sets of bits

`BitSet` is a set of numbers below a capacity, in words of 32 bits, and `BitVec`, here `BitVector`,
is such a set that grows. The bit of a number is found by subtracting the index of its word, not
that of the first number of the word. Shifts only look at the lowest five bits of their count, so
this permutes the bits within each word.

## Main results

* `bitSets_refine`: both are finite sets, for every sequence of calls
-/

namespace Dora.Stdlib

open BitVec

/-! ## Words -/

namespace Words

/-- The word of a number. -/
def entryIdx (idx : ℕ) : ℕ := idx / 32

/-- The bit of a number in its word; a shift takes its count modulo 32. -/
def bit (idx : ℕ) : ℕ := (idx - entryIdx idx) % 32

/-- `1 << (idx - entry_idx)`. -/
def mask (idx : ℕ) : BitVec 32 := 1#32 <<< bit idx

/-- **The numbers in the set.** -/
def Mem (data : List (BitVec 32)) (idx : ℕ) : Prop :=
  ∃ value, data[entryIdx idx]? = some value ∧ value.getLsbD (bit idx) = true

variable {data : List (BitVec 32)} {idx other : ℕ} {value value' : BitVec 32}

theorem mem_iff (hvalue : data[entryIdx idx]? = some value)
    (h : entryIdx other = entryIdx idx) : Mem data other ↔ value.getLsbD (bit other) = true := by
  rw [Mem, h, hvalue]
  exact ⟨fun ⟨v, hv, hb⟩ => Option.some.inj hv ▸ hb, fun hb => ⟨value, rfl, hb⟩⟩

instance (data : List (BitVec 32)) (idx : ℕ) : Decidable (Mem data idx) :=
  match h : data[entryIdx idx]? with
  | none => isFalse fun ⟨_, hv, _⟩ => nomatch h.symm.trans hv
  | some value => decidable_of_iff (value.getLsbD (bit idx) = true) (mem_iff h rfl).symm

theorem mask_eq (idx : ℕ) : mask idx = BitVec.twoPow 32 (bit idx) := rfl

theorem bit_lt (idx : ℕ) : bit idx < 32 := Nat.mod_lt _ (by decide)

theorem bit_eq_iff (h : entryIdx other = entryIdx idx) : bit other = bit idx ↔ other = idx := by
  simp only [bit, entryIdx] at h ⊢
  omega

theorem and_mask_ne_zero (value : BitVec 32) (idx : ℕ) :
    value &&& mask idx ≠ 0 ↔ value.getLsbD (bit idx) = true := by
  rw [mask_eq, and_twoPow]
  have hne : BitVec.twoPow 32 (bit idx) ≠ 0#32 := by
    intro h
    have hbit : (BitVec.twoPow 32 (bit idx)).getLsbD (bit idx) = true := by
      simp [bit_lt idx]
    rw [h] at hbit
    simp at hbit
  cases hbit : value.getLsbD (bit idx) with
  | true => simpa using hne
  | false => simp

section

variable (hvalue : data[entryIdx idx]? = some value)
include hvalue

theorem mem_set :
    Mem (data.set (entryIdx idx) value') other ↔
      if entryIdx other = entryIdx idx then value'.getLsbD (bit other) = true
      else Mem data other := by
  have hlt := (List.getElem?_eq_some_iff.mp hvalue).1
  by_cases h : entryIdx other = entryIdx idx
  · rw [if_pos h]
    exact mem_iff (List.getElem?_set_self hlt) h
  · rw [if_neg h, Mem, List.getElem?_set_ne (Ne.symm h)]
    exact Iff.rfl

theorem mem_set_or :
    Mem (data.set (entryIdx idx) (value ||| mask idx)) other ↔ other = idx ∨ Mem data other := by
  rw [mem_set hvalue]
  by_cases hentry : entryIdx other = entryIdx idx
  · rw [if_pos hentry, mem_iff hvalue hentry, getLsbD_or, mask_eq, getLsbD_twoPow,
      ← bit_eq_iff hentry, Bool.or_eq_true, Bool.and_eq_true, decide_eq_true_iff,
      decide_eq_true_iff]
    have hlt := bit_lt idx
    exact ⟨fun h => h.elim .inr fun h => .inl h.2.symm,
      fun h => h.elim (fun h => .inr ⟨hlt, h.symm⟩) .inl⟩
  · rw [if_neg hentry]
    exact ⟨.inr, fun h => h.resolve_left fun heq => hentry (congrArg entryIdx heq)⟩

theorem mem_set_and_not :
    Mem (data.set (entryIdx idx) (value &&& ~~~mask idx)) other ↔ other ≠ idx ∧ Mem data other := by
  rw [mem_set hvalue]
  by_cases hentry : entryIdx other = entryIdx idx
  · have hlt := bit_lt idx
    have hlt' := bit_lt other
    rw [if_pos hentry, mem_iff hvalue hentry, getLsbD_and, getLsbD_not, mask_eq,
      getLsbD_twoPow, ne_eq, ← bit_eq_iff hentry]
    by_cases heq : bit other = bit idx
    · simp [heq]
    · simp [heq, Ne.symm heq, hlt']
  · rw [if_neg hentry]
    exact ⟨fun h => ⟨fun heq => hentry (congrArg entryIdx heq), h⟩, And.right⟩

end

theorem not_mem_replicate (n idx : ℕ) : ¬ Mem (List.replicate n 0) idx := by
  rintro ⟨value, hvalue, hbit⟩
  obtain rfl := (List.mem_replicate.mp (List.mem_of_getElem? hvalue)).2
  simp at hbit

theorem mem_append_replicate (n : ℕ) : Mem (data ++ List.replicate n 0) idx ↔ Mem data idx := by
  by_cases h : entryIdx idx < data.length
  · rw [Mem, List.getElem?_append_left h]
    exact Iff.rfl
  · have hnone : data[entryIdx idx]? = none := List.getElem?_eq_none_iff.mpr (Nat.not_lt.mp h)
    refine ⟨?_, fun ⟨value, hvalue, _⟩ => nomatch hnone.symm.trans hvalue⟩
    rintro ⟨value, hvalue, hbit⟩
    rw [List.getElem?_append_right (Nat.not_lt.mp h)] at hvalue
    obtain rfl := (List.mem_replicate.mp (List.mem_of_getElem? hvalue)).2
    simp at hbit

end Words

open Words

/-! ## Sets of a fixed capacity -/

structure BitSet where
  capacity : ℕ
  data : List (BitVec 32)
  length_data : data.length = (capacity + 31) / 32
deriving DecidableEq

namespace BitSet

def new (capacity : ℕ) : BitSet where
  capacity
  data := List.replicate ((capacity + 31) / 32) 0
  length_data := List.length_replicate

variable (s : BitSet)

/-- The index is checked against the capacity. -/
def inBounds (idx : ℤ) : Bool := 0 ≤ idx && idx < s.capacity

def contains (idx : ℤ) : Option Bool :=
  if s.inBounds idx then do
    let value ← s.data[entryIdx idx.toNat]?
    some (value &&& mask idx.toNat ≠ 0)
  else none

/-- A word is replaced. -/
def setEntry (idx : ℕ) (value : BitVec 32) : BitSet where
  capacity := s.capacity
  data := s.data.set (entryIdx idx) value
  length_data := by rw [List.length_set, s.length_data]

def insert (idx : ℤ) : Option BitSet :=
  if s.inBounds idx then do
    let value ← s.data[entryIdx idx.toNat]?
    some (s.setEntry idx.toNat (value ||| mask idx.toNat))
  else none

def remove (idx : ℤ) : Option BitSet :=
  if s.inBounds idx then do
    let value ← s.data[entryIdx idx.toNat]?
    some (s.setEntry idx.toNat (value &&& ~~~mask idx.toNat))
  else none

variable {s} {idx other : ℕ}

theorem inBounds_iff : s.inBounds (idx : ℤ) = true ↔ idx < s.capacity := by
  rw [inBounds, Bool.and_eq_true, decide_eq_true_iff, decide_eq_true_iff]
  omega

theorem exists_entry (h : idx < s.capacity) : ∃ value, s.data[entryIdx idx]? = some value := by
  have hlt : entryIdx idx < s.data.length := by
    rw [s.length_data, entryIdx]
    omega
  exact ⟨_, List.getElem?_eq_getElem hlt⟩

/-- `contains` looks up a member, and fails out of bounds. -/
theorem contains_eq (h : idx < s.capacity) : s.contains idx = some (decide (Mem s.data idx)) := by
  obtain ⟨value, hvalue⟩ := exists_entry h
  rw [contains, if_pos (inBounds_iff.mpr h), Int.toNat_natCast, hvalue]
  refine congrArg some (decide_eq_decide.mpr ?_)
  rw [and_mask_ne_zero, mem_iff hvalue rfl]

/-- **Insertion** within the capacity adds one member. -/
theorem exists_insert (h : idx < s.capacity) :
    ∃ s', s.insert idx = some s' ∧ s'.capacity = s.capacity ∧
      ∀ other, Mem s'.data other ↔ other = idx ∨ Mem s.data other := by
  obtain ⟨value, hvalue⟩ := exists_entry h
  refine ⟨s.setEntry idx (value ||| mask idx), ?_, rfl, fun other => mem_set_or hvalue⟩
  rw [insert, if_pos (inBounds_iff.mpr h), Int.toNat_natCast, hvalue]
  rfl

/-- **Removal** within the capacity takes one member away. -/
theorem exists_remove (h : idx < s.capacity) :
    ∃ s', s.remove idx = some s' ∧ s'.capacity = s.capacity ∧
      ∀ other, Mem s'.data other ↔ other ≠ idx ∧ Mem s.data other := by
  obtain ⟨value, hvalue⟩ := exists_entry h
  refine ⟨s.setEntry idx (value &&& ~~~mask idx), ?_, rfl, fun other => mem_set_and_not hvalue⟩
  rw [remove, if_pos (inBounds_iff.mpr h), Int.toNat_natCast, hvalue]
  rfl

theorem insert_eq_none {idx : ℤ} (h : idx < 0 ∨ s.capacity ≤ idx) : s.insert idx = none := by
  rw [insert, if_neg]
  rw [inBounds, Bool.and_eq_true, decide_eq_true_iff, decide_eq_true_iff]
  omega

theorem mem_of_insert {idx : ℤ} {s' : BitSet} (h : s.insert idx = some s') :
    0 ≤ idx ∧ idx < s.capacity ∧ s'.capacity = s.capacity ∧
      ∀ other : ℕ, Mem s'.data other ↔ (other : ℤ) = idx ∨ Mem s.data other := by
  by_cases hin : idx < 0 ∨ s.capacity ≤ idx
  · rw [insert_eq_none hin] at h
    cases h
  · obtain ⟨n, rfl⟩ : ∃ n : ℕ, idx = n := ⟨idx.toNat, by omega⟩
    obtain ⟨s1, h1, hcap, hmem⟩ := exists_insert (show n < s.capacity by omega)
    obtain rfl := Option.some.inj (h1.symm.trans h)
    refine ⟨by omega, by omega, hcap, fun other => ?_⟩
    rw [hmem, Int.natCast_inj]

theorem contains_of_capacity_eq_zero (h : s.capacity = 0) (idx : ℤ) : s.contains idx = none := by
  refine if_neg fun hin => ?_
  rw [inBounds, h, Bool.and_eq_true, decide_eq_true_iff, decide_eq_true_iff] at hin
  omega

theorem not_mem_new (capacity idx : ℕ) : ¬ Mem (new capacity).data idx := not_mem_replicate _ _

end BitSet

/-! ## Growing sets -/

structure BitVector where
  data : List (BitVec 32)
deriving DecidableEq

namespace BitVector

def new : BitVector := ⟨[]⟩

variable (s : BitVector)

def contains (idx : ℕ) : Bool :=
  if idx ≥ s.data.length * 32 then false
  else match s.data[entryIdx idx]? with
    | some value => value &&& mask idx ≠ 0
    | none => false

/-- The words are copied to a larger array. -/
def ensureCapacity (newcap : ℕ) : BitVector :=
  if newcap < s.data.length * 32 ∨ newcap = 0 then s
  else ⟨s.data ++ List.replicate ((newcap + 31) / 32 - s.data.length) 0⟩

def insert (idx : ℕ) : BitVector :=
  let grown := s.ensureCapacity (idx + 1)
  match grown.data[entryIdx idx]? with
  | some value => ⟨grown.data.set (entryIdx idx) (value ||| mask idx)⟩
  | none => grown

def remove (idx : ℕ) : BitVector :=
  if idx ≥ s.data.length * 32 then s
  else match s.data[entryIdx idx]? with
    | some value => ⟨s.data.set (entryIdx idx) (value &&& ~~~mask idx)⟩
    | none => s

variable {s} {idx other : ℕ}

theorem contains_iff : s.contains idx = true ↔ Mem s.data idx := by
  rw [contains]
  split
  · next h =>
    have hnone : s.data[entryIdx idx]? = none := by
      rw [List.getElem?_eq_none_iff, entryIdx]
      omega
    exact ⟨fun h => (Bool.false_ne_true h).elim, fun ⟨_, hv, _⟩ => nomatch hnone.symm.trans hv⟩
  · cases hvalue : s.data[entryIdx idx]? with
    | none =>
      exact ⟨fun h => (Bool.false_ne_true h).elim, fun ⟨_, hv, _⟩ => nomatch hvalue.symm.trans hv⟩
    | some value =>
      rw [mem_iff hvalue rfl, ← and_mask_ne_zero]
      exact decide_eq_true_iff

theorem mem_ensureCapacity (newcap : ℕ) :
    Mem (s.ensureCapacity newcap).data idx ↔ Mem s.data idx := by
  rw [ensureCapacity]
  split
  · exact Iff.rfl
  · exact mem_append_replicate _

theorem lt_ensureCapacity (idx : ℕ) : entryIdx idx < (s.ensureCapacity (idx + 1)).data.length := by
  rw [ensureCapacity, entryIdx]
  split
  · omega
  · rw [List.length_append, List.length_replicate]
    omega

/-- **Insertion** adds one member. -/
theorem mem_insert : Mem (s.insert idx).data other ↔ other = idx ∨ Mem s.data other := by
  have hvalue := List.getElem?_eq_getElem (lt_ensureCapacity (s := s) idx)
  simp only [insert, hvalue]
  rw [mem_set_or hvalue, mem_ensureCapacity]

/-- **Removal** takes one member away. -/
theorem mem_remove : Mem (s.remove idx).data other ↔ other ≠ idx ∧ Mem s.data other := by
  rw [remove]
  cases hvalue : s.data[entryIdx idx]? with
  | some value =>
    have hlt := (List.getElem?_eq_some_iff.mp hvalue).1
    rw [if_neg (by unfold entryIdx at hlt; omega)]
    exact mem_set_and_not hvalue
  | none =>
    -- a number without a word is no member
    rw [ite_self]
    refine ⟨fun h => ⟨?_, h⟩, And.right⟩
    rintro rfl
    obtain ⟨value, hsome, -⟩ := h
    exact nomatch hvalue.symm.trans hsome

theorem not_mem_new (idx : ℕ) : ¬ Mem new.data idx := not_mem_replicate 0 idx

end BitVector

/-! ## Runs -/

/-- A call that changes a set. -/
inductive SetCall
  | insert (idx : ℕ)
  | remove (idx : ℕ)

namespace SetCall

def idx : SetCall → ℕ
  | insert idx | remove idx => idx

/-- **What a call means** for a finite set. -/
def apply (members : Finset ℕ) : SetCall → Finset ℕ
  | insert idx => Insert.insert idx members
  | remove idx => members.erase idx

end SetCall

def BitSet.exec (s : BitSet) : SetCall → Option BitSet
  | .insert idx => s.insert idx
  | .remove idx => s.remove idx

def BitVector.exec (s : BitVector) : SetCall → BitVector
  | .insert idx => s.insert idx
  | .remove idx => s.remove idx

section Runs

variable {members : Finset ℕ} {c : SetCall} {calls : List SetCall}

theorem BitSet.exists_exec {s : BitSet} (hs : ∀ i, Mem s.data i ↔ i ∈ members)
    (hc : c.idx < s.capacity) :
    ∃ s', s.exec c = some s' ∧ s'.capacity = s.capacity ∧
      ∀ i, Mem s'.data i ↔ i ∈ c.apply members := by
  cases c with
  | insert idx =>
    obtain ⟨s', hs', hcap, hmem⟩ := exists_insert hc
    refine ⟨s', hs', hcap, fun i => ?_⟩
    rw [hmem, hs]
    exact Finset.mem_insert.symm
  | remove idx =>
    obtain ⟨s', hs', hcap, hmem⟩ := exists_remove hc
    refine ⟨s', hs', hcap, fun i => ?_⟩
    rw [hmem, hs]
    exact Finset.mem_erase.symm

theorem BitSet.exists_run {s : BitSet} (hs : ∀ i, Mem s.data i ↔ i ∈ members)
    (hcalls : ∀ c ∈ calls, c.idx < s.capacity) :
    ∃ s', calls.foldlM BitSet.exec s = some s' ∧ s'.capacity = s.capacity ∧
      ∀ i, Mem s'.data i ↔ i ∈ calls.foldl SetCall.apply members := by
  induction calls generalizing s members with
  | nil => exact ⟨s, rfl, rfl, hs⟩
  | cons c calls ih =>
    obtain ⟨hc, hrest⟩ := List.forall_mem_cons.mp hcalls
    obtain ⟨s1, h1, hcap, hmem⟩ := exists_exec hs hc
    obtain ⟨s', hs', hcap', hmem'⟩ := ih hmem (hcap ▸ hrest)
    refine ⟨s', ?_, hcap'.trans hcap, hmem'⟩
    rw [List.foldlM_cons, h1]
    exact hs'

theorem BitVector.mem_run {s : BitVector} (hs : ∀ i, Mem s.data i ↔ i ∈ members) (i : ℕ) :
    Mem (calls.foldl BitVector.exec s).data i ↔ i ∈ calls.foldl SetCall.apply members := by
  induction calls generalizing s members with
  | nil => exact hs i
  | cons c calls ih =>
    refine ih fun j => ?_
    cases c with
    | insert idx => rw [exec, mem_insert, hs, SetCall.apply, Finset.mem_insert]
    | remove idx => rw [exec, mem_remove, hs, SetCall.apply, Finset.mem_erase]

/-- **Sets of bits are finite sets**: after every sequence of calls, with numbers in range for a
`BitSet`, `contains` says of each number whether it was inserted and not removed since. -/
theorem bitSets_refine (calls : List SetCall) :
    (∀ capacity, (∀ c ∈ calls, c.idx < capacity) → ∃ s,
      calls.foldlM BitSet.exec (BitSet.new capacity) = some s ∧ ∀ i < capacity,
        s.contains i = some (decide (i ∈ calls.foldl SetCall.apply ∅))) ∧
    ∀ i, (calls.foldl BitVector.exec BitVector.new).contains i =
      decide (i ∈ calls.foldl SetCall.apply ∅) := by
  refine ⟨fun capacity hcalls => ?_, fun i => ?_⟩
  · have hnew (i : ℕ) : Mem (BitSet.new capacity).data i ↔ i ∈ ∅ :=
      iff_of_false (BitSet.not_mem_new capacity i) (Finset.notMem_empty i)
    obtain ⟨s, hs, hcap, hmem⟩ := BitSet.exists_run hnew hcalls
    refine ⟨s, hs, fun i hi => ?_⟩
    rw [BitSet.contains_eq (hcap ▸ hi), Option.some.injEq, decide_eq_decide]
    exact hmem i
  · have hnew (i : ℕ) : Mem BitVector.new.data i ↔ i ∈ ∅ :=
      iff_of_false (BitVector.not_mem_new i) (Finset.notMem_empty i)
    rw [Bool.eq_iff_iff, decide_eq_true_iff, BitVector.contains_iff]
    exact BitVector.mem_run hnew i

/-- Two numbers with the same bit in different words, of which the first one is removed again. -/
def sameBitCalls : List SetCall := [.insert 31, .insert 32, .remove 31]

theorem bitSets_refine_sameBit :
    (∃ s, sameBitCalls.foldlM BitSet.exec (BitSet.new 64) = some s ∧ ∀ i : ℕ, i < 64 →
      s.contains i = some (decide (i ∈ sameBitCalls.foldl SetCall.apply ∅))) ∧
    ∀ i, (sameBitCalls.foldl BitVector.exec BitVector.new).contains i =
      decide (i ∈ sameBitCalls.foldl SetCall.apply ∅) :=
  ⟨(bitSets_refine sameBitCalls).1 64 (by decide), (bitSets_refine sameBitCalls).2⟩

end Runs

end Dora.Stdlib
