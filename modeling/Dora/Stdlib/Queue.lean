import Dora.Lib.Calls
import Dora.Stdlib.Arrays

/-!
# Queues

`Queue` keeps its values in an array in which the window of used slots wraps around. A slot that was
never written, or whose references were killed, holds no value. For some types of values the
compiler cannot make the code for `dequeue`.

## Main definitions

* `Queue.exec`, `QueueCall.apply`: a call on a queue, and on a list of values
* `Queue.Holds`: the values that a queue holds, and where

## Main results

* `Queue.exec_refines`: every call keeps the queue in step with the list
* `Queue.refines_iff`: a sequence of calls does, unless `dequeue` cannot be compiled
-/

namespace Dora.Stdlib

open List Dora.Lib

structure Queue (α : Type) where
  elements : List (Option α)
  front : ℕ
  count : ℕ

inductive QueueCall (α : Type)
  | enqueue (value : α)
  | dequeue
  | size
  | isEmpty

inductive QueueAnswer (α : Type)
  | unit
  | value (value : Option α)
  | size (size : ℕ)
  | isEmpty (isEmpty : Bool)

variable {α : Type}

namespace Queue

def new : Queue α := ⟨replicate 4 none, 0, 0⟩

section

variable (q : Queue α)

def getEnd : ℕ :=
  let idx := q.front + q.count
  if idx < q.elements.length then idx else idx - q.elements.length

/-- The copy into a larger array. -/
def grow : Option (Queue α) := do
  let newelements := replicate (q.elements.length * 2) none
  let len := q.elements.length - q.front
  let newelements ← copyArray q.elements q.front newelements 0 len
  let newelements ←
    if len < q.count then copyArray q.elements 0 newelements len (q.count - len)
    else some newelements
  some ⟨newelements, 0, q.count⟩

def enqueue (value : α) : Option (Queue α) := do
  let q ← if q.count = q.elements.length then q.grow else some q
  some { q with elements := ← arraySet q.elements q.getEnd (some value), count := q.count + 1 }

def moveFront : Queue α :=
  { q with front := if q.front + 1 = q.elements.length then 0 else q.front + 1 }

/-- The slot of the value with a number of values before it. -/
def slotAt (i : ℕ) : ℕ := getEnd { q with count := i }

end

variable [Element α] (q : Queue α)

/-- `dequeue`. A method is compiled when it is called for the first time, and the compiler panics
if there is no code for `unsafeKillRefs`. -/
def dequeue : Option (Option α × Queue α) := do
  let stores ← emitUnsafeKillRefs (elementType α)
  if 0 < q.count then
    let value ← q.elements[q.front]?
    let q := moveFront { q with elements := killRefs stores q.elements q.front }
    some (value, { q with count := q.count - 1 })
  else none

def exec : QueueCall α → Option (QueueAnswer α × Queue α)
  | .enqueue value => do some (.unit, ← q.enqueue value)
  | .dequeue => do
    let (value, q) ← q.dequeue
    some (.value value, q)
  | .size => some (.size q.count, q)
  | .isEmpty => some (.isEmpty (q.count == 0), q)

/-- **The values in the queue.** All other slots are empty if the values may have references. -/
structure Holds (values : List α) : Prop where
  front : q.front < q.elements.length
  count : q.count = values.length
  fits : values.length ≤ q.elements.length
  slots : ∀ i < q.elements.length, i < values.length ∨ (elementType α).hasRefs →
    q.elements[q.slotAt i]? = some values[i]?

end Queue

/-- **What a call means** for a list of values. -/
def QueueCall.apply (values : List α) : QueueCall α → Option (QueueAnswer α × List α)
  | enqueue value => some (.unit, values ++ [value])
  | dequeue =>
    match values with
    | [] => none
    | value :: values => some (.value (some value), values)
  | size => some (.size values.length, values)
  | isEmpty => some (.isEmpty values.isEmpty, values)

namespace Queue

variable {q : Queue α} {values : List α}

theorem slotAt_eq (i : ℕ) :
    q.slotAt i =
      if q.front + i < q.elements.length then q.front + i else q.front + i - q.elements.length :=
  rfl

/-- Every slot is that of some place. -/
theorem exists_slotAt (hfront : q.front < q.elements.length) {slot : ℕ}
    (hslot : slot < q.elements.length) : ∃ i < q.elements.length, q.slotAt i = slot := by
  by_cases h : q.front ≤ slot
  · exact ⟨slot - q.front, by omega, by rw [slotAt_eq, if_pos] <;> omega⟩
  · exact ⟨slot + q.elements.length - q.front, by omega, by rw [slotAt_eq, if_neg] <;> omega⟩

variable [Element α]

theorem holds_new : (new : Queue α).Holds [] := by
  refine ⟨Nat.zero_lt_succ 3, rfl, Nat.zero_le 4, fun i (hi : i < 4) _ => ?_⟩
  have hslot : (new : Queue α).slotAt i = i := by simp [slotAt_eq, new, hi]
  rw [hslot]
  exact getElem?_replicate_of_lt hi

namespace Holds

variable (h : q.Holds values)

include h

/-- **The copy** puts the values at the start of the new array. -/
theorem grow (hfull : q.count = q.elements.length) :
    ∃ q', q.grow = some q' ∧ q'.Holds values ∧ q'.count < q'.elements.length := by
  obtain ⟨hfront, hcount, hfits, hslots⟩ := h
  generalize hlen : q.elements.length - q.front = len
  obtain ⟨array1, h1, hlen1, hget1⟩ := copyArray_spec
    (show q.front + len ≤ q.elements.length by omega)
    (show 0 + len ≤ (replicate (q.elements.length * 2) none).length by rw [length_replicate]; omega)
  rw [length_replicate] at hlen1
  obtain ⟨array2, h2, hlen2, hget2⟩ := copyArray_spec
    (show 0 + (q.count - len) ≤ q.elements.length by omega)
    (show len + (q.count - len) ≤ array1.length by omega)
  refine ⟨⟨array2, 0, q.count⟩, ?_, ⟨?_, hcount, ?_,
    fun i (hi : i < array2.length) hvalue => ?_⟩, ?_⟩
  · simp only [Queue.grow, hlen, h1, Option.bind_eq_bind, Option.bind_some]
    split
    · rw [h2, Option.bind_some]
    · -- nothing is left for the second copy
      rw [Nat.sub_eq_zero_of_le (by omega)] at h2
      cases h2
      rfl
  · exact show 0 < array2.length by omega
  · exact show values.length ≤ array2.length by omega
  · have hslot : slotAt ⟨array2, 0, q.count⟩ i = i := by rw [slotAt_eq]; simp [hi]
    rw [hslot, hget2, hget1]
    by_cases hold : i < q.elements.length
    · rw [← hslots i hold hvalue, slotAt_eq]
      by_cases hwrap : i < len
      · rw [if_neg (by omega), if_pos (by omega), if_pos (by omega), Nat.sub_zero]
      · rw [if_pos (by omega), if_neg (by omega)]
        congr 1
        omega
    · rw [if_neg (by omega), if_neg (by omega), getElem?_replicate_of_lt (by omega),
        getElem?_eq_none (by omega)]
  · exact show q.count < array2.length by omega

/-- **A value at the end**, where there is room. -/
theorem set (hroom : q.count < q.elements.length) (value : α) :
    Holds ⟨q.elements.set q.getEnd (some value), q.front, q.count + 1⟩ (values ++ [value]) := by
  obtain ⟨hfront, hcount, hfits, hslots⟩ := h
  refine ⟨by rwa [length_set], by simp [hcount], by simp; omega, fun i hi hvalue => ?_⟩
  rw [length_set] at hi
  rw [length_append, length_singleton] at hvalue
  have hslot : slotAt ⟨q.elements.set q.getEnd (some value), q.front, q.count + 1⟩ i =
    q.slotAt i := by simp only [slotAt_eq, length_set]
  have hend : q.getEnd = q.slotAt values.length := by rw [← hcount]; rfl
  rw [hslot, hend]
  by_cases hi' : i = values.length
  · rw [hi', getElem?_set_self, getElem?_concat_length]
    rw [slotAt_eq]
    split <;> omega
  · rw [getElem?_set_ne, hslots i hi (hvalue.imp_left fun _ => by omega), getElem?_append]
    · split
      · rfl
      · rw [getElem?_eq_none (by omega), getElem?_eq_none (by simp; omega)]
    · rw [slotAt_eq, slotAt_eq]
      split <;> split <;> omega

theorem enqueue (value : α) : ∃ q', q.enqueue value = some q' ∧ q'.Holds (values ++ [value]) := by
  have hset {q : Queue α} (h : q.Holds values) (hroom : q.count < q.elements.length) :
      arraySet q.elements q.getEnd (some value) = some (q.elements.set q.getEnd (some value)) := by
    refine if_pos ?_
    have hfront := h.front
    rw [getEnd]
    split <;> omega
  by_cases hfull : q.count = q.elements.length
  · obtain ⟨q', hgrow, h', hroom⟩ := h.grow hfull
    exact ⟨_, by simp [Queue.enqueue, hfull, hgrow, hset h' hroom], h'.set hroom value⟩
  · have hroom : q.count < q.elements.length := by
      have := h.count
      have := h.fits
      omega
    exact ⟨_, by simp [Queue.enqueue, hfull, hset h hroom], h.set hroom value⟩

end Holds

theorem Holds.dequeue {value : α} (h : q.Holds (value :: values))
    (hkillable : (elementType α).killable) :
    ∃ q', q.dequeue = some (some value, q') ∧ q'.Holds values := by
  obtain ⟨hfront, hcount, hfits, hslots⟩ := h
  rw [length_cons] at hcount hfits
  obtain ⟨stores, hemit, hstores⟩ := exists_emitUnsafeKillRefs hkillable
  have hfirst : q.elements[q.front]? = some (some value) := by
    have := hslots 0 (by omega) (.inl (Nat.zero_lt_succ _))
    rwa [slotAt_eq, Nat.add_zero, if_pos hfront] at this
  let next := if q.front + 1 = q.elements.length then 0 else q.front + 1
  have hnext : next < q.elements.length := by simp only [next]; split <;> omega
  refine ⟨⟨killRefs stores q.elements q.front, next, values.length⟩, ?_, by rwa [length_killRefs],
    rfl, by rw [length_killRefs]; omega, fun i hi hvalue => ?_⟩
  · simp [Queue.dequeue, hemit, hfirst, moveFront, length_killRefs, hcount, next]
  · rw [length_killRefs] at hi
    have hslot : slotAt ⟨killRefs stores q.elements q.front, next, values.length⟩ i =
        if i + 1 = q.elements.length then q.front else q.slotAt (i + 1) := by
      simp only [slotAt_eq, length_killRefs, next]
      split_ifs <;> omega
    rw [hslot]
    split
    · -- the slot that was freed is the last one now
      rw [hstores (hvalue.resolve_left (by omega)), killRefs, if_pos rfl, getElem?_set_self hfront,
        getElem?_eq_none (by omega)]
    · have hne : q.front ≠ q.slotAt (i + 1) := by
        rw [slotAt_eq]
        split <;> omega
      rw [getElem?_killRefs_ne hne, hslots (i + 1) (by omega) (hvalue.imp_left Nat.succ_lt_succ),
        getElem?_cons_succ]

/-- **A call** is that of the list, if it is none of `dequeue` for a type without code for it. -/
theorem exec_refines {call : QueueCall α} (hdequeue : call = .dequeue → (elementType α).killable)
    {q : Queue α} {answer : QueueAnswer α} {values values' : List α} (h : q.Holds values)
    (hcall : call.apply values = some (answer, values')) :
    ∃ q', q.exec call = some (answer, q') ∧ q'.Holds values' := by
  cases call with
  | enqueue value =>
    cases hcall
    obtain ⟨q', hq', h'⟩ := h.enqueue value
    exact ⟨q', by simp [exec, hq'], h'⟩
  | dequeue =>
    cases values with
    | nil => cases hcall
    | cons value values =>
      cases hcall
      obtain ⟨q', hq', h'⟩ := h.dequeue (hdequeue rfl)
      exact ⟨q', by simp [exec, hq'], h'⟩
  | size =>
    cases hcall
    exact ⟨q, by rw [exec, h.count], h⟩
  | isEmpty =>
    cases hcall
    exact ⟨q, by cases values <;> simp [exec, h.count], h⟩

theorem killable_of_exec {x : QueueAnswer α × Queue α} (h : q.exec .dequeue = some x) :
    (elementType α).killable := by
  obtain ⟨r, hdequeue, -⟩ := Option.bind_eq_some_iff.mp h
  obtain ⟨stores, hemit, -⟩ := Option.bind_eq_some_iff.mp hdequeue
  exact killable_of_emit hemit

/-- No slot outside the window has a reference in it. -/
def NoStaleRefs (q : Queue α) : Prop :=
  (elementType α).hasRefs →
    ∀ slot value, q.elements[slot]? = some (some value) → ∃ i < q.count, slot = q.slotAt i

theorem Holds.noStaleRefs (h : q.Holds values) : q.NoStaleRefs := by
  intro hrefs slot value hslot
  obtain ⟨i, hi, rfl⟩ := exists_slotAt h.front (List.getElem?_eq_some_iff.mp hslot).1
  rw [h.slots i hi (.inr hrefs)] at hslot
  exact ⟨i, h.count ▸ (List.getElem?_eq_some_iff.mp (Option.some.inj hslot)).1, rfl⟩

/-- **A queue is a list of values** for every sequence of calls that never dequeues from an empty
list, if there is code for `dequeue` or it is not called. -/
theorem refines_iff {calls : List (QueueCall α)} {answers : List (QueueAnswer α)}
    (h : runCalls QueueCall.apply [] calls = some (answers, values)) :
    (∃ q, runCalls exec new calls = some (answers, q) ∧ q.NoStaleRefs) ↔
      (.dequeue ∈ calls → (elementType α).killable) := by
  constructor
  · rintro ⟨q, hrun, -⟩ hmem
    obtain ⟨q', x, hexec⟩ := exists_exec_of_mem hmem hrun
    exact killable_of_exec hexec
  · intro hkillable
    have hstep : ∀ call ∈ calls, call = .dequeue → (elementType α).killable := by
      rintro call hmem rfl
      exact hkillable hmem
    obtain ⟨q, hrun, hq⟩ :=
      runCalls_refines (fun call hmem => exec_refines (hstep call hmem)) holds_new h
    exact ⟨q, hrun, hq.noStaleRefs⟩

/-- Five values do not fit into the first array. -/
def growingCalls : List (QueueCall (BitVec 64)) :=
  [.enqueue 1, .enqueue 2, .dequeue, .enqueue 3, .enqueue 4, .enqueue 5, .enqueue 6,
    .dequeue, .size]

theorem refines_iff_growingCalls :
    (∃ q, runCalls exec new growingCalls = some ([.unit, .unit, .value (some 1), .unit, .unit,
      .unit, .unit, .value (some 2), .size 4], q) ∧ q.NoStaleRefs) ∧
      (elementType (BitVec 64)).killable :=
  ⟨(refines_iff rfl).mpr fun _ => rfl, rfl⟩

/-- **A queue of optional numbers** loses no value, but `dequeue` cannot be compiled for it. -/
theorem dequeue_option :
    runCalls QueueCall.apply [] [.enqueue (some 2 : Option (BitVec 64)), .dequeue] =
      some ([.unit, .value (some (some 2))], []) ∧
    runCalls exec new [.enqueue (some 2 : Option (BitVec 64)), .dequeue] = none :=
  ⟨rfl, rfl⟩

end Queue

end Dora.Stdlib
