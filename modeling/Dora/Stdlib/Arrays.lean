import Mathlib.Data.List.Induction
import Mathlib.Data.List.Perm.Basic

/-!
# Arrays

`Array::copy` and `Array::sortStable`, and `unsafeKillRefs`. The sort is an insertion sort in place.
The code for `unsafeKillRefs` depends on the type of the elements, and for some types the compiler
has none.

## Main definitions

* `copyArray`, `sortStable`: the loops over the elements
* `emitUnsafeKillRefs`: which types the compiler has code for, and whether the code stores anything
* `ElementType.killable`: the same types, described by what is in them

## Main results

* `sortStable_spec`: the sort is a stable one
* `killable_of_emit`, `exists_emitUnsafeKillRefs`: code exists for the killable types only, and it
  clears every reference
-/

namespace Dora.Stdlib

open List

variable {α : Type}

/-- `Array::set`. -/
def arraySet (array : List α) (idx : ℕ) (value : α) : Option (List α) :=
  if idx < array.length then some (array.set idx value) else none

/-- `Array::copy` between two arrays, with the last round of its loop last. -/
def copyArray (src : List α) (srcPos : ℕ) (dest : List α) (destPos : ℕ) : ℕ → Option (List α)
  | 0 => some dest
  | len + 1 => do
    let dest ← copyArray src srcPos dest destPos len
    arraySet dest (destPos + len) (← src[srcPos + len]?)

theorem copyArray_spec {src dest : List α} {srcPos destPos len : ℕ}
    (hsrc : srcPos + len ≤ src.length) (hdest : destPos + len ≤ dest.length) :
    ∃ dest', copyArray src srcPos dest destPos len = some dest' ∧ dest'.length = dest.length ∧
      ∀ i, dest'[i]? =
        if destPos ≤ i ∧ i < destPos + len then src[srcPos + (i - destPos)]? else dest[i]? := by
  induction len with
  | zero => exact ⟨dest, rfl, rfl, fun i => (if_neg (by omega)).symm⟩
  | succ len ih =>
    obtain ⟨dest', hcopy, hlen, hget⟩ := ih (by omega) (by omega)
    refine ⟨dest'.set (destPos + len) src[srcPos + len], ?_, by rw [length_set, hlen], fun i => ?_⟩
    · rw [copyArray, hcopy, getElem?_eq_getElem (by omega)]
      exact if_pos (by omega)
    · by_cases hi : i = destPos + len
      · subst hi
        rw [getElem?_set_self (by omega), if_pos (by omega), Nat.add_sub_cancel_left,
          getElem?_eq_getElem]
      · rw [getElem?_set_ne (Ne.symm hi), hget]
        exact if_congr (by omega) rfl rfl

/-! ## Sorting -/

variable (sortsAfter : α → α → Bool)

/-- The inner loop, which ends with `array(j) = temp`. -/
def moveDown (temp : α) : ℕ → List α → Option (List α)
  | 0, array => arraySet array 0 temp
  | j + 1, array => do
    let previous ← array[j]?
    if sortsAfter previous temp then moveDown temp j (← arraySet array (j + 1) previous)
    else arraySet array (j + 1) temp

/-- The outer loop. Its index grows in every round, so the length bounds their number. -/
def sortFrom : ℕ → ℕ → List α → Option (List α)
  | 0, _, _ => none
  | fuel + 1, i, array =>
    if i < array.length then do
      let temp ← array[i]?
      sortFrom fuel (i + 1) (← moveDown sortsAfter temp i array)
    else some array

def sortStable (array : List α) : Option (List α) := sortFrom sortsAfter (array.length + 1) 1 array

/-- The order is a strict weak one. -/
structure StrictWeak : Prop where
  irrefl : ∀ a, sortsAfter a a = false
  trans : ∀ a b c, sortsAfter a b = true → sortsAfter b c = true → sortsAfter a c = true
  negTrans : ∀ a b c, sortsAfter a b = false → sortsAfter b c = false → sortsAfter a c = false

/-- Equivalent elements: neither sorts after the other one. -/
def equivalent (a b : α) : Bool := !sortsAfter a b && !sortsAfter b a

/-- **A stable sort**: a permutation that is in order and in which equivalent elements are in the
order in which they were. -/
structure StablySorted (array result : List α) : Prop where
  perm : result.Perm array
  sorted : result.Pairwise fun a b => sortsAfter a b = false
  stable : ∀ a, result.filter (equivalent sortsAfter a) = array.filter (equivalent sortsAfter a)

variable {sortsAfter}

/-- **The inner loop** moves an element to its place. -/
theorem moveDown_spec (temp : α) (front : List α) (hole : α) (rest : List α) :
    ∃ before behind, front = before ++ behind ∧
      moveDown sortsAfter temp front.length (front ++ hole :: rest) =
        some (before ++ temp :: (behind ++ rest)) ∧
      (∀ b ∈ behind, sortsAfter b temp = true) ∧
      ∀ a, before.getLast? = some a → sortsAfter a temp = false := by
  -- the loop goes from the end of the front to its start, and the hole with it
  induction front using reverseRecOn generalizing hole rest with
  | nil => exact ⟨[], [], rfl, by simp [moveDown, arraySet], by simp, by simp⟩
  | append_singleton front previous ih =>
    have hset (value : α) : arraySet (front ++ previous :: hole :: rest) (front.length + 1) value =
        some (front ++ previous :: value :: rest) := by simp [arraySet]
    rw [length_append, length_singleton, append_assoc, singleton_append, moveDown,
      getElem?_append_right (Nat.le_refl _)]
    cases hafter : sortsAfter previous temp with
    | true =>
      obtain ⟨before, behind, hfront, hmove, hbehind, hlast⟩ := ih previous (previous :: rest)
      refine ⟨before, behind ++ [previous], by rw [hfront, append_assoc], ?_, ?_, hlast⟩
      · simp [hset, hafter, hmove]
      · intro b hb
        rcases mem_append.mp hb with hb | hb
        · exact hbehind b hb
        · rwa [mem_singleton.mp hb]
    | false =>
      refine ⟨front ++ [previous], [], (append_nil _).symm, ?_, by simp, fun a ha => ?_⟩
      · simp [hset, hafter]
      · rw [getLast?_concat] at ha
        rwa [← Option.some.inj ha]

/-- **A round of the outer loop** keeps the front of the array stably sorted. -/
theorem StablySorted.insert {array before behind : List α} {temp : α}
    (horder : StrictWeak sortsAfter) (h : StablySorted sortsAfter array (before ++ behind))
    (hbehind : ∀ b ∈ behind, sortsAfter b temp = true)
    (hlast : ∀ a, before.getLast? = some a → sortsAfter a temp = false) :
    StablySorted sortsAfter (array ++ [temp]) (before ++ temp :: behind) := by
  obtain ⟨hbefore, hsorted, hcross⟩ := pairwise_append.mp h.sorted
  have htemp : ∀ a ∈ before, sortsAfter a temp = false := by
    intro a ha
    rcases eq_nil_or_concat before with rfl | ⟨init, last, rfl⟩
    · cases ha
    · rw [concat_eq_append] at ha hbefore hlast
      have hle := hlast last getLast?_concat
      rcases mem_append.mp ha with ha | ha
      · exact horder.negTrans a last temp
          ((pairwise_append.mp hbefore).2.2 a ha last (mem_singleton_self _)) hle
      · rwa [mem_singleton.mp ha]
  have hbehind' : ∀ b ∈ behind, sortsAfter temp b = false := by
    intro b hb
    by_contra hafter
    have hself := horder.trans temp b temp (by simpa using hafter) (hbehind b hb)
    rw [horder.irrefl] at hself
    cases hself
  refine ⟨?_, pairwise_append.mpr ⟨hbefore, pairwise_cons.mpr ⟨hbehind', hsorted⟩, ?_⟩, fun a => ?_⟩
  · exact perm_middle.trans ((h.perm.cons temp).trans (perm_append_singleton temp array).symm)
  · intro a ha b hb
    rcases mem_cons.mp hb with rfl | hb
    · exact htemp a ha
    · exact hcross a ha b hb
  · -- no element behind an element that is equivalent to `a` is one itself
    rw [filter_append, filter_append, filter_cons, ← h.stable a, filter_append, append_assoc]
    congr 1
    split
    · next heq =>
      have hnil : behind.filter (equivalent sortsAfter a) = [] := by
        refine filter_eq_nil_iff.mpr fun b hb heq' => ?_
        simp only [equivalent, Bool.and_eq_true, Bool.not_eq_true'] at heq heq'
        have hnot := horder.negTrans b a temp heq'.2 heq.1
        rw [hbehind b hb] at hnot
        cases hnot
      simp [hnil, heq]
    · next heq => simp [heq]

theorem sortFrom_spec (horder : StrictWeak sortsAfter) {fuel : ℕ} {front sorted rest : List α}
    (h : StablySorted sortsAfter front sorted) (hfuel : rest.length < fuel) :
    ∃ result, sortFrom sortsAfter fuel front.length (sorted ++ rest) = some result ∧
      StablySorted sortsAfter (front ++ rest) result := by
  have hlen := h.perm.length_eq
  induction fuel generalizing front sorted rest with
  | zero => omega
  | succ fuel ih =>
    cases rest with
    | nil => exact ⟨sorted, by simp [sortFrom, hlen], by rwa [append_nil]⟩
    | cons temp rest =>
      obtain ⟨before, behind, rfl, hmove, hbehind, hlast⟩ := moveDown_spec temp sorted temp rest
      have hround := h.insert horder hbehind hlast
      obtain ⟨result, hresult, hsorted⟩ := ih hround (Nat.lt_of_succ_lt_succ hfuel)
        hround.perm.length_eq
      refine ⟨result, ?_, by simpa using hsorted⟩
      rw [hlen, append_assoc] at hmove
      rw [sortFrom, if_pos (by simp [← hlen]), ← hlen, getElem?_append_right (Nat.le_refl _)]
      simpa [hmove, hlen] using hresult

/-- **`sortStable` is a stable sort** for every strict weak order. -/
theorem sortStable_spec (horder : StrictWeak sortsAfter) (array : List α) :
    ∃ result, sortStable sortsAfter array = some result ∧ StablySorted sortsAfter array result := by
  cases array with
  | nil => exact ⟨[], rfl, Perm.nil, .nil, fun _ => rfl⟩
  | cons a array =>
    have hone : StablySorted sortsAfter [a] [a] := ⟨.refl _, pairwise_singleton .., fun _ => rfl⟩
    exact sortFrom_spec horder hone (Nat.lt_succ_of_lt (Nat.lt_succ_self _))

/-- Pairs by their first components. -/
theorem sortStable_spec_pairs :
    ∃ result, sortStable (fun a b : ℕ × ℕ => b.1 < a.1) [(2, 0), (1, 1), (2, 2)] = some result ∧
      StablySorted (fun a b : ℕ × ℕ => b.1 < a.1) [(2, 0), (1, 1), (2, 2)] result :=
  sortStable_spec ⟨by simp, by simp; omega, by simp; omega⟩ _

/-! ## Killing references -/

inductive EnumLayout
  | int
  | ptr
  | tagged

/-- The type of an array's elements, as far as the compiler tells types apart. A class and a trait
object are pointers. -/
inductive ElementType
  | unit
  | primitive
  | pointer
  | lambda
  | struct (fields : List ElementType)
  | enum (layout : EnumLayout)
  | tuple (subtypes : List ElementType)

/-- A type of elements. -/
class Element (α : Type) where
  elementType : ElementType

export Element (elementType)

instance : Element Unit := ⟨.unit⟩

instance {w : ℕ} : Element (BitVec w) := ⟨.primitive⟩

/-- `Option` has a variant with an argument, so its values are pointers. -/
instance {w : ℕ} : Element (Option (BitVec w)) := ⟨.enum .tagged⟩

mutual

/-- `zero_ty`. It panics (`none`), or the answer is whether its code stores anything. -/
def zeroTy : ElementType → Option Bool
  | .tuple subtypes => zeroTuple subtypes
  | .unit => some false
  | .primitive | .pointer | .enum _ => some true
  | .struct _ | .lambda => none

def zeroTuple : List ElementType → Option Bool
  | [] => some false
  | ty :: subtypes => do
    let stores ← zeroTy ty
    return stores || (← zeroTuple subtypes)

end

def zeroRefsTy : ElementType → Option Bool
  | .tuple subtypes => zeroTuple subtypes
  | .unit | .primitive | .enum .int => some false
  | .enum .ptr | .enum .tagged | .pointer => some true
  | .struct _ | .lambda => none

def zeroRefsTuple : List ElementType → Option Bool
  | [] => some false
  | ty :: subtypes => do
    let stores ← zeroRefsTy ty
    return stores || (← zeroRefsTuple subtypes)

/-- `emit_intrinsic_unsafe_kill_refs`. It panics (`none`), or the answer is whether its code stores
anything. -/
def emitUnsafeKillRefs : ElementType → Option Bool
  | .unit | .primitive => some false
  | .pointer | .lambda => some true
  | .tuple subtypes => zeroRefsTuple subtypes
  | .struct _ | .enum _ => none

/-- The code for `unsafeKillRefs`. A slot without its references holds no value. -/
def killRefs (stores : Bool) (array : List (Option α)) (idx : ℕ) : List (Option α) :=
  if stores then array.set idx none else array

theorem length_killRefs (stores : Bool) (array : List (Option α)) (idx : ℕ) :
    (killRefs stores array idx).length = array.length := by
  rw [killRefs]
  split
  · exact length_set
  · rfl

theorem getElem?_killRefs_ne {array : List (Option α)} {idx j : ℕ} (h : idx ≠ j) (stores : Bool) :
    (killRefs stores array idx)[j]? = array[j]? := by
  rw [killRefs]
  split
  · exact getElem?_set_ne h
  · rfl

namespace ElementType

mutual

/-- A value of the type may have a reference in it. -/
def hasRefs : ElementType → Bool
  | unit | primitive | enum .int => false
  | pointer | lambda | enum .ptr | enum .tagged => true
  | struct types | tuple types => anyHasRefs types

def anyHasRefs : List ElementType → Bool
  | [] => false
  | ty :: types => ty.hasRefs || anyHasRefs types

end

mutual

/-- The type is neither a struct nor a lambda, nor a tuple with one of them at any depth. -/
def clearable : ElementType → Bool
  | struct _ | lambda => false
  | tuple subtypes => allClearable subtypes
  | unit | primitive | pointer | enum _ => true

def allClearable : List ElementType → Bool
  | [] => true
  | ty :: types => ty.clearable && allClearable types

end

/-- **The types whose references can be killed**: no structs and no enums, and no tuples with a
struct or a lambda in them. -/
def killable : ElementType → Bool
  | struct _ | enum _ => false
  | lambda => true
  | ty => ty.clearable

end ElementType

open ElementType

/-- There is code for a clearable type, and it stores something if the type has references. -/
structure Clears (code : Option Bool) (clearable hasRefs : Bool) : Prop where
  isSome : code.isSome = clearable
  stores : code = some false → hasRefs = false

theorem Clears.cons {code codes : Option Bool} {clearable clearables hasRefs haveRefs : Bool}
    (h : Clears code clearable hasRefs) (hs : Clears codes clearables haveRefs) :
    Clears (do let stores ← code; return stores || (← codes)) (clearable && clearables)
      (hasRefs || haveRefs) := by
  obtain ⟨rfl, hrefs⟩ := h
  obtain ⟨rfl, hrefs'⟩ := hs
  rcases code with _ | _ | _ <;> rcases codes with _ | _ | _ <;> constructor <;> simp_all

mutual

theorem zeroTy_clears : ∀ ty, Clears (zeroTy ty) ty.clearable ty.hasRefs
  | .unit | .enum .int | .enum .ptr | .enum .tagged | .primitive | .pointer
  | .struct _ | .lambda => by constructor <;> simp [zeroTy, clearable, hasRefs]
  | .tuple subtypes => zeroTuple_clears subtypes

theorem zeroTuple_clears :
    ∀ types, Clears (zeroTuple types) (allClearable types) (anyHasRefs types)
  | [] => ⟨rfl, fun _ => rfl⟩
  | ty :: types => (zeroTy_clears ty).cons (zeroTuple_clears types)

end

theorem zeroRefsTy_clears (ty : ElementType) : Clears (zeroRefsTy ty) ty.clearable ty.hasRefs := by
  cases ty with
  | tuple subtypes => exact zeroTuple_clears subtypes
  | enum layout => cases layout <;> constructor <;> simp [zeroRefsTy, clearable, hasRefs]
  | _ => constructor <;> simp [zeroRefsTy, clearable, hasRefs]

theorem zeroRefsTuple_clears (types : List ElementType) :
    Clears (zeroRefsTuple types) (allClearable types) (anyHasRefs types) := by
  induction types with
  | nil => exact ⟨rfl, fun _ => rfl⟩
  | cons ty types ih => exact (zeroRefsTy_clears ty).cons ih

theorem emitUnsafeKillRefs_clears (ty : ElementType) :
    Clears (emitUnsafeKillRefs ty) ty.killable ty.hasRefs := by
  cases ty with
  | tuple subtypes => exact zeroRefsTuple_clears subtypes
  | struct _ | enum _ => exact ⟨rfl, by rintro ⟨⟩⟩
  | _ => constructor <;> simp [emitUnsafeKillRefs, killable, clearable, hasRefs]

/-- **`unsafeKillRefs`** has code for the killable types only. -/
theorem killable_of_emit {ty : ElementType} {stores : Bool}
    (h : emitUnsafeKillRefs ty = some stores) : ty.killable := by
  rw [← (emitUnsafeKillRefs_clears ty).isSome, h]
  rfl

/-- Its code clears every reference. -/
theorem exists_emitUnsafeKillRefs {ty : ElementType} (h : ty.killable) :
    ∃ stores, emitUnsafeKillRefs ty = some stores ∧ (ty.hasRefs → stores = true) := by
  obtain ⟨hsome, hstores⟩ := emitUnsafeKillRefs_clears ty
  obtain ⟨stores, hemit⟩ := Option.isSome_iff_exists.mp (hsome.trans h)
  refine ⟨stores, hemit, fun hrefs => Bool.of_not_eq_false ?_⟩
  rintro rfl
  rw [hstores hemit] at hrefs
  cases hrefs

end Dora.Stdlib
