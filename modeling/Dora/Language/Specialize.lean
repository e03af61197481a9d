import Dora.Language.Matching
import Dora.Lib.Layout

/-!
# Substitution of type parameters

`replace_type_param` of the semantic analysis and that of the virtual machine differ in the types
that they do not expect.

## Main results

* `replaceTypeParam_composes`: substitution composes for all types that can be replaced
-/

namespace Dora.Language

open List SemAnalysis

mutual
/-- What both copies of `replace_type_param` do. They panic for some types without arguments, for a
type parameter outside the list, and for `Self` if no type is given for it. -/
def replaceWith (panics : List BaseType) (typeParams : List SourceType)
    (selfTy : Option SourceType) : SourceType → Option SourceType
  | .var id => typeParams[id]?
  | .const .this => selfTy
  | .const ty => if ty ∈ panics then none else some (.const ty)
  | .app head params => return .app head (← replaceListWith panics typeParams selfTy params)
def replaceListWith (panics : List BaseType) (typeParams : List SourceType)
    (selfTy : Option SourceType) : List SourceType → Option (List SourceType)
  | [] => some []
  | ty :: tys => return (← replaceWith panics typeParams selfTy ty) ::
      (← replaceListWith panics typeParams selfTy tys)
end

/-- `replace_type_param` of the semantic analysis. -/
def SemAnalysis.replaceTypeParam (ty : SourceType) (typeParams : List SourceType)
    (selfTy : Option SourceType) : Option SourceType :=
  replaceWith [.any, .ptr] typeParams selfTy ty

/-- `replace_type_param` of the virtual machine. -/
def VM.replaceTypeParam (ty : SourceType) (typeParams : List SourceType)
    (selfTy : Option SourceType) : Option SourceType :=
  replaceWith [.any] typeParams selfTy ty

/-- **A type that can be replaced**: neither `Any` nor `Ptr` occurs in it, only type parameters
below `n`, and `Self` only if there is a type for it. -/
inductive Covered (n : ℕ) (hasSelf : Bool) : SourceType → Prop
  | var {id : ℕ} (h : id < n) : Covered n hasSelf (.var id)
  | const {ty : BaseType} (hany : ty ≠ .any) (hptr : ty ≠ .ptr) (hself : ty = .this → hasSelf) :
    Covered n hasSelf (.const ty)
  | app {head : TypeHead} {params : List SourceType} (h : ∀ ty ∈ params, Covered n hasSelf ty) :
    Covered n hasSelf (.app head params)

section Replacing

variable {panics : List BaseType} {s1 s2 s3 : List SourceType}
  {self1 self2 self3 : Option SourceType} {n : ℕ} {hasSelf : Bool} {c : BaseType}
  {ty ty1 : SourceType}

theorem replaceListWith_eq (params : List SourceType) :
    replaceListWith panics s1 self1 params = params.mapM (replaceWith panics s1 self1) := by
  induction params with
  | nil => rfl
  | cons ty tys ih => rw [replaceListWith, ih, mapM_cons]

theorem replaceWith_app (head : TypeHead) (params : List SourceType) :
    replaceWith panics s1 self1 (.app head params) =
      (params.mapM (replaceWith panics s1 self1)).map (.app head) := by
  rw [replaceWith, replaceListWith_eq]
  exact (Option.map_eq_bind ..).symm

theorem replaceWith_const (h : c ≠ .this) :
    replaceWith panics s1 self1 (.const c) = if c ∈ panics then none else some (.const c) := by
  cases c <;> first | rfl | exact absurd rfl h

/-- **Composition**: one replacement after the other is a replacement by what was replaced. -/
theorem replaceWith_comp (hs : s1.mapM (replaceWith panics s2 self2) = some s3)
    (hself : self1.mapM (replaceWith panics s2 self2) = some self3)
    (h : replaceWith panics s1 self1 ty = some ty1) :
    replaceWith panics s3 self3 ty = replaceWith panics s2 self2 ty1 := by
  induction ty using Term.induction generalizing ty1 with
  | var id =>
    obtain ⟨ty3, hty3, h3⟩ := Layout.forall₂_getElem? (Layout.mapM_eq_some_iff.mp hs).flip h
    exact hty3.trans h3.symm
  | const c =>
    by_cases hthis : c = .this
    · subst hthis
      obtain rfl : self1 = some ty1 := h
      obtain ⟨ty3, h3, rfl⟩ := Option.map_eq_some_iff.mp hself
      exact h3.symm
    · obtain ⟨-, rfl⟩ : c ∉ panics ∧ .const c = ty1 := by simpa [replaceWith_const hthis] using h
      rw [replaceWith_const hthis, replaceWith_const hthis]
  | app head params ih =>
    rw [replaceWith_app] at h
    obtain ⟨params1, hparams, rfl⟩ := Option.map_eq_some_iff.mp h
    have hall := (forall₂_and_left _ _).mpr ⟨@ih, Layout.mapM_eq_some_iff.mp hparams⟩
    rw [replaceWith_app, replaceWith_app, Layout.mapM_eq_mapM (hall.imp fun _ _ ⟨ih, h⟩ => ih h)]

variable (hpanics : panics ⊆ [.any, .ptr])
include hpanics

theorem replaceWith_expected (hany : c ≠ .any) (hptr : c ≠ .ptr) (hthis : c ≠ .this) :
    replaceWith panics s1 self1 (.const c) = some (.const c) := by
  have hc : c ∉ panics := fun hc => by simpa [hany, hptr] using hpanics hc
  rw [replaceWith_const hthis, if_neg hc]

/-- **A type that can be replaced is.** -/
theorem Covered.exists_replaceWith (h : Covered s1.length self1.isSome ty) :
    ∃ ty1, replaceWith panics s1 self1 ty = some ty1 := by
  induction h with
  | @var id h => exact ⟨s1[id], getElem?_eq_getElem h⟩
  | @const c hany hptr hself =>
    by_cases hthis : c = .this
    · obtain ⟨u, hu⟩ := Option.isSome_iff_exists.mp (hself hthis)
      exact ⟨u, by rw [hthis]; exact hu⟩
    · exact ⟨.const c, replaceWith_expected hpanics hany hptr hthis⟩
  | @app head params _ ih =>
    obtain ⟨params1, hparams⟩ := Layout.exists_mapM ih
    exact ⟨.app head params1, by rw [replaceWith_app, hparams]; rfl⟩

/-- A closed type stays as it is. -/
theorem Covered.replaceWith_closed (h : Covered 0 false ty) :
    replaceWith panics s1 self1 ty = some ty := by
  induction h with
  | var h => cases h
  | const hany hptr hself =>
    exact replaceWith_expected hpanics hany hptr fun hthis => Bool.false_ne_true (hself hthis)
  | @app head params _ ih =>
    rw [replaceWith_app, Layout.mapM_eq_some_iff.mpr (forall₂_same.mpr ih)]
    rfl

/-- What a copy does does not depend on what it does not expect. -/
theorem Covered.replaceWith_eq (h : Covered n hasSelf ty) :
    replaceWith panics s1 self1 ty = replaceWith [] s1 self1 ty := by
  induction h with
  | var h => rfl
  | @const c hany hptr hself =>
    by_cases hthis : c = .this
    · rw [hthis]
      rfl
    · rw [replaceWith_expected hpanics hany hptr hthis,
        replaceWith_expected (nil_subset _) hany hptr hthis]
  | @app head params _ ih =>
    rw [replaceWith_app, replaceWith_app, Layout.mapM_eq_mapM (forall₂_same.mpr ih)]

end Replacing

/-- **Substitution composes**: replacing by one list and then by another one is replacing by the
first list with each member replaced, `Self` likewise. Closed types stay as they are, and both
copies of the function do the same. -/
structure Composes (ty : SourceType) (s1 : List SourceType) (self1 : Option SourceType)
    (s2 : List SourceType) (self2 : Option SourceType) : Prop where
  comp : ∃ ty1 ty2 s3 self3, replaceTypeParam ty s1 self1 = some ty1 ∧
    replaceTypeParam ty1 s2 self2 = some ty2 ∧
    s1.mapM (replaceTypeParam · s2 self2) = some s3 ∧
    self1.mapM (replaceTypeParam · s2 self2) = some self3 ∧
    replaceTypeParam ty s3 self3 = some ty2
  closed : Covered 0 false ty → replaceTypeParam ty s1 self1 = some ty
  agree : VM.replaceTypeParam ty s1 self1 = replaceTypeParam ty s1 self1

/-- **Substitution composes** for all types that can be replaced. -/
theorem replaceTypeParam_composes {ty : SourceType} {s1 s2 : List SourceType}
    {self1 self2 : Option SourceType} (h : Covered s1.length self1.isSome ty)
    (hs : ∀ u ∈ s1, Covered s2.length self2.isSome u)
    (hself : ∀ u ∈ self1, Covered s2.length self2.isSome u) :
    Composes ty s1 self1 s2 self2 := by
  have hany : [BaseType.any, .ptr] ⊆ [.any, .ptr] := Subset.refl _
  refine ⟨?_, fun hclosed => hclosed.replaceWith_closed hany, ?_⟩
  · obtain ⟨s3, hs3⟩ := Layout.exists_mapM fun u hu => (hs u hu).exists_replaceWith hany
    obtain ⟨self3, hself3, hsome⟩ : ∃ self3, self1.mapM (replaceWith [.any, .ptr] s2 self2) =
        some self3 ∧ self3.isSome = self1.isSome := by
      cases self1 with
      | none => exact ⟨none, rfl, rfl⟩
      | some u =>
        obtain ⟨u1, hu1⟩ := (hself u rfl).exists_replaceWith hany
        exact ⟨some u1, congrArg (Option.map some) hu1, rfl⟩
    obtain ⟨ty1, h1⟩ := h.exists_replaceWith hany
    have hlen := (Layout.mapM_eq_some_iff.mp hs3).length_eq
    rw [hlen, ← hsome] at h
    obtain ⟨ty2, h2⟩ := h.exists_replaceWith hany
    exact ⟨ty1, ty2, s3, self3, h1, (replaceWith_comp hs3 hself3 h1).symm.trans h2, hs3, hself3, h2⟩
  · exact (h.replaceWith_eq (by simp)).trans (h.replaceWith_eq hany).symm

/-- `(A, Self)` with a class of `B` for `A`, and `A` for `Self`. -/
theorem replaceTypeParam_composes_tuple :
    Composes (.app .tuple [.var 0, .const .this]) [.app (.class 7) [.var 1]] (some (.var 0))
      [.const .bool, .const .int64] none := by
  have hbelow {n id : ℕ} {hasSelf : Bool} (h : id < n) : Covered n hasSelf (.var id) := .var h
  refine replaceTypeParam_composes (.app ?_) ?_ ?_
  · simpa using ⟨hbelow Nat.one_pos, .const nofun nofun fun _ => rfl⟩
  · simpa using .app (by simpa using hbelow (by decide))
  · simpa using hbelow (by decide)

end Dora.Language
