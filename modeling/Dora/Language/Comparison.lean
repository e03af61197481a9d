import Dora.Language.Matching

/-!
# Comparing types

What `compare_concrete_types` does with two types at their roots, and what matching does to the
bindings of type parameters.

## Main definitions

* `SourceType.plain`: the types without lambdas, trait objects and internal types
* `Compares`: the possible outcomes of a comparison
* `facing`: what a part of the extension's type is compared as; for a parameter, its binding

## Main results

* `compares`: every comparison has one of these outcomes
* `matchTy_rel`: what binding a single parameter keeps is kept by matching
* `grows_of_matchTy`: no binding ever changes
-/

namespace Dora.Language

open List SourceType

namespace SourceType

mutual
/-- Types that `compare_concrete_types` can compare: there is no lambda, no trait object and no
internal type in them. -/
def plain : SourceType → Bool
  | .var _ => true
  | .const .unit | .const .bool | .const .char | .const .uint8 | .const .int32 | .const .int64
  | .const .float32 | .const .float64 => true
  | .const .ptr | .const .error | .const .this | .const .any
  | .app .lambda _ | .app (.trait _) _ => false
  | .app .tuple args | .app (.struct _) args | .app (.enum _) args | .app (.class _) args =>
    plainList args
def plainList : List SourceType → Bool
  | [] => true
  | t :: ts => plain t && plainList ts
end

end SourceType

open SourceType (plain plainList)

theorem plainList_iff {ts : List SourceType} : plainList ts = true ↔ ∀ t ∈ ts, plain t = true := by
  induction ts with
  | nil => simp [plainList]
  | cons t ts ih => simp [plainList, ih]

/-- The kinds of types with arguments that can be compared. -/
def TypeHead.comparable : TypeHead → Bool
  | .tuple | .struct _ | .enum _ | .class _ => true
  | .lambda | .trait _ => false

theorem plain_app {head : TypeHead} {ts : List SourceType} :
    plain (.app head ts) = (head.comparable && plainList ts) := by
  cases head <;> rw [plain] <;> rfl

namespace SourceType

/-- Neither a lambda nor a trait object nor an internal type. -/
def shallow : SourceType → Bool
  | .app head _ => head.comparable
  | ty => plain ty

def isLeaf : SourceType → Bool
  | .app _ _ => false
  | _ => true

/-- The types are the same but for the arguments. Tuples have the same size. -/
def sameRoot : SourceType → SourceType → Bool
  | .app head ts, .app head' ts' => head = head' && (head ≠ .tuple || ts.length = ts'.length)
  | ty, ty' => ty = ty'

end SourceType

/-- **How a type compares** with a type of the extension. -/
inductive Compares (recurse : Matcher) (checkDefs extDefs : TypeParamDefinition) (β : Bindings) :
    SourceType → SourceType → Fueled (Bool × Bindings) → Prop
  | panics {t e : SourceType} (ht : t.shallow = false) :
    Compares recurse checkDefs extDefs β t e .trap
  | differs {t e : SourceType} (ht : t.shallow = true) (hne : e.sameRoot t = false) :
      Compares recurse checkDefs extDefs β t e (.returns (false, β))
  | equal {t : SourceType} (ht : t.shallow = true) (hleaf : t.isLeaf = true) :
      Compares recurse checkDefs extDefs β t t (.returns (true, β))
  | arity {head : TypeHead} {ts es : List SourceType} (hhead : head.comparable = true)
      (hlength : ts.length ≠ es.length) (htuple : head ≠ .tuple) :
      Compares recurse checkDefs extDefs β (.app head ts) (.app head es) .trap
  | args {head : TypeHead} {ts es : List SourceType} (hhead : head.comparable = true)
      (hlength : ts.length = es.length) :
      Compares recurse checkDefs extDefs β (.app head ts) (.app head es)
        (matchAll recurse checkDefs extDefs ts es β)

/-- One case for each arm of the source. -/
theorem compares (recurse : Matcher) (checkDefs extDefs : TypeParamDefinition) (β : Bindings)
    (t e : SourceType) :
    Compares recurse checkDefs extDefs β t e
      (compareConcreteTypes recurse t checkDefs e extDefs β) := by
  have hleaf {t : SourceType} (ht : t.shallow = true) (hl : t.isLeaf = true) :
      Compares recurse checkDefs extDefs β t e (.returns (decide (t = e), β)) := by
    by_cases heq : t = e
    · subst heq
      rw [decide_eq_true rfl]
      exact .equal ht hl
    · rw [decide_eq_false heq]
      refine .differs ht ?_
      cases t with
      | app head ts => cases hl
      | _ => cases e <;> simp [sameRoot, Ne.symm heq]
  cases t with
  | var id => exact hleaf rfl rfl
  | const c => cases c <;> first | exact hleaf rfl rfl | exact .panics rfl
  | app head ts =>
    cases e with
    | var | const =>
      cases head with
      | lambda | trait => exact .panics rfl
      | _ => exact .differs rfl rfl
    | app head' es =>
      by_cases hsame : head' = head
      · subst hsame
        by_cases hlength : ts.length = es.length
        · cases head' with
          | lambda | trait => exact .panics rfl
          | _ => simpa [compareConcreteTypes, hlength] using .args rfl hlength
        · cases head' with
          | lambda | trait => exact .panics rfl
          | tuple =>
            simpa [compareConcreteTypes, hlength] using
              .differs rfl (by simp [sameRoot, Ne.symm hlength])
          | _ => simpa [compareConcreteTypes, hlength] using .arity rfl hlength nofun
      · have hne : sameRoot (.app head' es) (.app head ts) = false := by
          simp [sameRoot, hsame]
        cases head with
        | lambda | trait => exact .panics rfl
        | tuple => cases head' <;> first | exact .differs rfl hne | exact absurd rfl hsame
        | _ => simpa [compareConcreteTypes, Ne.symm hsame] using .differs rfl hne

section

variable {sa : SemAnalysis} {checkDefs extDefs : TypeParamDefinition} {β β' : Bindings}
  {t e b : SourceType} {ts es : List SourceType} {id : ℕ} (recurse : Matcher)

theorem compareConcreteTypes_differs (ht : t.shallow = true) (hne : e.sameRoot t = false) :
    compareConcreteTypes recurse t checkDefs e extDefs β = .returns (false, β) := by
  have h := compares recurse checkDefs extDefs β t e
  generalize compareConcreteTypes recurse t checkDefs e extDefs β = r at h ⊢
  cases h with
  | panics ht' => exact absurd (ht.symm.trans ht') nofun
  | differs => rfl
  | equal ht hleaf =>
    cases t with
    | app => cases hleaf
    | _ => simp [sameRoot] at hne
  | arity hhead hlength htuple => simp [sameRoot, htuple] at hne
  | args hhead hlength => simp [sameRoot, hlength] at hne

theorem compareConcreteTypes_leaf (ht : t.shallow = true) (hleaf : t.isLeaf = true) :
    compareConcreteTypes recurse t checkDefs t extDefs β = .returns (true, β) := by
  cases t with
  | var id => simp [compareConcreteTypes]
  | const c =>
    cases c with
    | ptr | error | this | any => cases ht
    | _ => simp [compareConcreteTypes]
  | app head ts => cases hleaf

/-- Types of the same kind are compared by their arguments. -/
theorem compareConcreteTypes_args {head : TypeHead} (hhead : head.comparable = true)
    (hlength : ts.length = es.length) :
    compareConcreteTypes recurse (.app head ts) checkDefs (.app head es) extDefs β =
      matchAll recurse checkDefs extDefs ts es β := by
  cases head with
  | lambda | trait => cases hhead
  | _ => simp [compareConcreteTypes, hlength]

/-- The type that is compared: the extension's own, or the binding of its parameter. -/
def facing (β : Bindings) : SourceType → Option SourceType
  | .var id => β[id]?.join
  | e => some e

theorem matchTy_succ (fuel : ℕ) (t e : SourceType) (β : Bindings) :
    matchTy sa (fuel + 1) t checkDefs e extDefs β =
      matchesWith sa (matchTy sa fuel) t checkDefs e extDefs β := rfl

theorem matchesWith_of_facing (h : facing β e = some b) :
    matchesWith sa recurse t checkDefs e extDefs β =
      compareConcreteTypes recurse t checkDefs b extDefs β := by
  cases e with
  | var id => simp [matchesWith, Option.join_eq_some_iff.mp h]
  | _ =>
    cases h
    -- a type parameter differs from every other type
    cases t <;> simp [matchesWith, isTypeParam, compareConcreteTypes]

theorem matchesWith_of_free (h : β[id]? = some none) :
    matchesWith sa recurse t checkDefs (.var id) extDefs β =
      (fulfillsBounds sa recurse t checkDefs extDefs id >>= fun r =>
        .returns (r, β.set id (some t))) := by
  simp [matchesWith, h]

theorem facing_cases (β : Bindings) (e : SourceType) :
    (∃ b, facing β e = some b) ∨ ∃ id, e = .var id ∧ (β[id]? = some none ∨ β[id]? = none) := by
  cases e with
  | var id =>
    rcases h : β[id]? with _ | _ | b
    · exact .inr ⟨id, rfl, .inr h⟩
    · exact .inr ⟨id, rfl, .inl h⟩
    · exact .inl ⟨b, by rw [facing, h]; rfl⟩
  | _ => exact .inl ⟨_, rfl⟩

/-! ## Invariants of matching -/

section Invariant

variable {R : Bindings → Bindings → Prop} (hrefl : ∀ β, R β β)
  (htrans : ∀ {β1 β2 β3}, R β1 β2 → R β2 β3 → R β1 β3)

include hrefl htrans

theorem matchAll_rel
    (h : ∀ {t e β β'}, recurse t checkDefs e extDefs β = .returns (true, β') → R β β')
    (hreturns : matchAll recurse checkDefs extDefs ts es β = .returns (true, β')) : R β β' := by
  induction ts generalizing es β with
  | nil =>
    cases hreturns
    exact hrefl _
  | cons t ts ih =>
    cases es with
    | nil =>
      cases hreturns
      exact hrefl _
    | cons e es =>
      obtain ⟨⟨r, β1⟩, ht, hts⟩ := Fueled.bind_eq_returns.mp hreturns
      cases r with
      | false => cases hts
      | true => exact htrans (h ht) (ih hts)

/-- **What matching does to the bindings** is what binding a parameter does, step by step. -/
theorem matchTy_rel {fuel : ℕ}
    (hbind : ∀ fuel t id β, β[id]? = some none →
      fulfillsBounds sa (matchTy sa fuel) t checkDefs extDefs id = .returns true →
      R β (β.set id (some t)))
    (hreturns : matchTy sa fuel t checkDefs e extDefs β = .returns (true, β')) : R β β' := by
  induction fuel generalizing t e β β' with
  | zero => cases hreturns
  | succ fuel ih =>
    rw [matchTy_succ] at hreturns
    rcases facing_cases β e with ⟨b, hb⟩ | ⟨id, rfl, hfree | hnone⟩
    · rw [matchesWith_of_facing _ hb] at hreturns
      have h := compares (matchTy sa fuel) checkDefs extDefs β t b
      rw [hreturns] at h
      generalize hr : Fueled.returns (true, β') = r at h
      cases h with
      | equal =>
        cases hr
        exact hrefl _
      | args => exact matchAll_rel _ hrefl htrans ih hr.symm
      | _ => cases hr
    · rw [matchesWith_of_free _ hfree] at hreturns
      obtain ⟨r, hbounds, hpair⟩ := Fueled.bind_eq_returns.mp hreturns
      cases hpair
      exact hbind fuel t id β hfree hbounds
    · rw [matchesWith, hnone] at hreturns
      cases hreturns

end Invariant

/-- No binding changes. -/
def Grows (β β' : Bindings) : Prop :=
  ∀ (id : ℕ) (ty : SourceType), β[id]? = some (some ty) → β'[id]? = some (some ty)

theorem Grows.trans {β1 β2 β3 : Bindings} (h : Grows β1 β2) (h' : Grows β2 β3) : Grows β1 β3 :=
  fun id ty hid => h' id ty (h id ty hid)

theorem grows_set (hfree : β[id]? = some none) (t : SourceType) : Grows β (β.set id (some t)) := by
  intro id' ty hid
  have hne : id ≠ id' := by
    rintro rfl
    rw [hfree] at hid
    cases hid
  rwa [getElem?_set_ne hne]

theorem grows_of_matchTy {fuel : ℕ}
    (h : matchTy sa fuel t checkDefs e extDefs β = .returns (true, β')) : Grows β β' :=
  matchTy_rel (fun _ _ _ h => h) .trans (fun _ t _ _ hfree _ => grows_set hfree t) h

theorem grows_of_matchAll {fuel : ℕ}
    (h : matchAll (matchTy sa fuel) checkDefs extDefs ts es β = .returns (true, β')) :
    Grows β β' :=
  matchAll_rel _ (fun _ _ _ h => h) .trans grows_of_matchTy h

end

end Dora.Language
