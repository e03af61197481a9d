import Dora.Lib.Layout
import Dora.Language.Comparison

/-!
# Lookup of impls

`find_impl` tries only the impls whose extended type is the type itself. So it matches a type with
itself, where each type parameter is bound to the parameter of the same number.

## Main definitions

* `SameBounds`: the bounds that a type's own parameters need for that
* `Direct`: an impl of exactly this type, with these bounds
* `LookupAgrees`: the two routes to an impl, `find_impl` and `impl_matches`, agree

## Main results

* `selfMatches_of_plain`, `self_of_matchTy`: which types match themselves
* `findImpl_iff`: what `find_impl` finds
* `lookupAgrees_iff`: when the two routes agree
-/

namespace Dora.Language

open Fueled (Ends)
open List
open SourceType (plain plainList)

/-! ## A type and itself -/

/-- The parameters of the type have the bounds of the parameters `extTypeParamDefs` of the same
numbers. -/
def SameBounds (ids : List ℕ) (checkTypeParamDefs extTypeParamDefs : TypeParamDefinition) : Prop :=
  ∀ id ∈ ids, compareTypeParamBounds checkTypeParamDefs id id extTypeParamDefs = true

instance (ids : List ℕ) (checkTypeParamDefs extTypeParamDefs : TypeParamDefinition) :
    Decidable (SameBounds ids checkTypeParamDefs extTypeParamDefs) :=
  inferInstanceAs (Decidable (∀ id ∈ ids, _))

/-- Type parameters are bound to themselves. -/
def bindSelf (β : Bindings) (ids : List ℕ) : Bindings :=
  ids.foldl (fun β id => β.set id (some (.var id))) β

theorem bindSelf_append (β : Bindings) (ids ids' : List ℕ) :
    bindSelf β (ids ++ ids') = bindSelf (bindSelf β ids) ids' := foldl_append

theorem length_bindSelf (β : Bindings) (ids : List ℕ) : (bindSelf β ids).length = β.length := by
  induction ids generalizing β with
  | nil => rfl
  | cons id ids ih => exact (ih _).trans length_set

theorem getElem?_bindSelf (β : Bindings) (ids : List ℕ) (id : ℕ) :
    (bindSelf β ids)[id]? = if id ∈ ids ∧ id < β.length then some (some (.var id)) else β[id]? := by
  induction ids generalizing β with
  | nil => simp [bindSelf]
  | cons id' ids ih =>
    have hcons : bindSelf β (id' :: ids) = bindSelf (β.set id' (some (.var id'))) ids := rfl
    rw [hcons, ih, length_set, getElem?_set]
    by_cases heq : id' = id
    · subst heq
      by_cases hlt : id' < β.length <;> simp [hlt]
    · simp [heq, Ne.symm heq]

section Self

variable {sa : SemAnalysis} {checkDefs extDefs : TypeParamDefinition} {β β' : Bindings}
  {t e : SourceType} {ts : List SourceType} (recurse : Matcher)

/-- Each parameter is free, or bound to itself with its bounds checked. -/
def SelfReady (checkDefs extDefs : TypeParamDefinition) (ids : List ℕ) (β : Bindings) : Prop :=
  ∀ id ∈ ids, β[id]? = some none ∨
    β[id]? = some (some (.var id)) ∧ compareTypeParamBounds checkDefs id id extDefs = true

/-- A type is matched with itself. -/
def SelfMatches (sa : SemAnalysis) (checkDefs extDefs : TypeParamDefinition) (t : SourceType) :
    Prop :=
  ∀ β, SelfReady checkDefs extDefs t.vars β → ∃ β',
    Ends (fun fuel => matchTy sa fuel t checkDefs t extDefs β)
      (decide (SameBounds t.vars checkDefs extDefs), β') ∧
    (SameBounds t.vars checkDefs extDefs → β' = bindSelf β t.vars)

theorem selfMatches_var {id : ℕ} : SelfMatches sa checkDefs extDefs (.var id) := by
  intro β hβ
  have hvars : SameBounds [id] checkDefs extDefs ↔
      compareTypeParamBounds checkDefs id id extDefs = true := by
    simp [SameBounds]
  rcases hβ id (mem_singleton_self id) with hnone | ⟨hself, hbounds⟩
  · refine ⟨β.set id (some (.var id)), ?_, fun _ => rfl⟩
    refine Ends.succ (Ends.of_eq fun _ => ?_) rfl fun fuel => matchTy_succ fuel _ _ β
    rw [matchesWith_of_free _ hnone]
    simp [fulfillsBounds, SameBounds]
  · refine ⟨β, ?_, fun _ => ext_getElem? fun i => ?_⟩
    · refine Ends.succ (Ends.of_eq fun _ => ?_) rfl fun fuel => matchTy_succ fuel _ _ β
      rw [matchesWith_of_facing _ (by rw [facing, hself]; rfl), Term.vars_var,
        decide_eq_true (hvars.mpr hbounds), compareConcreteTypes_leaf _ rfl rfl]
    · rw [getElem?_bindSelf]
      split
      next h => rw [mem_singleton.mp h.1, hself]
      next => rfl

theorem sameBounds_append {ids ids' : List ℕ} :
    SameBounds (ids ++ ids') checkDefs extDefs ↔
      SameBounds ids checkDefs extDefs ∧ SameBounds ids' checkDefs extDefs := forall_mem_append

/-- The parameters of the types to come are ready after those of a type have been bound. -/
theorem SelfReady.bindSelf {ids ids' : List ℕ} (h : SelfReady checkDefs extDefs (ids ++ ids') β)
    (hbounds : SameBounds ids checkDefs extDefs) :
    SelfReady checkDefs extDefs ids' (bindSelf β ids) := by
  intro id hid
  rw [getElem?_bindSelf]
  split
  next hmem => exact .inr ⟨rfl, hbounds id hmem.1⟩
  next => exact h id (mem_append_right _ hid)

theorem matchAll_self (h : ∀ t ∈ ts, SelfMatches sa checkDefs extDefs t)
    (hβ : SelfReady checkDefs extDefs (Term.varsList ts) β) :
    ∃ β', Ends (fun fuel => matchAll (matchTy sa fuel) checkDefs extDefs ts ts β)
        (decide (SameBounds (Term.varsList ts) checkDefs extDefs), β') ∧
      (SameBounds (Term.varsList ts) checkDefs extDefs → β' = bindSelf β (Term.varsList ts)) := by
  induction ts generalizing β with
  | nil => exact ⟨β, .of_eq fun _ => rfl, fun _ => rfl⟩
  | cons t ts ih =>
    obtain ⟨ht, hts⟩ := forall_mem_cons.mp h
    obtain ⟨β1, hends1, hβ1⟩ := ht β fun id hid => hβ id (mem_append_left _ hid)
    simp only [Term.varsList, sameBounds_append, bindSelf_append]
    by_cases hbounds : SameBounds t.vars checkDefs extDefs
    · obtain rfl := hβ1 hbounds
      obtain ⟨β2, hends2, hβ2⟩ := ih hts (hβ.bindSelf hbounds)
      refine ⟨β2, hends1.bind ?_, fun hall => hβ2 hall.2⟩
      simp only [hbounds, true_and]
      exact hends2
    · refine ⟨β1, hends1.bind (.of_eq fun _ => ?_), fun hall => absurd hall.1 hbounds⟩
      simp only [hbounds]
      rfl

/-- **A plain type matches itself** iff its parameters have the bounds of the impl's parameters of
the same numbers. -/
theorem selfMatches_of_plain (sa : SemAnalysis) (t : SourceType) (hplain : plain t = true) :
    SelfMatches sa checkDefs extDefs t := by
  induction t using Term.induction with
  | var id => exact selfMatches_var
  | const c =>
    intro β hβ
    refine ⟨β, ?_, fun _ => rfl⟩
    refine Ends.succ (Ends.of_eq fun _ => ?_) rfl fun fuel => matchTy_succ fuel _ _ β
    have hleaf : SourceType.shallow (.const c) = true := hplain
    rw [matchesWith_of_facing _ rfl, compareConcreteTypes_leaf _ hleaf rfl]
    simp [SameBounds]
  | app head args ih =>
    rw [plain_app, Bool.and_eq_true] at hplain
    intro β hβ
    have hargs : ∀ t ∈ args, SelfMatches sa checkDefs extDefs t :=
      fun t ht => ih t ht (plainList_iff.mp hplain.2 t ht)
    obtain ⟨β', hends, hβ'⟩ := matchAll_self hargs hβ
    refine ⟨β', ?_, hβ'⟩
    refine Ends.succ hends rfl fun fuel => ?_
    rw [matchTy_succ, matchesWith_of_facing _ rfl, compareConcreteTypes_args _ hplain.1 rfl]

theorem selfAll_of_matchAll {fuel : ℕ}
    (h : ∀ t ∈ ts, ∀ {fuel β β'}, matchTy sa fuel t checkDefs t extDefs β = .returns (true, β') →
      plain t = true ∧ ∀ id ∈ t.vars, β'[id]? = some (some (.var id)))
    (hreturns : matchAll (matchTy sa fuel) checkDefs extDefs ts ts β = .returns (true, β')) :
    plainList ts = true ∧ ∀ id ∈ Term.varsList ts, β'[id]? = some (some (.var id)) := by
  induction ts generalizing β with
  | nil => exact ⟨rfl, forall_mem_nil _⟩
  | cons t ts ih =>
    obtain ⟨ht, hts⟩ := forall_mem_cons.mp h
    obtain ⟨⟨r, β1⟩, hfirst, hrest⟩ := Fueled.bind_eq_returns.mp hreturns
    cases r with
    | false => cases hrest
    | true =>
      obtain ⟨hplain, hself⟩ := ht hfirst
      obtain ⟨hplains, hselfs⟩ := ih hts hrest
      refine ⟨by rw [plainList, hplain, hplains, Bool.true_and], forall_mem_append.mpr
        ⟨fun id hid => ?_, hselfs⟩⟩
      exact grows_of_matchAll hrest id _ (hself id hid)

/-- **A type that matches itself** is plain, and its parameters are bound to themselves. -/
theorem self_of_matchTy (t : SourceType) {fuel : ℕ} {β β' : Bindings}
    (h : matchTy sa fuel t checkDefs t extDefs β = .returns (true, β')) :
    plain t = true ∧ ∀ id ∈ t.vars, β'[id]? = some (some (.var id)) := by
  induction t using Term.induction generalizing fuel β β' with
  | var id =>
    refine ⟨rfl, fun id' hid => ?_⟩
    rw [mem_singleton.mp hid]
    cases fuel with
    | zero => cases h
    | succ fuel =>
      obtain ⟨binding, hbinding, hrest⟩ := Fueled.bind_eq_returns.mp h
      rw [Fueled.ofOption_eq_returns] at hbinding
      cases binding with
      | some b =>
        obtain ⟨hb, rfl⟩ := Prod.mk.inj (Fueled.returns.inj hrest)
        rw [hbinding, of_decide_eq_true hb]
      | none =>
        obtain ⟨r, -, hpair⟩ := Fueled.bind_eq_returns.mp hrest
        cases hpair
        exact getElem?_set_self (List.getElem?_eq_some_iff.mp hbinding).1
  | const c =>
    refine ⟨?_, forall_mem_nil _⟩
    cases fuel with
    | zero => cases h
    | succ fuel =>
      cases c with
      | ptr | error | this | any => cases h
      | _ => rfl
  | app head args ih =>
    cases fuel with
    | zero => cases h
    | succ fuel =>
      rw [matchTy_succ, matchesWith_of_facing _ rfl] at h
      by_cases hhead : head.comparable = true
      · rw [compareConcreteTypes_args _ hhead rfl] at h
        rw [plain_app, hhead, Bool.true_and]
        exact selfAll_of_matchAll ih h
      · cases head with
        | lambda | trait => cases h
        | _ => exact absurd rfl hhead

end Self

/-! ## Impls -/

theorem mapM_id_eq_some_iff {α : Type} {l : List (Option α)} {l' : List α} :
    l.mapM id = some l' ↔ l = l'.map some := by
  rw [Layout.mapM_eq_some_iff, ← forall₂_eq_eq_eq, forall₂_map_right_iff]
  rfl

section Lookup

variable {sa : SemAnalysis} {checkDefs : TypeParamDefinition} {ty traitTy : SourceType}
  {impl : ImplDefinition}

/-- **An impl of the type itself** matches it iff the type's parameters have the bounds. -/
theorem implMatches_self (sa : SemAnalysis) (checkDefs : TypeParamDefinition)
    (hplain : plain impl.extendedTy = true) :
    ∃ r, Ends (fun fuel => implMatches sa fuel impl.extendedTy checkDefs impl) r ∧
      (r.isSome = true ↔ SameBounds impl.extendedTy.vars checkDefs impl.typeParams) := by
  have hready : SelfReady checkDefs impl.typeParams impl.extendedTy.vars
      (List.replicate impl.typeParams.len none) :=
    fun id hid => .inl (getElem?_replicate_of_lt ((impl.mem_vars_iff id).mp hid))
  obtain ⟨β, hends, hβ⟩ := selfMatches_of_plain sa impl.extendedTy hplain _ hready
  by_cases hbounds : SameBounds impl.extendedTy.vars checkDefs impl.typeParams
  · -- all parameters are bound
    obtain rfl : β = ((List.range impl.typeParams.len).map Term.var).map some := by
      rw [hβ hbounds]
      refine ext_getElem? fun id => ?_
      rw [getElem?_bindSelf, length_replicate]
      by_cases hid : id < impl.typeParams.len <;> simp [hid, impl.mem_vars_iff]
    refine ⟨some ((List.range impl.typeParams.len).map Term.var), hends.bind (.of_eq fun _ => ?_),
      by simp [hbounds]⟩
    rw [decide_eq_true hbounds]
    simp only [if_true, mapM_id_eq_some_iff.mpr rfl]
    rfl
  · refine ⟨none, hends.bind (.of_eq fun _ => ?_), by simp [hbounds]⟩
    rw [decide_eq_false hbounds]
    rfl

/-- The type matches the impl. -/
def Matched (sa : SemAnalysis) (checkDefs : TypeParamDefinition) (ty : SourceType)
    (impl : ImplDefinition) : Prop :=
  ∃ fuel bindings, implMatches sa fuel ty checkDefs impl = .returns (some bindings)

theorem matched_self_iff :
    Matched sa checkDefs impl.extendedTy impl ↔
      plain impl.extendedTy = true ∧ SameBounds impl.extendedTy.vars checkDefs impl.typeParams := by
  constructor
  · rintro ⟨fuel, bindings, h⟩
    have hplain : plain impl.extendedTy = true := by
      obtain ⟨⟨r, β⟩, hmatch, hrest⟩ := Fueled.bind_eq_returns.mp h
      cases r with
      | false => cases hrest
      | true => exact (self_of_matchTy _ hmatch).1
    obtain ⟨r, hends, hr⟩ := implMatches_self sa checkDefs hplain
    rw [← hends.eq_of_returns h] at hr
    exact ⟨hplain, hr.mp rfl⟩
  · rintro ⟨hplain, hbounds⟩
    obtain ⟨r, hends, hr⟩ := implMatches_self sa checkDefs hplain
    obtain ⟨bindings, rfl⟩ := Option.isSome_iff_exists.mp (hr.mpr hbounds)
    obtain ⟨fuel, h⟩ := hends.exists_returns
    exact ⟨fuel, bindings, h⟩

/-- An impl of the trait for the type itself, whose parameters have the bounds of the type's own
parameters of the same numbers. -/
def Direct (sa : SemAnalysis) (checkDefs : TypeParamDefinition) (ty traitTy : SourceType) : Prop :=
  ∃ impl ∈ sa.impls, impl.traitTy = traitTy ∧ impl.extendedTy = ty ∧ plain ty = true ∧
    SameBounds ty.vars checkDefs impl.typeParams

theorem findImplIn_ends (sa : SemAnalysis) (checkDefs : TypeParamDefinition) (traitTy : SourceType)
    (hplain : plain ty = true) (impls : List ImplDefinition) :
    ∃ r, Ends (fun fuel => findImplIn (matchTy sa fuel) ty checkDefs traitTy impls) r ∧
      (r.isSome = true ↔ ∃ impl ∈ impls, impl.traitTy = traitTy ∧ impl.extendedTy = ty ∧
        SameBounds ty.vars checkDefs impl.typeParams) := by
  induction impls with
  | nil => exact ⟨none, .of_eq fun _ => rfl, by simp⟩
  | cons impl impls ih =>
    obtain ⟨r, hends, hr⟩ := ih
    simp only [exists_mem_cons_iff]
    unfold findImplIn
    by_cases hty : impl.extendedTy = ty
    · subst hty
      by_cases htrait : impl.traitTy = traitTy
      · obtain ⟨r', hends', hr'⟩ := implMatches_self sa checkDefs hplain
        simp only [ne_eq, htrait]
        cases hsome : r'.isSome with
        | true =>
          refine ⟨some impl, hends'.bind (.of_eq fun _ => ?_), ?_⟩
          · rw [hsome]
            rfl
          · simp [hr'.mp hsome]
        | false =>
          refine ⟨r, hends'.bind ?_, ?_⟩
          · simp only [hsome]
            exact hends
          · rw [hr]
            have hno := mt hr'.mpr (Bool.eq_false_iff.mp hsome)
            simp [hno]
      · simp only [ne_eq, htrait, false_and, false_or]
        exact ⟨r, hends, hr⟩
    · simp only [ne_eq, hty, false_and, and_false, false_or]
      exact ⟨r, hends, hr⟩

theorem direct_of_findImplIn {fuel : ℕ} {impls : List ImplDefinition}
    (h : findImplIn (matchTy sa fuel) ty checkDefs traitTy impls = .returns (some impl)) :
    impl ∈ impls ∧ impl.traitTy = traitTy ∧ impl.extendedTy = ty ∧
      Matched sa checkDefs ty impl := by
  induction impls with
  | nil => cases h
  | cons impl' impls ih =>
    have hlater : findImplIn (matchTy sa fuel) ty checkDefs traitTy impls = .returns (some impl) →
        impl ∈ impl' :: impls ∧ impl.traitTy = traitTy ∧ impl.extendedTy = ty ∧
          Matched sa checkDefs ty impl := by
      intro hrest
      obtain ⟨hmem, hrest'⟩ := ih hrest
      exact ⟨mem_cons_of_mem _ hmem, hrest'⟩
    rw [findImplIn] at h
    split at h
    · exact hlater h
    next hty =>
      split at h
      · exact hlater h
      next htrait =>
        obtain ⟨r, hmatch, hrest⟩ := Fueled.bind_eq_returns.mp h
        cases r with
        | none => exact hlater hrest
        | some bindings =>
          obtain rfl := Option.some.inj (Fueled.returns.inj hrest)
          exact ⟨mem_cons_self, not_not.mp htrait, not_not.mp hty, fuel, bindings, hmatch⟩

/-- **What `find_impl` finds.** -/
theorem findImpl_iff :
    (∃ fuel impl, findImpl sa fuel ty checkDefs traitTy = .returns (some impl)) ↔
      Direct sa checkDefs ty traitTy := by
  constructor
  · rintro ⟨fuel, impl, h⟩
    obtain ⟨hmem, htrait, rfl, hmatched⟩ := direct_of_findImplIn h
    obtain ⟨hplain, hbounds⟩ := matched_self_iff.mp hmatched
    exact ⟨impl, hmem, htrait, rfl, hplain, hbounds⟩
  · rintro ⟨impl, hmem, htrait, hty, hplain, hbounds⟩
    obtain ⟨r, hends, hr⟩ := findImplIn_ends sa checkDefs traitTy hplain sa.impls
    obtain ⟨impl', rfl⟩ := Option.isSome_iff_exists.mp (hr.mpr ⟨impl, hmem, htrait, hty, hbounds⟩)
    obtain ⟨fuel, h⟩ := hends.exists_returns
    exact ⟨fuel, impl', h⟩

/-- Structs, enums, classes and primitive types. -/
def SourceType.isNominal (ty : SourceType) : Bool :=
  match ty with
  | .app (.struct _) _ | .app (.enum _) _ | .app (.class _) _ => true
  | _ => ty.isPrimitive

/-- For these types `implements_trait` asks `find_impl`, apart from the built-in trait `Zero`. -/
theorem implementsTrait_eq {id : ℕ} (hty : ty.isNominal = true)
    (htrait : traitTy.traitId = some id) (hzero : ty.isPrimitive = true → id ≠ sa.zero)
    (fuel : ℕ) :
    implementsTrait sa fuel ty checkDefs traitTy =
      (findImpl sa fuel ty checkDefs traitTy >>= fun r => .returns r.isSome) := by
  unfold implementsTrait implementsTraitWith findImpl
  rw [htrait]
  cases ty with
  | var id => cases hty
  | const c =>
    cases c with
    | error | any | unit | ptr | this => cases hty
    | _ => simp [hzero rfl]
  | app head args =>
    cases head with
    | tuple | trait | lambda => cases hty
    | _ => simp [SourceType.isPrimitive]

/-- **The two routes agree**: `find_impl`, and with it `implements_trait`, finds an impl iff there
is one that `impl_matches` accepts, as the lookup of methods does. -/
def LookupAgrees (sa : SemAnalysis) (checkDefs : TypeParamDefinition) (ty traitTy : SourceType) :
    Prop :=
  ((∃ fuel impl, findImpl sa fuel ty checkDefs traitTy = .returns (some impl)) ↔
    ∃ impl ∈ sa.impls, impl.traitTy = traitTy ∧ Matched sa checkDefs ty impl) ∧
  (¬ (ty.isPrimitive = true ∧ traitTy.traitId = some sa.zero) →
    ((∃ fuel, implementsTrait sa fuel ty checkDefs traitTy = .returns true) ↔
      ∃ impl ∈ sa.impls, impl.traitTy = traitTy ∧ Matched sa checkDefs ty impl))

theorem Direct.exists_matched (h : Direct sa checkDefs ty traitTy) :
    ∃ impl ∈ sa.impls, impl.traitTy = traitTy ∧ Matched sa checkDefs ty impl := by
  obtain ⟨impl, hmem, htrait, rfl, hplain, hbounds⟩ := h
  exact ⟨impl, hmem, htrait, matched_self_iff.mpr ⟨hplain, hbounds⟩⟩

/-- **Agreement**: if an impl of the trait matches the type, there has to be one for exactly this
type, with no more bounds than the type's own parameters of the same numbers have. -/
theorem lookupAgrees_iff {id : ℕ} (hty : ty.isNominal = true)
    (htrait : traitTy.traitId = some id) :
    LookupAgrees sa checkDefs ty traitTy ↔
      ((∃ impl ∈ sa.impls, impl.traitTy = traitTy ∧ Matched sa checkDefs ty impl) →
        Direct sa checkDefs ty traitTy) := by
  constructor
  · intro h hmatched
    exact findImpl_iff.mp (h.1.mpr hmatched)
  · intro h
    have hiff : Direct sa checkDefs ty traitTy ↔
        ∃ impl ∈ sa.impls, impl.traitTy = traitTy ∧ Matched sa checkDefs ty impl :=
      ⟨Direct.exists_matched, h⟩
    refine ⟨findImpl_iff.trans hiff, fun hzero => ?_⟩
    rw [← hiff, ← findImpl_iff]
    refine exists_congr fun fuel => ?_
    rw [implementsTrait_eq hty htrait fun hprim hid => hzero ⟨hprim, hid ▸ htrait⟩,
      Fueled.bind_eq_returns]
    constructor
    · rintro ⟨r, hr, hsome⟩
      obtain ⟨impl, rfl⟩ := Option.isSome_iff_exists.mp (Fueled.returns.inj hsome)
      exact ⟨impl, hr⟩
    · rintro ⟨impl, hr⟩
      exact ⟨some impl, hr, rfl⟩

end Lookup

/-- `impl[T] Tr for Foo[T]`. -/
def genericImpl : ImplDefinition where
  typeParams := ⟨1, []⟩
  traitTy := .app (.trait 1) []
  extendedTy := .app (.class 0) [.var 0]
  mem_vars_iff id := by simp [Term.varsList]

/-- **A generic impl is not found** for `Foo[Int32]`, which it matches. -/
theorem not_lookupAgrees_generic :
    ¬ LookupAgrees ⟨[genericImpl], 0⟩ .new (.app (.class 0) [.const .int32])
      (.app (.trait 1) []) := by
  intro h
  have hmatched : Matched ⟨[genericImpl], 0⟩ .new (.app (.class 0) [.const .int32]) genericImpl :=
    ⟨2, [.const .int32], by decide +kernel⟩
  obtain ⟨impl, hmem, -, hty, -⟩ :=
    findImpl_iff.mp (h.1.mpr ⟨genericImpl, mem_singleton_self _, rfl, hmatched⟩)
  obtain rfl := mem_singleton.mp hmem
  exact absurd hty (by decide)

/-- It is found for `Foo[A]`, where `A` is a type parameter. -/
theorem lookupAgrees_iff_generic :
    LookupAgrees ⟨[genericImpl], 0⟩ ⟨1, []⟩ (.app (.class 0) [.var 0]) (.app (.trait 1) []) ∧
      Direct ⟨[genericImpl], 0⟩ ⟨1, []⟩ (.app (.class 0) [.var 0]) (.app (.trait 1) []) := by
  have hdirect : Direct ⟨[genericImpl], 0⟩ ⟨1, []⟩ (.app (.class 0) [.var 0])
      (.app (.trait 1) []) :=
    ⟨genericImpl, mem_singleton_self _, rfl, rfl, rfl, by decide⟩
  exact ⟨(lookupAgrees_iff rfl rfl).mpr fun _ => hdirect, hdirect⟩

end Dora.Language
