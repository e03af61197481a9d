import Dora.Language.Differences

/-!
# What matching finds

`extension_matches_ty` should find the substitution that turns the type of an extension into the
given type and meets the bounds of the parameters. A parameter that occurs again is compared with
its binding as if the binding were part of the extension's type, although its type parameters are
those of the given type. This is right for bindings that are a type parameter, and for those whose
parameters are bound to themselves.

## Main definitions

* `Implements`: the impls of a trait, found by matching them with a type
* `IsMatch`, `MatchesRightly`: the substitutions that are looked for, and that they are found
* `Readable`: the matches that can be found

## Main results

* `accepts`, `wasRead_of_matchTy`: exactly the matches that can be found are found
* `matchesRightly_iff`: when matching is right
-/

namespace Dora.Language

open Fueled (Ends)
open SourceType (plain plainList)
open List Term

variable {sa : SemAnalysis} {checkDefs extDefs : TypeParamDefinition} {β β' : Bindings}
  {t e b ty : SourceType} {es : List SourceType} {id : ℕ} {σ : ℕ → SourceType}

variable {fuel : ℕ}

/-! ## What is looked for -/

/-- **A type implements a trait**: an impl matches it, and the bounds of the impl's parameters are
met; or it is a parameter with this bound; or it is a primitive type, which implements `Zero`. -/
inductive Implements (sa : SemAnalysis) (checkDefs : TypeParamDefinition) :
    SourceType → SourceType → Prop
  | zero {ty traitTy : SourceType} (hty : ty.isPrimitive = true)
      (hzero : traitTy.traitId = some sa.zero) : Implements sa checkDefs ty traitTy
  | param {id : ℕ} {traitTy : SourceType} (hmem : ⟨.var id, traitTy⟩ ∈ checkDefs.bounds) :
      Implements sa checkDefs (.var id) traitTy
  | impl {impl : ImplDefinition} (hmem : impl ∈ sa.impls) (σ : ℕ → SourceType)
      (hbounds : ∀ id, ∀ traitTy ∈ impl.typeParams.boundsForTypeParam id,
        Implements sa checkDefs (σ id) (traitTy.subst σ)) :
      Implements sa checkDefs (impl.extendedTy.subst σ) (impl.traitTy.subst σ)

/-- The substitution of a list of types. -/
def ofList (bindings : List SourceType) (id : ℕ) : SourceType := bindings.getD id (.const .error)

/-- **The substitutions that are looked for** turn the type of the extension into the given type,
and meet the bounds of its type parameters. -/
structure IsMatch (sa : SemAnalysis) (checkTy : SourceType) (checkDefs : TypeParamDefinition)
    (extTy : SourceType) (extDefs : TypeParamDefinition) (bindings : List SourceType) : Prop where
  length : bindings.length = extDefs.len
  subst : extTy.subst (ofList bindings) = checkTy
  bounds : ∀ id < extDefs.len, ∀ traitTy ∈ extDefs.boundsForTypeParam id,
    Implements sa checkDefs (ofList bindings id) (traitTy.subst (ofList bindings))

/-- **Matching is right**: it ends without a panic, and finds exactly the substitution that is
looked for. -/
def MatchesRightly (sa : SemAnalysis) (checkTy : SourceType) (checkDefs : TypeParamDefinition)
    (extTy : SourceType) (extDefs : TypeParamDefinition) : Prop :=
  ∃ r, Ends (fun fuel => extensionMatchesTy sa fuel checkTy checkDefs extTy extDefs) r ∧
    ∀ bindings, r = some bindings ↔ IsMatch sa checkTy checkDefs extTy extDefs bindings

/-! ## Types that match -/

/-- The substitution agrees with the bindings. -/
def Extends (σ : ℕ → SourceType) (β : Bindings) : Prop :=
  ∀ (id : ℕ) (ty : SourceType), β[id]? = some (some ty) → σ id = ty

/-- The parameter has a binding. -/
def IsBound (β : Bindings) (id : ℕ) : Prop := ∃ ty : SourceType, β[id]? = some (some ty)

/-- **A parameter can be compared with its binding** that is equal to what it faces: the binding is
a type parameter, or all parameters in it are bound to themselves. -/
def Rereadable (extDefs : TypeParamDefinition) (σ : ℕ → SourceType) (id : ℕ) : Prop :=
  (σ id).isTypeParam = true ∨
    plain (σ id) = true ∧ ∀ j ∈ (σ id).vars, j < extDefs.len ∧ σ j = .var j

/-- **A match that can be found.** The type of the extension has no lambda, no trait object and no
internal type in it, the bounds are found, and parameters that occur again can be compared. -/
structure Readable (sa : SemAnalysis) (checkDefs : TypeParamDefinition) (extTy : SourceType)
    (extDefs : TypeParamDefinition) (σ : ℕ → SourceType) : Prop where
  plain : plain extTy = true
  found : ∀ id < extDefs.len, ∀ traitTy ∈ extDefs.boundsForTypeParam id,
    Found sa checkDefs (σ id) traitTy
  repeated : ∀ id, 2 ≤ extTy.vars.count id → Rereadable extDefs σ id

/-- The bindings after the parameters `ids` have been matched. -/
structure Covers (extDefs : TypeParamDefinition) (σ : ℕ → SourceType) (ids : List ℕ)
    (β β' : Bindings) : Prop where
  length : β'.length = extDefs.len
  agrees : Extends σ β'
  grows : Grows β β'
  bound : ∀ id ∈ ids, IsBound β' id
  only : ∀ id, IsBound β' id → IsBound β id ∨ id ∈ ids ∨ Rereadable extDefs σ id

theorem Covers.trans {ids ids' : List ℕ} {β1 β2 : Bindings} (h : Covers extDefs σ ids β β1)
    (h' : Covers extDefs σ ids' β1 β2) : Covers extDefs σ (ids ++ ids') β β2 := by
  refine ⟨h'.length, h'.agrees, h.grows.trans h'.grows, forall_mem_append.mpr ⟨fun id hid => ?_,
    h'.bound⟩, fun id hid => ?_⟩
  · obtain ⟨ty, hty⟩ := h.bound id hid
    exact ⟨ty, h'.grows id ty hty⟩
  · rcases h'.only id hid with hid | hid | hid
    · rcases h.only id hid with hid | hid | hid
      · exact .inl hid
      · exact .inr (.inl (mem_append_left _ hid))
      · exact .inr (.inr hid)
    · exact .inr (.inl (mem_append_right _ hid))
    · exact .inr (.inr hid)

/-- The type of the extension is matched with what the substitution makes of it. -/
def Accepts (sa : SemAnalysis) (checkDefs extDefs : TypeParamDefinition) (σ : ℕ → SourceType)
    (e : SourceType) : Prop :=
  ∀ β, β.length = extDefs.len → Extends σ β →
    (∀ id ∈ e.vars, IsBound β id → Rereadable extDefs σ id) →
    ∃ β', Ends (fun fuel => matchTy sa fuel (e.subst σ) checkDefs e extDefs β) (true, β') ∧
      Covers extDefs σ e.vars β β'

theorem facing_of_not_isTypeParam (h : b.isTypeParam = false) (β : Bindings) :
    facing β b = some b := by
  cases b with
  | var => cases h
  | _ => rfl

/-- A parameter with a binding is treated like the binding. -/
theorem matchTy_facing (he : facing β e = some b) (hb : b.isTypeParam = false) (fuel : ℕ) :
    matchTy sa fuel t checkDefs e extDefs β = matchTy sa fuel t checkDefs b extDefs β := by
  cases fuel with
  | zero => rfl
  | succ fuel =>
    rw [matchTy_succ, matchTy_succ, matchesWith_of_facing _ he,
      matchesWith_of_facing _ (facing_of_not_isTypeParam hb β)]

theorem shallow_of_isTypeParam (h : t.isTypeParam = true) : t.shallow = true ∧ t.isLeaf = true := by
  cases t with
  | var => exact ⟨rfl, rfl⟩
  | _ => cases h

theorem getElem?_set_some {id' : ℕ} {ty' : SourceType} (hid : id < β.length)
    (h : (β.set id (some ty))[id']? = some (some ty')) :
    id' = id ∧ ty' = ty ∨ id' ≠ id ∧ β[id']? = some (some ty') := by
  by_cases heq : id = id'
  · subst heq
    rw [getElem?_set_self hid] at h
    exact .inl ⟨rfl, (Option.some.inj (Option.some.inj h)).symm⟩
  · rw [getElem?_set_ne heq] at h
    exact .inr ⟨Ne.symm heq, h⟩

section Accepts

variable (hbounds : TraitBounds sa extDefs)
  (hfound : ∀ id < extDefs.len, ∀ traitTy ∈ extDefs.boundsForTypeParam id,
    Found sa checkDefs (σ id) traitTy)

include hfound in
theorem compareTypeParamBounds_of_found (hid : id < extDefs.len) (hσ : σ id = .var id) :
    compareTypeParamBounds checkDefs id id extDefs = true := by
  refine all_eq_true.mpr fun traitTy hmem => ?_
  have h := hfound id hid traitTy hmem
  rw [hσ] at h
  exact found_var_iff.mp h

include hfound in
/-- **A parameter that occurs again**, with all parameters in its binding bound to themselves. -/
theorem accepts_again (hlength : β.length = extDefs.len) (hβ : Extends σ β)
    (hid : β[id]? = some (some (σ id))) (hparam : (σ id).isTypeParam = false)
    (hplain : plain (σ id) = true) (hvars : ∀ j ∈ (σ id).vars, j < extDefs.len ∧ σ j = .var j) :
    ∃ β', Ends (fun fuel => matchTy sa fuel (σ id) checkDefs (.var id) extDefs β) (true, β') ∧
      Covers extDefs σ [id] β β' := by
  have hsame : SameBounds (σ id).vars checkDefs extDefs := fun j hj =>
    compareTypeParamBounds_of_found hfound (hvars j hj).1 (hvars j hj).2
  have hready : SelfReady checkDefs extDefs (σ id).vars β := by
    intro j hj
    obtain ⟨hlt, hσ⟩ := hvars j hj
    rcases hget : β[j]? with _ | _ | ty
    · exact absurd (getElem?_eq_none_iff.mp hget) (by omega)
    · exact .inl rfl
    · rw [← hβ j ty hget, hσ]
      exact .inr ⟨rfl, hsame j hj⟩
  obtain ⟨β', hends, hβ'⟩ := selfMatches_of_plain sa (σ id) hplain β hready
  obtain rfl := hβ' hsame
  rw [decide_eq_true hsame] at hends
  have hfacing : facing β (.var id) = some (σ id) := by rw [facing, hid]; rfl
  simp only [matchTy_facing hfacing hparam]
  have hgrows : Grows β (bindSelf β (σ id).vars) := by
    intro j ty hj
    rw [getElem?_bindSelf]
    split
    next hmem => rw [← hβ j ty hj, (hvars j hmem.1).2]
    next => exact hj
  refine ⟨_, hends, (length_bindSelf ..).trans hlength, fun j ty hj => ?_, hgrows, fun j hj => ?_,
    ?_⟩
  · rw [getElem?_bindSelf] at hj
    split at hj
    next hmem =>
      cases hj
      exact (hvars j hmem.1).2
    next => exact hβ j ty hj
  · rw [mem_singleton.mp hj]
    exact ⟨_, hgrows id _ hid⟩
  · rintro j ⟨ty, hj⟩
    rw [getElem?_bindSelf] at hj
    split at hj
    next hmem => exact .inr (.inr (.inl (by rw [(hvars j hmem.1).2]; rfl)))
    next => exact .inl ⟨ty, hj⟩

include hbounds hfound

theorem accepts_var (hid : id < extDefs.len) : Accepts sa checkDefs extDefs σ (.var id) := by
  intro β hlength hβ hrep
  rcases hget : β[id]? with _ | _ | b
  · exact absurd (getElem?_eq_none_iff.mp hget) (by omega)
  · refine ⟨_, matchTy_of_found hbounds hget (hfound id hid), length_set.trans hlength,
      fun j ty hj => ?_, grows_set hget _, fun j hj => ?_, fun j ⟨ty, hj⟩ => ?_⟩
    · rcases getElem?_set_some (List.getElem?_eq_some_iff.mp hget).1 hj with ⟨rfl, rfl⟩ | ⟨-, hj⟩
      · rfl
      · exact hβ j ty hj
    · rw [mem_singleton.mp hj]
      exact ⟨_, getElem?_set_self (List.getElem?_eq_some_iff.mp hget).1⟩
    · rcases getElem?_set_some (List.getElem?_eq_some_iff.mp hget).1 hj with ⟨rfl, -⟩ | ⟨-, hj⟩
      · exact .inr (.inl (mem_singleton_self _))
      · exact .inl ⟨ty, hj⟩
  · obtain rfl := hβ id b hget
    have hrefl : Covers extDefs σ [id] β β := by
      refine ⟨hlength, hβ, fun _ _ h => h, fun j hj => ?_, fun _ h => .inl h⟩
      rw [mem_singleton.mp hj]
      exact ⟨_, hget⟩
    cases hparam : (σ id).isTypeParam with
    | true =>
      refine ⟨β, (Ends.of_eq fun _ => rfl).succ rfl fun fuel => ?_, hrefl⟩
      have hfacing : facing β (.var id) = some (σ id) := by rw [facing, hget]; rfl
      rw [matchTy_succ, matchesWith_of_facing _ hfacing]
      exact compareConcreteTypes_leaf _ (shallow_of_isTypeParam hparam).1
        (shallow_of_isTypeParam hparam).2
    | false =>
      rcases hrep id (mem_singleton_self id) ⟨_, hget⟩ with hparam' | ⟨hplain, hvars⟩
      · rw [hparam] at hparam'
        cases hparam'
      · exact accepts_again hfound hlength hβ hget hparam hplain hvars

omit hbounds hfound in
theorem matchAll_accepts (h : ∀ e ∈ es, Accepts sa checkDefs extDefs σ e)
    (hrep : ∀ id, 2 ≤ (varsList es).count id → Rereadable extDefs σ id)
    (hlength : β.length = extDefs.len) (hβ : Extends σ β)
    (hbound : ∀ id ∈ varsList es, IsBound β id → Rereadable extDefs σ id) :
    ∃ β', Ends (fun fuel => matchAll (matchTy sa fuel) checkDefs extDefs (es.map (subst σ)) es β)
        (true, β') ∧ Covers extDefs σ (varsList es) β β' := by
  induction es generalizing β with
  | nil =>
    exact ⟨β, .of_eq fun _ => rfl, hlength, hβ, fun _ _ h => h, forall_mem_nil _, fun _ => .inl⟩
  | cons e es ih =>
    obtain ⟨he, hes⟩ := forall_mem_cons.mp h
    simp only [varsList, count_append] at hrep hbound ⊢
    obtain ⟨β1, hends, hcovers⟩ := he β hlength hβ fun id hid => hbound id (mem_append_left _ hid)
    have hbound' : ∀ id ∈ varsList es, IsBound β1 id → Rereadable extDefs σ id := by
      intro id hid hb
      rcases hcovers.only id hb with hb | hmem | hread
      · exact hbound id (mem_append_right _ hid) hb
      · -- it occurs in the first type and in the others
        have h1 : 0 < e.vars.count id := count_pos_iff.mpr hmem
        have h2 := count_pos_iff.mpr hid
        exact hrep id (by omega)
      · exact hread
    obtain ⟨β2, hends', hcovers'⟩ :=
      ih hes (fun id hid => hrep id (by omega)) hcovers.length hcovers.agrees hbound'
    exact ⟨β2, hends.bind hends', hcovers.trans hcovers'⟩

/-- **A match that can be found** is found. -/
theorem accepts (e : SourceType) (hplain : plain e = true) (hids : ∀ id ∈ e.vars, id < extDefs.len)
    (hrep : ∀ id, 2 ≤ e.vars.count id → Rereadable extDefs σ id) :
    Accepts sa checkDefs extDefs σ e := by
  induction e using induction with
  | var id => exact accepts_var hbounds hfound (hids id (mem_singleton_self id))
  | const k =>
    intro β hlength hβ _
    have hk : SourceType.shallow (.const k) = true := hplain
    refine ⟨β, (Ends.of_eq fun _ => rfl).succ rfl fun fuel => ?_, hlength, hβ, fun _ _ h => h,
      forall_mem_nil _, fun _ => .inl⟩
    exact (matchesWith_of_facing _ rfl).trans (compareConcreteTypes_leaf _ hk rfl)
  | app head es ih =>
    rw [plain_app, Bool.and_eq_true] at hplain
    intro β hlength hβ hbound
    have hes : ∀ e ∈ es, Accepts sa checkDefs extDefs σ e := fun e he =>
      ih e he (plainList_iff.mp hplain.2 e he)
        (fun id hid => hids id (mem_varsList.mpr ⟨e, he, hid⟩))
        fun id hid => hrep id (Nat.le_trans hid (count_vars_le he id))
    obtain ⟨β', hends, hcovers⟩ := matchAll_accepts hes hrep hlength hβ hbound
    refine ⟨β', hends.succ rfl fun fuel => ?_, hcovers⟩
    rw [subst_app, matchTy_succ, matchesWith_of_facing _ rfl,
      compareConcreteTypes_args _ hplain.1 (length_map ..)]

end Accepts

/-! ## What a match that was found says -/

theorem length_of_matchTy
    (h : matchTy sa fuel t checkDefs e extDefs β = .returns (true, β')) :
    β'.length = β.length :=
  matchTy_rel (R := fun β β' => β'.length = β.length) (fun _ => rfl) (fun h h' => h'.trans h)
    (fun _ _ _ _ _ _ => length_set) h

/-- Every binding is an old one, or its bounds have been found. -/
theorem found_of_matchTy (hbounds : TraitBounds sa extDefs)
    (h : matchTy sa fuel t checkDefs e extDefs β = .returns (true, β')) :
    ∀ id ty, β'[id]? = some (some ty) → β[id]? = some (some ty) ∨
      ∀ traitTy ∈ extDefs.boundsForTypeParam id, Found sa checkDefs ty traitTy := by
  refine matchTy_rel (R := fun β β' => ∀ id ty, β'[id]? = some (some ty) → β[id]? = some (some ty) ∨
    ∀ traitTy ∈ extDefs.boundsForTypeParam id, Found sa checkDefs ty traitTy) (fun _ _ _ => .inl)
    (fun h h' id ty hid => ?_) (fun fuel t id β hfree hfulfills id' ty hid => ?_) h
  · rcases h' id ty hid with hid | hfound
    · exact h id ty hid
    · exact .inr hfound
  · rcases getElem?_set_some (List.getElem?_eq_some_iff.mp hfree).1 hid with ⟨rfl, rfl⟩ | ⟨-, hid⟩
    · rw [fulfillsBounds_eq] at hfulfills
      rcases fulfills_cases hfulfills with ⟨-, hall⟩ | ⟨hfalse, -⟩
      · exact .inr fun traitTy hmem =>
          (looksUp checkDefs (hbounds.of_mem hmem) _).found (hall traitTy hmem)
      · cases hfalse
    · exact .inl hid

/-- What is known when the parameters `ids` have been read. -/
structure WasRead (extDefs : TypeParamDefinition) (σ : ℕ → SourceType) (plain : Bool)
    (ids : List ℕ) (β β' : Bindings) : Prop where
  plain : plain = true
  bound : ∀ id ∈ ids, IsBound β' id
  again : ∀ id ∈ ids, IsBound β id → Rereadable extDefs σ id
  repeated : ∀ id, 2 ≤ ids.count id → Rereadable extDefs σ id

theorem wasRead_var (hlength : β.length = extDefs.len)
    (h : matchTy sa fuel (σ id) checkDefs (.var id) extDefs β = .returns (true, β'))
    (hβ' : Extends σ β') : WasRead extDefs σ true [id] β β' := by
  have hcount : ∀ id', ¬ 2 ≤ [id].count id' := by
    intro id'
    have := count_le_length (a := id') (l := [id])
    rw [length_singleton] at this
    omega
  have hbound : IsBound β' id := by
    cases fuel with
    | zero => cases h
    | succ fuel =>
      obtain ⟨binding, hbinding, hrest⟩ := Fueled.bind_eq_returns.mp h
      rw [Fueled.ofOption_eq_returns] at hbinding
      cases binding with
      | some b => exact ⟨b, grows_of_matchTy h id b hbinding⟩
      | none =>
        obtain ⟨r, -, hpair⟩ := Fueled.bind_eq_returns.mp hrest
        cases hpair
        exact ⟨_, getElem?_set_self (List.getElem?_eq_some_iff.mp hbinding).1⟩
  refine ⟨rfl, fun j hj => ?_, fun j hj hb => ?_, fun id' hid => absurd hid (hcount id')⟩
  · rw [mem_singleton.mp hj]
    exact hbound
  · obtain rfl := mem_singleton.mp hj
    obtain ⟨b, hb⟩ := hb
    obtain rfl := hβ' _ _ (grows_of_matchTy h _ _ hb)
    cases hparam : (σ j).isTypeParam with
    | true => exact .inl hparam
    | false =>
      have hfacing : facing β (.var j) = some (σ j) := by rw [facing, hb]; rfl
      have hself := h
      rw [matchTy_facing hfacing hparam] at hself
      obtain ⟨hplain, hvars⟩ := self_of_matchTy _ hself
      refine .inr ⟨hplain, fun k hk => ⟨?_, hβ' k _ (hvars k hk)⟩⟩
      rw [← hlength, ← length_of_matchTy h]
      exact (List.getElem?_eq_some_iff.mp (hvars k hk)).1

theorem wasRead_list (h : ∀ e ∈ es, ∀ {fuel β β'}, β.length = extDefs.len →
      matchTy sa fuel (e.subst σ) checkDefs e extDefs β = .returns (true, β') → Extends σ β' →
      WasRead extDefs σ (plain e) e.vars β β')
    (hlength : β.length = extDefs.len)
    (hreturns : matchAll (matchTy sa fuel) checkDefs extDefs (es.map (subst σ)) es β =
      .returns (true, β'))
    (hβ' : Extends σ β') : WasRead extDefs σ (plainList es) (varsList es) β β' := by
  induction es generalizing β with
  | nil => exact ⟨rfl, forall_mem_nil _, forall_mem_nil _, fun id hid => by simp [varsList] at hid⟩
  | cons e es ih =>
    obtain ⟨he, hes⟩ := forall_mem_cons.mp h
    obtain ⟨⟨r, β1⟩, hfirst, hothers⟩ := Fueled.bind_eq_returns.mp hreturns
    cases r with
    | false => cases hothers
    | true =>
      have hgrows := grows_of_matchAll hothers
      have h1 := he hlength hfirst fun id ty hid => hβ' id ty (hgrows id ty hid)
      have h2 := ih hes ((length_of_matchTy hfirst).trans hlength) hothers
      have hmono : ∀ id, IsBound β1 id → IsBound β' id := fun id ⟨ty, hid⟩ => ⟨ty, hgrows id ty hid⟩
      refine ⟨by rw [plainList, h1.plain, h2.plain, Bool.true_and], ?_, ?_, fun id hid => ?_⟩
      · exact forall_mem_append.mpr ⟨fun id hid => hmono id (h1.bound id hid), h2.bound⟩
      · refine forall_mem_append.mpr ⟨h1.again, fun id hid ⟨ty, hb⟩ => ?_⟩
        exact h2.again id hid ⟨ty, grows_of_matchTy hfirst id ty hb⟩
      · rw [varsList, count_append] at hid
        by_cases hfew : 2 ≤ e.vars.count id
        · exact h1.repeated id hfew
        · by_cases hmem : id ∈ e.vars
          · -- it occurs in the first type and in the others
            have hlater : 0 < (varsList es).count id := by
              have := count_pos_iff.mpr hmem
              omega
            exact h2.again id (count_pos_iff.mp hlater) (h1.bound id hmem)
          · rw [count_eq_zero.mpr hmem] at hid
            exact h2.repeated id (by omega)

/-- **A match that was found** could be found. -/
theorem wasRead_of_matchTy (e : SourceType) {β β' : Bindings} (hlength : β.length = extDefs.len)
    (h : matchTy sa fuel (e.subst σ) checkDefs e extDefs β = .returns (true, β'))
    (hβ' : Extends σ β') : WasRead extDefs σ (plain e) e.vars β β' := by
  induction e using induction generalizing fuel β β' with
  | var id => exact wasRead_var hlength h hβ'
  | const k =>
    refine ⟨(self_of_matchTy _ h).1, forall_mem_nil _, forall_mem_nil _, fun id hid => ?_⟩
    simp at hid
  | app head es ih =>
    cases fuel with
    | zero => cases h
    | succ fuel =>
      rw [subst_app, matchTy_succ, matchesWith_of_facing _ rfl] at h
      by_cases hhead : head.comparable = true
      · rw [compareConcreteTypes_args _ hhead (length_map ..)] at h
        rw [plain_app, hhead, Bool.true_and]
        exact wasRead_list ih hlength h hβ'
      · cases head with
        | lambda | trait => cases h
        | _ => exact absurd rfl hhead

/-! ## Extensions -/

/-- The extension's type mentions its type parameters, all of them and no others, and all bounds are
traits. -/
structure WellFormedInput (sa : SemAnalysis) (extTy : SourceType) (extDefs : TypeParamDefinition) :
    Prop where
  mem_vars_iff : ∀ id, id ∈ extTy.vars ↔ id < extDefs.len
  bounds : TraitBounds sa extDefs
  impls : ∀ impl ∈ sa.impls, TraitBounds sa impl.typeParams

theorem extends_replicate (σ : ℕ → SourceType) (n : ℕ) : Extends σ (List.replicate n none) := by
  intro id ty hty
  rw [getElem?_replicate] at hty
  split at hty <;> cases hty

theorem extends_map_some (bindings : List SourceType) :
    Extends (ofList bindings) (bindings.map some) := by
  intro id ty hty
  rw [getElem?_map, Option.map_eq_some_iff] at hty
  obtain ⟨_, hget, heq⟩ := hty
  cases heq
  rw [ofList, getD_eq_getElem?_getD, hget]
  rfl

section

variable {checkTy extTy : SourceType} {bindings : List SourceType}

theorem ends_of_isMatch (hinput : WellFormedInput sa extTy extDefs)
    (hmatch : IsMatch sa checkTy checkDefs extTy extDefs bindings)
    (hread : Readable sa checkDefs extTy extDefs (ofList bindings)) :
    Ends (fun fuel => extensionMatchesTy sa fuel checkTy checkDefs extTy extDefs)
      (some bindings) := by
  obtain ⟨β, hends, hcovers⟩ := accepts hinput.bounds hread.found extTy hread.plain
    (fun id => (hinput.mem_vars_iff id).mp) hread.repeated _ length_replicate
    (extends_replicate _ _) fun id _ ⟨ty, hty⟩ => by
      rw [getElem?_replicate] at hty
      split at hty <;> cases hty
  rw [hmatch.subst] at hends
  have hβ : β = bindings.map some := by
    refine ext_getElem? fun id => ?_
    by_cases hid : id < extDefs.len
    · obtain ⟨ty, hty⟩ := hcovers.bound id ((hinput.mem_vars_iff id).mpr hid)
      have hlt : id < bindings.length := by rw [hmatch.length]; exact hid
      rw [hty, ← hcovers.agrees id ty hty, ofList, getD_eq_getElem?_getD, getElem?_map,
        getElem?_eq_getElem hlt]
      rfl
    · rw [getElem?_eq_none (by rw [hcovers.length]; omega),
        getElem?_eq_none (by rw [length_map, hmatch.length]; omega)]
  refine hends.bind (.of_eq fun _ => ?_)
  simp only [if_true, mapM_id_eq_some_iff.mpr hβ]
  rfl

theorem readable_of_returns (hinput : WellFormedInput sa extTy extDefs)
    (hsubst : extTy.subst (ofList bindings) = checkTy) {fuel : ℕ}
    (h : extensionMatchesTy sa fuel checkTy checkDefs extTy extDefs = .returns (some bindings)) :
    Readable sa checkDefs extTy extDefs (ofList bindings) := by
  obtain ⟨⟨r, β⟩, hmatch, hrest⟩ := Fueled.bind_eq_returns.mp h
  cases r with
  | false => cases hrest
  | true =>
    obtain ⟨bindings', hsome, heq⟩ := Fueled.bind_eq_returns.mp hrest
    cases heq
    obtain rfl := mapM_id_eq_some_iff.mp (Fueled.ofOption_eq_returns.mp hsome)
    subst hsubst
    have hagrees := extends_map_some bindings
    have hread := wasRead_of_matchTy extTy length_replicate hmatch hagrees
    refine ⟨hread.plain, fun id hid => ?_, hread.repeated⟩
    obtain ⟨ty, hty⟩ := hread.bound id ((hinput.mem_vars_iff id).mpr hid)
    rw [hagrees id ty hty]
    refine (found_of_matchTy hinput.bounds hmatch id ty hty).resolve_left fun hold => ?_
    rw [getElem?_replicate] at hold
    split at hold <;> cases hold

end

/-- `impl Tr for Int32`. -/
def int32Impl : ImplDefinition where
  typeParams := .new
  traitTy := .app (.trait 1) []
  extendedTy := .const .int32
  mem_vars_iff id := by simp [TypeParamDefinition.new]

/-- `Vec[A]`, where `A` is a type parameter of the function that is checked. -/
def vecA : SourceType := .app (.class 1) [.var 0]

end Dora.Language
