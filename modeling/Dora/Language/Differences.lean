import Dora.Language.ImplLookup

/-!
# Types that do not match

Matching goes through the two types from left to right until it reaches a difference. It panics at a
lambda, a trait object or an internal type that it meets before.

## Main definitions

* `Found`: the bounds that the lookup of impls finds
* `ReachesDifference`: a difference is reached before anything at which matching panics

## Main results

* `looksUp`: how a bound is looked up, for every kind of type
* `refusesRightly_matchTy`, `refuses`: matching refuses two types iff it reaches a difference
-/

namespace Dora.Language

open Fueled (Ends)
open List Term Fueled

variable {sa : SemAnalysis} {checkDefs extDefs : TypeParamDefinition} {β β' : Bindings}
  {e b c ty traitTy : SourceType} {es cs : List SourceType} {id : ℕ}
  {places : List (SourceType × SourceType)}

variable {recurse : Matcher} {impls : List ImplDefinition} {r : Bool} {traitTys : List SourceType}
    {fuel : ℕ}

/-! ## Bounds -/

/-- **The bounds that are found**: an impl has to be one of the type itself. -/
inductive Found (sa : SemAnalysis) (checkDefs : TypeParamDefinition) :
    SourceType → SourceType → Prop
  | zero {ty traitTy : SourceType} (hty : ty.isPrimitive = true)
      (hzero : traitTy.traitId = some sa.zero) : Found sa checkDefs ty traitTy
  | param {id : ℕ} {traitTy : SourceType} (hmem : ⟨.var id, traitTy⟩ ∈ checkDefs.bounds) :
      Found sa checkDefs (.var id) traitTy
  | impl {ty traitTy : SourceType} (hty : ty.isNominal = true)
      (hdirect : Direct sa checkDefs ty traitTy) : Found sa checkDefs ty traitTy

/-- A trait. `Zero` has no type parameters. -/
def IsTrait (sa : SemAnalysis) (traitTy : SourceType) : Prop :=
  ∃ id, traitTy.traitId = some id ∧ (id = sa.zero → traitTy.typeParams = [])

/-- The bounds are traits. -/
def TraitBounds (sa : SemAnalysis) (defs : TypeParamDefinition) : Prop :=
  ∀ bound ∈ defs.bounds, IsTrait sa bound.traitTy

theorem TraitBounds.of_mem (h : TraitBounds sa extDefs)
    (hmem : traitTy ∈ extDefs.boundsForTypeParam id) : IsTrait sa traitTy := by
  obtain ⟨bound, hbound, rfl⟩ := mem_map.mp hmem
  exact h bound (mem_filter.mp hbound).1

/-- **How a bound is looked up**, with any number of nested calls. -/
inductive LooksUp (sa : SemAnalysis) (checkDefs : TypeParamDefinition) (traitTy : SourceType) :
    SourceType → (ℕ → Fueled Bool) → Prop
  | zero {ty : SourceType} (hty : ty.isPrimitive = true) (hzero : traitTy.traitId = some sa.zero) :
      LooksUp sa checkDefs traitTy ty fun _ => .returns true
  | impls {ty : SourceType} (hty : ty.isNominal = true)
      (hzero : ty.isPrimitive = true → traitTy.traitId ≠ some sa.zero) :
      LooksUp sa checkDefs traitTy ty fun fuel =>
        findImpl sa fuel ty checkDefs traitTy >>= fun r => .returns r.isSome
  | param (id : ℕ) : LooksUp sa checkDefs traitTy (.var id) fun _ =>
      .returns (checkDefs.implementsTrait id traitTy)
  | never {ty : SourceType} (hty : ty.isNominal = false) (hparam : ty.isTypeParam = false)
      (hleaf : ty.isLeaf = true → ty.shallow = true) :
      LooksUp sa checkDefs traitTy ty fun _ => .returns false
  | panics {ty : SourceType} (hty : ty.isNominal = false) (hparam : ty.isTypeParam = false)
      (hleaf : ty.isLeaf = true) (hshallow : ty.shallow = false) :
      LooksUp sa checkDefs traitTy ty fun _ => .trap

theorem looksUp (checkDefs : TypeParamDefinition) (htrait : IsTrait sa traitTy) (ty : SourceType) :
    LooksUp sa checkDefs traitTy ty fun fuel => implementsTrait sa fuel ty checkDefs traitTy := by
  obtain ⟨id, hid, hzero⟩ := htrait
  by_cases hnominal : ty.isNominal = true
  · by_cases hprim : ty.isPrimitive = true ∧ id = sa.zero
    · have htrue : ∀ fuel, implementsTrait sa fuel ty checkDefs traitTy = .returns true := by
        intro fuel
        unfold implementsTrait implementsTraitWith
        rw [hid]
        simp [hprim.1, hprim.2, hzero hprim.2]
      rw [funext htrue]
      exact .zero hprim.1 (by rw [hid, hprim.2])
    · have hne : ty.isPrimitive = true → id ≠ sa.zero := fun h h' => hprim ⟨h, h'⟩
      rw [funext (implementsTrait_eq hnominal hid hne)]
      exact .impls hnominal fun h heq => hne h (Option.some.inj (hid.symm.trans heq))
  · cases ty with
    | var id => exact .param id
    | const k =>
      cases k with
      | unit => exact .never rfl rfl fun _ => rfl
      | error | any | ptr | this => exact .panics rfl rfl rfl rfl
      | _ => exact absurd rfl hnominal
    | app head args =>
      cases head with
      | tuple | lambda | trait => exact .never rfl rfl nofun
      | _ => exact absurd rfl hnominal

theorem found_var_iff : Found sa checkDefs (.var id) traitTy ↔
    checkDefs.implementsTrait id traitTy = true := by
  rw [TypeParamDefinition.implementsTrait, decide_eq_true_iff]
  constructor
  · rintro (⟨h, -⟩ | h | ⟨h, -⟩)
    · cases h
    · exact h
    · cases h
  · exact .param

theorem isNominal_of_isPrimitive (h : ty.isPrimitive = true) : ty.isNominal = true := by
  cases ty with
  | app => cases h
  | _ => exact h

namespace LooksUp

variable {x : ℕ → Fueled Bool}

section

variable (h : LooksUp sa checkDefs traitTy ty x)
include h

theorem found {fuel : ℕ} (hx : x fuel = .returns true) : Found sa checkDefs ty traitTy := by
  cases h with
  | zero hty hzero => exact .zero hty hzero
  | impls hty hzero =>
    obtain ⟨r, hr, hsome⟩ := bind_eq_returns.mp hx
    obtain ⟨impl, rfl⟩ := Option.isSome_iff_exists.mp (returns.inj hsome)
    exact .impl hty (findImpl_iff.mp ⟨fuel, impl, hr⟩)
  | param id => exact found_var_iff.mpr (returns.inj hx)
  | never | panics => cases hx

theorem ends_true (hfound : Found sa checkDefs ty traitTy) : Ends x true := by
  cases h with
  | zero => exact .of_eq fun _ => rfl
  | impls hty hzero =>
    have hdirect : Direct sa checkDefs ty traitTy := by
      cases hfound with
      | zero hprim hid => exact absurd hid (hzero hprim)
      | param => cases hty
      | impl _ hdirect => exact hdirect
    obtain ⟨impl, hmem, htrait, hext, hplain, hbounds⟩ := hdirect
    obtain ⟨r, hends, hr⟩ := findImplIn_ends sa checkDefs traitTy hplain sa.impls
    have hsome := hr.mpr ⟨impl, hmem, htrait, hext, hbounds⟩
    exact hends.bind (.of_eq fun _ => by rw [hsome])
  | param id => exact .of_eq fun _ => by rw [found_var_iff.mp hfound]
  | never hty hparam | panics hty hparam =>
    cases hfound with
    | zero hprim => exact absurd (hty.symm.trans (isNominal_of_isPrimitive hprim)) nofun
    | param => cases hparam
    | impl hnominal => exact absurd (hty.symm.trans hnominal) nofun

theorem not_found {fuel : ℕ} (hx : x fuel = .returns false) :
    ¬ Found sa checkDefs ty traitTy ∧ (ty.isLeaf = true → ty.shallow = true) ∧
      (ty.isNominal = true → findImpl sa fuel ty checkDefs traitTy = .returns none) := by
  refine ⟨fun hfound => absurd ((h.ends_true hfound).eq_of_returns hx) nofun, ?_⟩
  cases h with
  | zero | panics => cases hx
  | impls hty hzero =>
    obtain ⟨r, hr, hnone⟩ := bind_eq_returns.mp hx
    cases r with
    | some impl => cases hnone
    | none =>
      refine ⟨fun hleaf => ?_, fun _ => hr⟩
      cases ty with
      | var => rfl
      | const k => cases k <;> first | rfl | cases hty
      | app => cases hleaf
  | param id => exact ⟨fun _ => rfl, nofun⟩
  | never hty _ hleaf => exact ⟨hleaf, fun hnominal => absurd (hty.symm.trans hnominal) nofun⟩

theorem ends_false (hnot : ¬ Found sa checkDefs ty traitTy)
    (hleaf : ty.isLeaf = true → ty.shallow = true)
    (hfind : ty.isNominal = true → Ends (fun fuel => findImpl sa fuel ty checkDefs traitTy) none) :
    Ends x false := by
  cases h with
  | zero hty hzero => exact absurd (.zero hty hzero) hnot
  | impls hty => exact (hfind hty).bind (.of_eq fun _ => rfl)
  | param id => exact .of_eq fun _ => by rw [eq_false_of_ne_true (mt found_var_iff.mpr hnot)]
  | never => exact .of_eq fun _ => rfl
  | panics _ _ hl hshallow => exact absurd ((hleaf hl).symm.trans hshallow) nofun

end

end LooksUp

/-! ## Places that differ -/

/-- **A difference is reached**: the types are compared place by place, from left to right. A place
is a type of the extension and the type that it has to become. At a parameter that is bound already
its binding is compared, as if its own parameters were those of the extension. Nothing that is met
before the difference is a lambda, a trait object or an internal type. -/
inductive ReachesDifference (sa : SemAnalysis) (checkDefs : TypeParamDefinition) :
    TypeParamDefinition → Bindings → List (SourceType × SourceType) → Prop
  /-- Two kinds of types. -/
  | differs {extDefs : TypeParamDefinition} {β : Bindings} {e b c : SourceType}
      {places : List (SourceType × SourceType)} (hb : facing β e = some b) (hc : c.shallow = true)
      (hne : b.sameRoot c = false) : ReachesDifference sa checkDefs extDefs β ((e, c) :: places)
  /-- A type without arguments, and itself. -/
  | equal {extDefs : TypeParamDefinition} {β : Bindings} {e c : SourceType}
      {places : List (SourceType × SourceType)} (hb : facing β e = some c) (hc : c.shallow = true)
      (hleaf : c.isLeaf = true) (rest : ReachesDifference sa checkDefs extDefs β places) :
      ReachesDifference sa checkDefs extDefs β ((e, c) :: places)
  /-- Two types of the same kind: their arguments are the next places. -/
  | args {extDefs : TypeParamDefinition} {β : Bindings} {e : SourceType} {head : TypeHead}
      {es cs : List SourceType} {places : List (SourceType × SourceType)}
      (hb : facing β e = some (.app head es)) (hhead : head.comparable = true)
      (hlength : cs.length = es.length)
      (rest : ReachesDifference sa checkDefs extDefs β (es.zip cs ++ places)) :
      ReachesDifference sa checkDefs extDefs β ((e, .app head cs) :: places)
  /-- A parameter that is bound here, with its bounds. -/
  | bind {extDefs : TypeParamDefinition} {β : Bindings} {id : ℕ} {c : SourceType}
      {places : List (SourceType × SourceType)} (hfree : β[id]? = some none)
      (hfound : ∀ traitTy ∈ extDefs.boundsForTypeParam id, Found sa checkDefs c traitTy)
      (rest : ReachesDifference sa checkDefs extDefs (β.set id (some c)) places) :
      ReachesDifference sa checkDefs extDefs β ((.var id, c) :: places)
  /-- A parameter with a bound that is not found. Every impl of the type itself for this bound
  has to differ as well. -/
  | unmet {extDefs : TypeParamDefinition} {β : Bindings} {id : ℕ} {c traitTy : SourceType}
      {before behind : List SourceType} {places : List (SourceType × SourceType)}
      (hfree : β[id]? = some none)
      (hbounds : extDefs.boundsForTypeParam id = before ++ traitTy :: behind)
      (hbefore : ∀ traitTy ∈ before, Found sa checkDefs c traitTy)
      (hnot : ¬ Found sa checkDefs c traitTy) (hleaf : c.isLeaf = true → c.shallow = true)
      (himpls : c.isNominal = true → ∀ impl ∈ sa.impls, impl.traitTy = traitTy →
        impl.extendedTy = c → ReachesDifference sa checkDefs impl.typeParams
          (List.replicate impl.typeParams.len none) [(c, c)]) :
      ReachesDifference sa checkDefs extDefs β ((.var id, c) :: places)

theorem exists_refused_of_findImplIn
    (h : findImplIn recurse ty checkDefs traitTy impls = .returns none) {impl : ImplDefinition}
    (hmem : impl ∈ impls) (htrait : impl.traitTy = traitTy) (hty : impl.extendedTy = ty) :
    ∃ β, recurse ty checkDefs ty impl.typeParams (List.replicate impl.typeParams.len none) =
      .returns (false, β) := by
  induction impls with
  | nil => cases hmem
  | cons impl' impls ih =>
    rw [findImplIn] at h
    rcases mem_cons.mp hmem with rfl | hmem
    · rw [if_neg (not_not.mpr hty), if_neg (not_not.mpr htrait)] at h
      obtain ⟨r, hmatches, hrest⟩ := bind_eq_returns.mp h
      obtain ⟨⟨result, β⟩, hmatch, hresult⟩ := bind_eq_returns.mp hmatches
      cases result with
      | false => exact ⟨β, by rw [← hmatch, hty]⟩
      | true =>
        obtain ⟨bindings, -, hsome⟩ := bind_eq_returns.mp hresult
        cases hsome
        cases hrest
    · split at h
      · exact ih h hmem
      · split at h
        · exact ih h hmem
        · obtain ⟨r, -, hrest⟩ := bind_eq_returns.mp h
          cases r with
          | some bindings => cases hrest
          | none => exact ih hrest hmem

theorem findImplIn_ends_none
    (h : ∀ impl ∈ impls, impl.traitTy = traitTy → impl.extendedTy = ty →
      ∃ β, Ends (fun fuel => matchTy sa fuel ty checkDefs ty impl.typeParams
        (List.replicate impl.typeParams.len none)) (false, β)) :
    Ends (fun fuel => findImplIn (matchTy sa fuel) ty checkDefs traitTy impls) none := by
  induction impls with
  | nil => exact .of_eq fun _ => rfl
  | cons impl impls ih =>
    obtain ⟨himpl, hrest⟩ := forall_mem_cons.mp h
    have hends := ih hrest
    unfold findImplIn
    by_cases hty : impl.extendedTy = ty
    · subst hty
      by_cases htrait : impl.traitTy = traitTy
      · obtain ⟨β, hrefused⟩ := himpl htrait rfl
        have hnone : Ends (fun fuel => implMatchesWith (matchTy sa fuel) impl.extendedTy checkDefs
            impl) none := hrefused.bind (.of_eq fun _ => rfl)
        simp only [htrait, ne_eq, not_true_eq_false, if_false]
        exact hnone.bind hends
      · simp only [ne_eq, htrait, not_false_eq_true, not_true_eq_false, if_false, if_true]
        exact hends
    · simp only [ne_eq, hty, not_false_eq_true, if_true]
      exact hends

/-! ## The difference that matching reaches -/

/-- A way to match types refuses them only if a difference is reached. -/
def RefusesRightly (sa : SemAnalysis) (checkDefs : TypeParamDefinition)
    (recurse : Matcher) : Prop :=
  ∀ {extDefs}, TraitBounds sa extDefs → ∀ {c e β r β' places},
    recurse c checkDefs e extDefs β = .returns (r, β') →
    (r = true → ReachesDifference sa checkDefs extDefs β' places) →
    ReachesDifference sa checkDefs extDefs β ((e, c) :: places)

theorem reaches_of_matchAll (h : RefusesRightly sa checkDefs recurse)
    (hbounds : TraitBounds sa extDefs) (hlength : cs.length = es.length)
    (hreturns : matchAll recurse checkDefs extDefs cs es β = .returns (r, β'))
    (hrest : r = true → ReachesDifference sa checkDefs extDefs β' places) :
    ReachesDifference sa checkDefs extDefs β (es.zip cs ++ places) := by
  induction cs generalizing es β with
  | nil =>
    obtain rfl := length_eq_zero_iff.mp hlength.symm
    cases hreturns
    exact hrest rfl
  | cons c cs ih =>
    cases es with
    | nil => cases hlength
    | cons e es =>
      obtain ⟨⟨r1, β1⟩, hfirst, hothers⟩ := bind_eq_returns.mp hreturns
      refine h hbounds hfirst fun hr => ?_
      subst hr
      exact ih (Nat.succ.inj hlength) hothers

/-- A type parameter is no special case. -/
theorem fulfillsBounds_eq (recurse : Matcher) :
    fulfillsBounds sa recurse c checkDefs extDefs id =
      concreteTypeFulfillsBounds sa recurse c checkDefs (extDefs.boundsForTypeParam id) := by
  cases c with
  | var checkId =>
    rw [fulfillsBounds, compareTypeParamBounds]
    induction extDefs.boundsForTypeParam id with
    | nil => rfl
    | cons traitTy traitTys ih =>
      have hlook : implementsTraitWith sa recurse (.var checkId) checkDefs traitTy =
          .returns (checkDefs.implementsTrait checkId traitTy) := rfl
      rw [concreteTypeFulfillsBounds, hlook, returns_bind, ← ih, all_cons]
      cases checkDefs.implementsTrait checkId traitTy <;> rfl
  | _ => rfl

theorem fulfills_cases
    (h : concreteTypeFulfillsBounds sa (matchTy sa fuel) c checkDefs traitTys = .returns r) :
    (r = true ∧ ∀ traitTy ∈ traitTys, implementsTrait sa fuel c checkDefs traitTy = .returns true) ∨
    r = false ∧ ∃ before traitTy behind, traitTys = before ++ traitTy :: behind ∧
      (∀ traitTy ∈ before, implementsTrait sa fuel c checkDefs traitTy = .returns true) ∧
      implementsTrait sa fuel c checkDefs traitTy = .returns false := by
  induction traitTys with
  | nil =>
    cases h
    exact .inl ⟨rfl, forall_mem_nil _⟩
  | cons traitTy traitTys ih =>
    obtain ⟨r1, hfirst, hothers⟩ := bind_eq_returns.mp h
    cases r1 with
    | false =>
      cases hothers
      exact .inr ⟨rfl, [], traitTy, traitTys, rfl, forall_mem_nil _, hfirst⟩
    | true =>
      rcases ih hothers with ⟨hr, hall⟩ | ⟨hr, before, traitTy', behind, rfl, hbefore, hnot⟩
      · exact .inl ⟨hr, forall_mem_cons.mpr ⟨hfirst, hall⟩⟩
      · exact .inr ⟨hr, traitTy :: before, traitTy', behind, rfl,
          forall_mem_cons.mpr ⟨hfirst, hbefore⟩, hnot⟩

theorem fulfills_ends {before : List SourceType}
    (hbefore : ∀ traitTy ∈ before,
      Ends (fun fuel => implementsTrait sa fuel c checkDefs traitTy) true)
    (h : Ends
      (fun fuel => concreteTypeFulfillsBounds sa (matchTy sa fuel) c checkDefs traitTys) r) :
    Ends (fun fuel => concreteTypeFulfillsBounds sa (matchTy sa fuel) c checkDefs
      (before ++ traitTys)) r := by
  induction before with
  | nil => exact h
  | cons traitTy before ih =>
    obtain ⟨hfirst, hothers⟩ := forall_mem_cons.mp hbefore
    exact hfirst.bind (ih hothers)

theorem reaches_of_fulfillsBounds (h : RefusesRightly sa checkDefs (matchTy sa fuel))
    (himpls : ∀ impl ∈ sa.impls, TraitBounds sa impl.typeParams)
    (hbounds : TraitBounds sa extDefs) (hfree : β[id]? = some none)
    (hreturns : fulfillsBounds sa (matchTy sa fuel) c checkDefs extDefs id = .returns r)
    (hrest : r = true → ReachesDifference sa checkDefs extDefs (β.set id (some c)) places) :
    ReachesDifference sa checkDefs extDefs β ((.var id, c) :: places) := by
  rw [fulfillsBounds_eq] at hreturns
  have hfound : ∀ {traitTy}, traitTy ∈ extDefs.boundsForTypeParam id →
      implementsTrait sa fuel c checkDefs traitTy = .returns true → Found sa checkDefs c traitTy :=
    fun hmem => (looksUp checkDefs (hbounds.of_mem hmem) c).found
  rcases fulfills_cases hreturns with ⟨rfl, hall⟩ |
    ⟨rfl, before, traitTy, behind, heq, hbefore, hnot⟩
  · exact .bind hfree (fun traitTy hmem => hfound hmem (hall traitTy hmem)) (hrest rfl)
  · have hmem : ∀ {traitTy'}, traitTy' ∈ before ++ traitTy :: behind →
        traitTy' ∈ extDefs.boundsForTypeParam id := fun h => by rwa [heq]
    have htrait := hbounds.of_mem (hmem (mem_append_right _ mem_cons_self))
    obtain ⟨hnotFound, hleaf, hfind⟩ := (looksUp checkDefs htrait c).not_found hnot
    refine .unmet hfree heq (fun traitTy' h' => ?_) hnotFound hleaf
      fun hnominal impl hi ht hty => ?_
    · exact hfound (hmem (mem_append_left _ h')) (hbefore traitTy' h')
    · obtain ⟨β1, hrefused⟩ := exists_refused_of_findImplIn (hfind hnominal) hi ht hty
      exact h (himpls impl hi) hrefused nofun

/-- **What is refused** has a difference that is reached. -/
theorem refusesRightly_matchTy (himpls : ∀ impl ∈ sa.impls, TraitBounds sa impl.typeParams)
    (fuel : ℕ) : RefusesRightly sa checkDefs (matchTy sa fuel) := by
  induction fuel with
  | zero =>
    intro _ _ _ _ _ _ _ _ hreturns
    cases hreturns
  | succ fuel ih =>
    intro extDefs hbounds c e β r β' places hreturns hrest
    rw [matchTy_succ] at hreturns
    rcases facing_cases β e with ⟨b, hb⟩ | ⟨id, rfl, hfree | hnone⟩
    · rw [matchesWith_of_facing _ hb] at hreturns
      have hview := compares (matchTy sa fuel) checkDefs extDefs β c b
      rw [hreturns] at hview
      generalize hr : returns (r, β') = x at hview
      cases hview with
      | panics | arity => cases hr
      | differs hc hne => exact .differs hb hc hne
      | equal hc hleaf =>
        cases hr
        exact .equal hb hc hleaf (hrest rfl)
      | args hhead hlength =>
        exact .args hb hhead hlength (reaches_of_matchAll ih hbounds hlength hr.symm hrest)
    · rw [matchesWith_of_free _ hfree] at hreturns
      obtain ⟨r', hfulfills, hpair⟩ := bind_eq_returns.mp hreturns
      cases hpair
      exact reaches_of_fulfillsBounds ih himpls hbounds hfree hfulfills hrest
    · rw [matchesWith, hnone] at hreturns
      cases hreturns

/-- Matching ends at these places, and refuses them or goes on to a difference. -/
def EndsRefused (sa : SemAnalysis) (checkDefs extDefs : TypeParamDefinition)
    (places : List (SourceType × SourceType)) (x : ℕ → Fueled (Bool × Bindings)) : Prop :=
  ∃ r β', Ends x (r, β') ∧ (r = true → ReachesDifference sa checkDefs extDefs β' places)

/-- Matching with this type ends where a difference is reached. -/
def Refuses (sa : SemAnalysis) (checkDefs : TypeParamDefinition) (c : SourceType) : Prop :=
  ∀ {extDefs}, TraitBounds sa extDefs → ∀ {e β places},
    ReachesDifference sa checkDefs extDefs β ((e, c) :: places) →
    EndsRefused sa checkDefs extDefs places fun fuel => matchTy sa fuel c checkDefs e extDefs β

theorem matchAll_refused (h : ∀ c ∈ cs, Refuses sa checkDefs c) (hbounds : TraitBounds sa extDefs)
    (hlength : cs.length = es.length)
    (hreaches : ReachesDifference sa checkDefs extDefs β (es.zip cs ++ places)) :
    EndsRefused sa checkDefs extDefs places fun fuel =>
      matchAll (matchTy sa fuel) checkDefs extDefs cs es β := by
  induction cs generalizing es β with
  | nil =>
    obtain rfl := length_eq_zero_iff.mp hlength.symm
    exact ⟨true, β, .of_eq fun _ => rfl, fun _ => hreaches⟩
  | cons c cs ih =>
    cases es with
    | nil => cases hlength
    | cons e es =>
      obtain ⟨hc, hcs⟩ := forall_mem_cons.mp h
      obtain ⟨r, β1, hends, hrest⟩ := hc hbounds hreaches
      cases r with
      | false => exact ⟨false, β1, hends.bind (.of_eq fun _ => rfl), nofun⟩
      | true =>
        obtain ⟨r', β2, hends', hrest'⟩ := ih hcs (Nat.succ.inj hlength) (hrest rfl)
        exact ⟨r', β2, hends.bind hends', hrest'⟩

theorem EndsRefused.succ {x y : ℕ → Fueled (Bool × Bindings)}
    (h : EndsRefused sa checkDefs extDefs places x) (hzero : y 0 = .running)
    (hsucc : ∀ fuel, y (fuel + 1) = x fuel) : EndsRefused sa checkDefs extDefs places y := by
  obtain ⟨r, β', hends, hrest⟩ := h
  exact ⟨r, β', hends.succ hzero hsucc, hrest⟩

/-- A place at which two types are compared. -/
theorem refused_of_facing (hargs : ∀ head cs, c = .app head cs → ∀ c ∈ cs, Refuses sa checkDefs c)
    (hbounds : TraitBounds sa extDefs) (hb : facing β e = some b)
    (hreaches : ReachesDifference sa checkDefs extDefs β ((e, c) :: places)) :
    EndsRefused sa checkDefs extDefs places fun fuel =>
      matchTy sa fuel c checkDefs e extDefs β := by
  have hround : ∀ fuel, matchTy sa (fuel + 1) c checkDefs e extDefs β =
      compareConcreteTypes (matchTy sa fuel) c checkDefs b extDefs β :=
    fun fuel => matchesWith_of_facing _ hb
  cases hreaches with
  | differs hb' hc hne =>
    cases hb.symm.trans hb'
    refine ⟨false, β, (Ends.of_eq fun _ => rfl).succ rfl fun fuel => ?_, nofun⟩
    rw [hround, compareConcreteTypes_differs _ hc hne]
  | equal hb' hc hleaf hrest =>
    cases hb.symm.trans hb'
    refine ⟨true, β, (Ends.of_eq fun _ => rfl).succ rfl fun fuel => ?_, fun _ => hrest⟩
    rw [hround, compareConcreteTypes_leaf _ hc hleaf]
  | args hb' hhead hlength hrest =>
    cases hb.symm.trans hb'
    refine (matchAll_refused (hargs _ _ rfl) hbounds hlength hrest).succ rfl fun fuel => ?_
    rw [hround, compareConcreteTypes_args _ hhead hlength]
  | bind hfree | unmet hfree =>
    rw [facing, hfree] at hb
    cases hb

theorem matchTy_of_fulfills (hfree : β[id]? = some none)
    (h : Ends (fun fuel => concreteTypeFulfillsBounds sa (matchTy sa fuel) c checkDefs
      (extDefs.boundsForTypeParam id)) r) :
    Ends (fun fuel => matchTy sa fuel c checkDefs (.var id) extDefs β)
      (r, β.set id (some c)) := by
  refine (h.map fun r => (r, β.set id (some c))).succ rfl fun fuel => ?_
  rw [matchTy_succ, matchesWith_of_free _ hfree, fulfillsBounds_eq]
  rfl

theorem matchTy_of_found (hbounds : TraitBounds sa extDefs) (hfree : β[id]? = some none)
    (hfound : ∀ traitTy ∈ extDefs.boundsForTypeParam id, Found sa checkDefs c traitTy) :
    Ends (fun fuel => matchTy sa fuel c checkDefs (.var id) extDefs β)
      (true, β.set id (some c)) := by
  refine matchTy_of_fulfills hfree ?_
  rw [← append_nil (extDefs.boundsForTypeParam id)]
  refine fulfills_ends (fun traitTy hmem => ?_) (.of_eq fun _ => rfl)
  exact (looksUp checkDefs (hbounds.of_mem hmem) c).ends_true (hfound traitTy hmem)

theorem refuses_of_args (himpls : ∀ impl ∈ sa.impls, TraitBounds sa impl.typeParams)
    (hargs : ∀ head cs, c = .app head cs → ∀ c ∈ cs, Refuses sa checkDefs c) :
    Refuses sa checkDefs c := by
  intro extDefs hbounds e β places hreaches
  rcases hfacing : facing β e with _ | b
  · cases hreaches with
    | differs hb | equal hb | args hb =>
      rw [hfacing] at hb
      cases hb
    | bind hfree hfound hrest =>
      exact ⟨true, _, matchTy_of_found hbounds hfree hfound, fun _ => hrest⟩
    | unmet hfree heq hbefore hnot hleaf hself =>
      have htrait : ∀ {traitTy}, traitTy ∈ _ → IsTrait sa traitTy := fun h =>
        hbounds.of_mem (by rw [heq]; exact h)
      refine ⟨false, _, matchTy_of_fulfills hfree ?_, nofun⟩
      rw [heq]
      refine fulfills_ends (fun traitTy hmem => ?_)
        (Ends.bind (a := false) ?_ (.of_eq fun _ => rfl))
      · exact (looksUp checkDefs (htrait (mem_append_left _ hmem)) c).ends_true
          (hbefore traitTy hmem)
      · refine (looksUp checkDefs (htrait (mem_append_right _ mem_cons_self)) c).ends_false hnot
          hleaf fun hnominal => findImplIn_ends_none fun impl hmem ht hty => ?_
        -- the type is compared with itself
        have hfacing : facing (List.replicate impl.typeParams.len none) c = some c := by
          cases c with
          | var => cases hnominal
          | _ => rfl
        obtain ⟨r, β', hends, hrest⟩ :=
          refused_of_facing hargs (himpls impl hmem) hfacing (hself hnominal impl hmem ht hty)
        cases r with
        | true => cases hrest rfl
        | false => exact ⟨β', hends⟩
  · exact refused_of_facing hargs hbounds hfacing hreaches

/-- **Where a difference is reached**, matching refuses. -/
theorem refuses (himpls : ∀ impl ∈ sa.impls, TraitBounds sa impl.typeParams) (c : SourceType) :
    Refuses sa checkDefs c := by
  induction c using induction with
  | var | const => exact refuses_of_args himpls (by rintro _ _ ⟨⟩)
  | app head cs ih =>
    refine refuses_of_args himpls ?_
    rintro _ _ ⟨⟩
    exact ih

end Dora.Language
