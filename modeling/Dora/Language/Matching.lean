import Dora.Lib.Fueled
import Dora.Lib.Term

/-!
# Matching of types

The functions that match a type with the type of an extension or of an impl call each other, so that
the number of nested calls is bounded by fuel. A panic is a trap.

## Main definitions

* `SourceType`, `SemAnalysis`: types, and the impls of a program
* `matchTy`, `extensionMatchesTyWith`: `matches` and `extension_matches_ty`
* `implMatchesWith`, `findImplIn`, `implementsTraitWith`: the functions around it
-/

namespace Dora.Language

/-- The types without arguments. -/
inductive BaseType
  | error
  | any
  | unit
  | bool
  | char
  | uint8
  | int32
  | int64
  | float32
  | float64
  | ptr
  | this
deriving DecidableEq

/-- The kinds of types with arguments, with the ids of definitions. -/
inductive TypeHead
  | class (id : ℕ)
  | struct (id : ℕ)
  | tuple
  | trait (id : ℕ)
  | lambda
  | enum (id : ℕ)
deriving DecidableEq

/-- `SourceType`. A type parameter is a variable. The arguments of a class, struct, enum or trait
are its type parameters, those of a tuple its subtypes, and those of a lambda the return type and
the types of the parameters. -/
abbrev SourceType := Term BaseType TypeHead

namespace SourceType

variable (ty : SourceType)

abbrev typeParam (id : ℕ) : SourceType := .var id

def isTypeParam : Bool :=
  match ty with
  | .var _ => true
  | _ => false

def isPrimitive : Bool :=
  match ty with
  | .const .bool | .const .uint8 | .const .char | .const .int32 | .const .int64 | .const .float32
  | .const .float64 => true
  | _ => false

def traitId : Option ℕ :=
  match ty with
  | .app (.trait id) _ => some id
  | _ => none

/-- `type_params`, which is empty for all but classes, enums, structs and traits. -/
def typeParams : List SourceType :=
  match ty with
  | .app (.class _) params | .app (.enum _) params | .app (.struct _) params
  | .app (.trait _) params => params
  | _ => []

end SourceType

structure Bound where
  ty : SourceType
  traitTy : SourceType
deriving DecidableEq

/-- `TypeParamDefinition`: the number of type parameters, and their bounds. -/
structure TypeParamDefinition where
  len : ℕ
  bounds : List Bound

namespace TypeParamDefinition

variable (defs : TypeParamDefinition)

def new : TypeParamDefinition := ⟨0, []⟩

def implementsTrait (id : ℕ) (traitTy : SourceType) : Bool := ⟨.typeParam id, traitTy⟩ ∈ defs.bounds

def boundsForTypeParam (id : ℕ) : List SourceType :=
  (defs.bounds.filter fun bound => bound.ty = .typeParam id).map (·.traitTy)

end TypeParamDefinition

/-- `ImplDefinition`. The type that is extended mentions the type parameters of the impl, all of
them (`check_for_unconstrained_type_params`) and no others. -/
structure ImplDefinition where
  typeParams : TypeParamDefinition
  traitTy : SourceType
  extendedTy : SourceType
  mem_vars_iff : ∀ id, id ∈ extendedTy.vars ↔ id < typeParams.len

/-- `SemAnalysis`: the impls, and the id of the trait `Zero`. -/
structure SemAnalysis where
  impls : List ImplDefinition
  zero : ℕ

/-- The types that have been found for the type parameters of an extension. -/
abbrev Bindings := List (Option SourceType)

/-- A function that matches the first type, over the first type parameters, with the second type,
over the second ones. -/
abbrev Matcher :=
  SourceType → TypeParamDefinition → SourceType → TypeParamDefinition → Bindings →
    Fueled (Bool × Bindings)

section

variable (sa : SemAnalysis) (recurse : Matcher) (checkTy : SourceType)
  (checkTypeParamDefs : TypeParamDefinition)

/-- `extension_matches_ty`, without the nested calls. -/
def extensionMatchesTyWith (extTy : SourceType) (extTypeParamDefs : TypeParamDefinition) :
    Fueled (Option (List SourceType)) := do
  let bindings := List.replicate extTypeParamDefs.len none
  let (result, bindings) ←
    recurse checkTy checkTypeParamDefs extTy extTypeParamDefs bindings
  if result then return some (← .ofOption (bindings.mapM id))
  else return none

/-- `impl_matches`, without the nested calls. -/
def implMatchesWith (impl : ImplDefinition) : Fueled (Option (List SourceType)) :=
  extensionMatchesTyWith recurse checkTy checkTypeParamDefs impl.extendedTy impl.typeParams

/-- The loop of `find_impl`, without the nested calls. -/
def findImplIn (traitTy : SourceType) : List ImplDefinition → Fueled (Option ImplDefinition)
  | [] => return none
  | impl :: impls => do
    if impl.extendedTy ≠ checkTy then findImplIn traitTy impls
    else if impl.traitTy ≠ traitTy then findImplIn traitTy impls
    else
      if (← implMatchesWith recurse checkTy checkTypeParamDefs impl).isSome then return some impl
      else findImplIn traitTy impls

/-- `implements_trait`, without the nested calls. -/
def implementsTraitWith (traitTy : SourceType) : Fueled Bool := do
  if checkTy.isPrimitive then
    if (← .ofOption traitTy.traitId) = sa.zero then
      .assert traitTy.typeParams.isEmpty
      return true
  match checkTy with
  | .var id => return checkTypeParamDefs.implementsTrait id traitTy
  | .app .tuple _ | .const .unit | .app (.trait _) _ | .app .lambda _ => return false
  | .const .bool | .const .uint8 | .const .char | .const .int32 | .const .int64 | .const .float32
  | .const .float64 | .app (.struct _) _ | .app (.enum _) _ | .app (.class _) _ =>
    return (← findImplIn recurse checkTy checkTypeParamDefs traitTy sa.impls).isSome
  | .const .error | .const .ptr | .const .this | .const .any => .trap

/-- `compare_type_param_bounds`. -/
def compareTypeParamBounds (checkId extId : ℕ) (extTypeParamDefs : TypeParamDefinition) : Bool :=
  (extTypeParamDefs.boundsForTypeParam extId).all (checkTypeParamDefs.implementsTrait checkId)

/-- The loop of `concrete_type_fulfills_bounds`. -/
def concreteTypeFulfillsBounds : List SourceType → Fueled Bool
  | [] => return true
  | traitTy :: traitTys => do
    if ← implementsTraitWith sa recurse checkTy checkTypeParamDefs traitTy then
      concreteTypeFulfillsBounds traitTys
    else return false

variable (extTy : SourceType) (extTypeParamDefs : TypeParamDefinition)

/-- The loops over the subtypes of tuples and over type parameters. -/
def matchAll : List SourceType → List SourceType → Bindings → Fueled (Bool × Bindings)
  | checkTy :: checkTys, extTy :: extTys, bindings => do
    let (result, bindings) ←
      recurse checkTy checkTypeParamDefs extTy extTypeParamDefs bindings
    if result then matchAll checkTys extTys bindings
    else return (false, bindings)
  | _, _, bindings => return (true, bindings)

/-- `compare_concrete_types`. The branches for structs, enums and classes are the same. -/
def compareConcreteTypes (bindings : Bindings) : Fueled (Bool × Bindings) :=
  match checkTy with
  | .const .unit | .const .bool | .const .char | .const .uint8 | .const .int32 | .const .int64
  | .const .float32 | .const .float64 | .var _ => return (checkTy = extTy, bindings)
  | .const .ptr | .const .error | .const .this | .const .any => .trap
  | .app head checkTys =>
    match head with
    | .lambda | .trait _ => .trap
    | .tuple =>
      match extTy with
      | .app .tuple extTys =>
        if checkTys.length ≠ extTys.length then return (false, bindings)
        else matchAll recurse checkTypeParamDefs extTypeParamDefs checkTys extTys bindings
      | _ => return (false, bindings)
    | .struct _ | .enum _ | .class _ =>
      match extTy with
      | .app extHead extTys =>
        if head ≠ extHead then return (false, bindings)
        else do
          .assert (checkTys.length = extTys.length)
          matchAll recurse checkTypeParamDefs extTypeParamDefs checkTys extTys bindings
      | _ => return (false, bindings)

/-- The check of the bounds of the type parameter `id` of the extension. -/
def fulfillsBounds (id : ℕ) : Fueled Bool :=
  match checkTy with
  | .var checkId => return compareTypeParamBounds checkTypeParamDefs checkId id extTypeParamDefs
  | _ =>
    concreteTypeFulfillsBounds sa recurse checkTy checkTypeParamDefs
      (extTypeParamDefs.boundsForTypeParam id)

/-- `matches`, without the nested calls. -/
def matchesWith (bindings : Bindings) : Fueled (Bool × Bindings) :=
  match extTy with
  | .var id => do
    match ← .ofOption bindings[id]? with
    | some binding =>
      compareConcreteTypes recurse checkTy checkTypeParamDefs binding extTypeParamDefs bindings
    | none =>
      let result ← fulfillsBounds sa recurse checkTy checkTypeParamDefs extTypeParamDefs id
      return (result, bindings.set id (some checkTy))
  | _ =>
    if checkTy.isTypeParam then return (false, bindings)
    else compareConcreteTypes recurse checkTy checkTypeParamDefs extTy extTypeParamDefs bindings

end

variable (sa : SemAnalysis)

/-- `matches`. -/
def matchTy : ℕ → Matcher
  | 0, _, _, _, _, _ => .running
  | fuel + 1, checkTy, checkTypeParamDefs, extTy, extTypeParamDefs, bindings =>
    matchesWith sa (matchTy fuel) checkTy checkTypeParamDefs extTy extTypeParamDefs bindings

variable (fuel : ℕ) (checkTy : SourceType) (checkTypeParamDefs : TypeParamDefinition)

def extensionMatchesTy (extTy : SourceType) (extTypeParamDefs : TypeParamDefinition) :
    Fueled (Option (List SourceType)) :=
  extensionMatchesTyWith (matchTy sa fuel) checkTy checkTypeParamDefs extTy extTypeParamDefs

def implMatches (impl : ImplDefinition) : Fueled (Option (List SourceType)) :=
  implMatchesWith (matchTy sa fuel) checkTy checkTypeParamDefs impl

def findImpl (traitTy : SourceType) : Fueled (Option ImplDefinition) :=
  findImplIn (matchTy sa fuel) checkTy checkTypeParamDefs traitTy sa.impls

def implementsTrait (traitTy : SourceType) : Fueled Bool :=
  implementsTraitWith sa (matchTy sa fuel) checkTy checkTypeParamDefs traitTy

end Dora.Language
