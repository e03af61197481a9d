import Mathlib.Data.List.Basic
import Mathlib.Data.Option.Basic
import Mathlib.Order.Nat

/-!
# Visibility of modules and of what they declare

Each module holds the list of its ancestors, and the checks of `access.rs` compare the lists of the
using module and of the module that declares an element. A panic is `none`.

## Main definitions

* `Program`, `Built`: programs, and those that come from reading source files
* `Element.check`: the access checks
* `Allowed`: the rule of visibility
-/

namespace Dora.Language.Access

abbrev ModuleDefinitionId := ℕ

inductive Visibility
  | Public
  | Module
deriving DecidableEq

def Visibility.isPublic : Visibility → Bool
  | .Public => true
  | .Module => false

/-- The fields of a module that the checks read. -/
structure ModuleDefinition where
  packageId : Option ℕ
  parentModuleId : Option ModuleDefinitionId
  visibility : Visibility
  parents : List ModuleDefinitionId
  depth : ℕ

/-- A definition with a visibility of its own. -/
structure Definition where
  moduleId : ModuleDefinitionId
  visibility : Visibility

/-- A class or a struct, with the visibilities of its fields. -/
structure Record extends Definition where
  fields : List Visibility

/-- `FctParent`, without the ids. -/
inductive FctParent
  | Extension
  | Impl
  | Trait
  | Function
  | None
deriving DecidableEq

structure FctDefinition extends Definition where
  parent : FctParent

structure Program where
  modules : List ModuleDefinition
  globals : List Definition
  classes : List Record
  fcts : List FctDefinition
  enums : List Definition
  structs : List Record
  traits : List Definition
  consts : List Definition

/-! ## Reading a program -/

namespace ModuleDefinition

def newTopLevel : ModuleDefinition where
  packageId := none
  parentModuleId := none
  visibility := .Public
  parents := []
  depth := 0

def newInner (sa : Program) (packageId : Option ℕ) (parentId : ModuleDefinitionId)
    (visibility : Visibility) : Option ModuleDefinition := do
  let parent ← sa.modules[parentId]?
  let parents := parent.parents ++ [parentId]
  return {
    packageId := packageId
    parentModuleId := some parentId
    visibility := visibility
    parents := parents
    depth := parents.length }

end ModuleDefinition

namespace Program

variable (sa : Program)

def push (m : ModuleDefinition) : Program := { sa with modules := sa.modules ++ [m] }

/-- `add_package`. The ids of packages are given out in order. -/
def addPackage (packageId : ℕ) : Program :=
  sa.push { ModuleDefinition.newTopLevel with packageId := some packageId }

end Program

/-- The modules of a program while its files are read: a package starts with its top-level module,
a module is declared in a module of the same package, and the prelude has no package. -/
inductive Built : Program → Prop
  | empty {sa : Program} (h : sa.modules = []) : Built sa
  | package {sa : Program} {packageId : ℕ} :
      Built sa → (∀ m ∈ sa.modules, m.packageId ≠ some packageId) → Built (sa.addPackage packageId)
  | prelude {sa : Program} :
      Built sa → (∀ m ∈ sa.modules, m.packageId ≠ none) → Built (sa.push .newTopLevel)
  | inner {sa : Program} {parentId : ModuleDefinitionId} {parent m : ModuleDefinition}
      {visibility : Visibility} :
      Built sa → sa.modules[parentId]? = some parent →
      ModuleDefinition.newInner sa parent.packageId parentId visibility = some m →
      Built (sa.push m)

/-! ## The checks -/

section Checks

variable (sa : Program)

def moduleContains (parentId childId : ModuleDefinitionId) : Option Bool :=
  if parentId = childId then some true
  else do
    let module ← sa.modules[childId]?
    return decide (parentId ∈ module.parents)

/-- The loop of `common_parent`, from the depth below `depth` upwards. -/
def lastCommon (lhs rhs : List ModuleDefinitionId) : ℕ → Option (Option ModuleDefinitionId)
  | 0 => some none
  | depth + 1 => do
    let l ← lhs[depth]?
    let r ← rhs[depth]?
    if l = r then some (some l) else lastCommon lhs rhs depth

/-- The test of `common_parent` whether `id` is an ancestor at the given depth. -/
def ancestorAt (parents : List ModuleDefinitionId) (depth : ℕ) (id : ModuleDefinitionId) :
    Option (Option ModuleDefinitionId) := do
  let p ← parents[depth]?
  return if p = id then some id else none

def commonParent (lhsId rhsId : ModuleDefinitionId) : Option (Option ModuleDefinitionId) :=
  if lhsId = rhsId then some (some lhsId)
  else do
    let lhs ← sa.modules[lhsId]?
    let rhs ← sa.modules[rhsId]?
    let direct ←
      if lhs.depth > rhs.depth then ancestorAt lhs.parents rhs.depth rhsId
      else if rhs.depth > lhs.depth then ancestorAt rhs.parents lhs.depth lhsId
      else some none
    match direct with
    | some id => some (some id)
    | none => lastCommon lhs.parents rhs.parents (min lhs.depth rhs.depth)

/-- The loops of `accessible_from` over the modules between the common parent and the target. -/
def allPublic : List ModuleDefinitionId → Option Bool
  | [] => some true
  | id :: ids => do
    let ns ← sa.modules[id]?
    if ns.visibility.isPublic then allPublic ids else some false

def accessibleFrom (targetModuleId : ModuleDefinitionId) (elementVisibility : Visibility)
    (userModuleId : ModuleDefinitionId) : Option Bool :=
  if targetModuleId = userModuleId then some true
  else do
    if ← moduleContains sa targetModuleId userModuleId then return true
    let commonParentId ← commonParent sa targetModuleId userModuleId
    let targetModule ← sa.modules[targetModuleId]?
    let userModule ← sa.modules[userModuleId]?
    -- the assertions: modules of one package have a common parent, others have none
    guard (commonParentId.isSome = decide (targetModule.packageId = userModule.packageId))
    match commonParentId with
    | some commonParentId =>
      let commonParent ← sa.modules[commonParentId]?
      if commonParent.depth + 1 = targetModule.depth then return elementVisibility.isPublic
      else
        let startDepth := commonParent.depth + 2
        -- the slice of the ancestors starts inside the list
        guard (startDepth ≤ targetModule.parents.length)
        if ← allPublic sa (targetModule.parents.drop startDepth) then
          return targetModule.visibility.isPublic && elementVisibility.isPublic
        else return false
    | none =>
      if ← allPublic sa targetModule.parents then
        return targetModule.visibility.isPublic && elementVisibility.isPublic
      else return false

/-- The checks for definitions that have nothing but a module and a visibility. -/
def definitionAccessibleFrom (definitions : List Definition) (id : ℕ)
    (moduleId : ModuleDefinitionId) : Option Bool := do
  let definition ← definitions[id]?
  accessibleFrom sa definition.moduleId definition.visibility moduleId

def globalAccessibleFrom := definitionAccessibleFrom sa sa.globals

def classAccessibleFrom := definitionAccessibleFrom sa (sa.classes.map (·.toDefinition))

def fctAccessibleFrom := definitionAccessibleFrom sa (sa.fcts.map (·.toDefinition))

def enumAccessibleFrom := definitionAccessibleFrom sa sa.enums

def structAccessibleFrom := definitionAccessibleFrom sa (sa.structs.map (·.toDefinition))

def traitAccessibleFrom := definitionAccessibleFrom sa sa.traits

def constAccessibleFrom := definitionAccessibleFrom sa sa.consts

def moduleAccessibleFrom (targetId fromId : ModuleDefinitionId) : Option Bool :=
  accessibleFrom sa targetId .Public fromId

/-- A field is public when its record is public too. -/
def Record.fieldVisibility (record : Record) (field : Visibility) : Visibility :=
  if record.visibility.isPublic && field.isPublic then .Public else .Module

def fieldAccessibleFrom (records : List Record) (id fieldId : ℕ) (moduleId : ModuleDefinitionId) :
    Option Bool := do
  let record ← records[id]?
  let field ← record.fields[fieldId]?
  accessibleFrom sa record.moduleId (record.fieldVisibility field) moduleId

def classFieldAccessibleFrom := fieldAccessibleFrom sa sa.classes

def structFieldAccessibleFrom := fieldAccessibleFrom sa sa.structs

/-- The visibility of a method: those of traits and impls have none of their own. -/
def FctDefinition.methodVisibility (fct : FctDefinition) : Option Visibility :=
  match fct.parent with
  | .Extension => some fct.visibility
  | .Impl | .Trait => some .Public
  | .Function | .None => none

def methodAccessibleFrom (fctId : ℕ) (moduleId : ModuleDefinitionId) : Option Bool := do
  let fct ← sa.fcts[fctId]?
  let elementVisibility ← fct.methodVisibility
  accessibleFrom sa fct.moduleId elementVisibility moduleId

end Checks

/-- What can be used from a module. -/
inductive Element
  | Global (id : ℕ)
  | Class (id : ℕ)
  | ClassField (id fieldId : ℕ)
  | Method (id : ℕ)
  | Fct (id : ℕ)
  | Enum (id : ℕ)
  | Struct (id : ℕ)
  | StructField (id fieldId : ℕ)
  | Module (id : ModuleDefinitionId)
  | Trait (id : ℕ)
  | Const (id : ℕ)

namespace Element

/-- The check that the semantic analysis makes for the use of an element. -/
def check (sa : Program) : Element → ModuleDefinitionId → Option Bool
  | Global id => globalAccessibleFrom sa id
  | Class id => classAccessibleFrom sa id
  | ClassField id fieldId => classFieldAccessibleFrom sa id fieldId
  | Method id => methodAccessibleFrom sa id
  | Fct id => fctAccessibleFrom sa id
  | Enum id => enumAccessibleFrom sa id
  | Struct id => structAccessibleFrom sa id
  | StructField id fieldId => structFieldAccessibleFrom sa id fieldId
  | Module id => moduleAccessibleFrom sa id
  | Trait id => traitAccessibleFrom sa id
  | Const id => constAccessibleFrom sa id

def definitionHome (definitions : List Definition) (id : ℕ) :
    Option (ModuleDefinitionId × Visibility) :=
  definitions[id]?.map fun d => (d.moduleId, d.visibility)

def fieldHome (records : List Record) (id fieldId : ℕ) :
    Option (ModuleDefinitionId × Visibility) := do
  let record ← records[id]?
  let field ← record.fields[fieldId]?
  return (record.moduleId, record.fieldVisibility field)

/-- The module that declares an element, and the visibility that the element has there. A module is
the last one on its own path, and is not hidden a second time. -/
def home (sa : Program) : Element → Option (ModuleDefinitionId × Visibility)
  | Global id => definitionHome sa.globals id
  | Class id => definitionHome (sa.classes.map (·.toDefinition)) id
  | ClassField id fieldId => fieldHome sa.classes id fieldId
  | Method id => do
    let fct ← sa.fcts[id]?
    return (fct.moduleId, ← fct.methodVisibility)
  | Fct id => definitionHome (sa.fcts.map (·.toDefinition)) id
  | Enum id => definitionHome sa.enums id
  | Struct id => definitionHome (sa.structs.map (·.toDefinition)) id
  | StructField id fieldId => fieldHome sa.structs id fieldId
  | Module id => some (id, .Public)
  | Trait id => definitionHome sa.traits id
  | Const id => definitionHome sa.consts id

theorem check_eq (sa : Program) (e : Element) (user : ModuleDefinitionId) :
    e.check sa user = (e.home sa).bind fun h => accessibleFrom sa h.1 h.2 user := by
  have hdef (l : List Definition) (id : ℕ) : definitionAccessibleFrom sa l id user =
      (definitionHome l id).bind fun h => accessibleFrom sa h.1 h.2 user := by
    unfold definitionAccessibleFrom definitionHome
    cases l[id]? <;> rfl
  have hfield (l : List Record) (id fieldId : ℕ) : fieldAccessibleFrom sa l id fieldId user =
      (fieldHome l id fieldId).bind fun h => accessibleFrom sa h.1 h.2 user := by
    unfold fieldAccessibleFrom fieldHome
    cases l[id]? with
    | none => rfl
    | some record =>
      simp only [Option.bind_eq_bind, Option.bind_some]
      cases record.fields[fieldId]? <;> rfl
  cases e with
  | ClassField id fieldId => exact hfield sa.classes id fieldId
  | StructField id fieldId => exact hfield sa.structs id fieldId
  | Module id => rfl
  | Method id =>
    simp only [check, methodAccessibleFrom, home]
    cases sa.fcts[id]? with
    | none => rfl
    | some fct =>
      simp only [Option.bind_eq_bind, Option.bind_some]
      cases fct.methodVisibility <;> rfl
  | _ => exact hdef _ _

end Element

/-! ## The rule -/

/-- One step up in the tree. -/
def ParentOf (sa : Program) (child parent : ModuleDefinitionId) : Prop :=
  ∃ m, sa.modules[child]? = some m ∧ m.parentModuleId = some parent

/-- Module `id` lies in the subtree of the module `ancestor`. -/
def Encloses (sa : Program) (ancestor id : ModuleDefinitionId) : Prop :=
  Relation.ReflTransGen (ParentOf sa) id ancestor

/-- **The rule**: what encloses a non-public item also encloses the user, for each module on the
path from the root to the target, and for the element. A top-level module is enclosed by nothing. -/
def Allowed (sa : Program) (target : ModuleDefinitionId) (visibility : Visibility)
    (user : ModuleDefinitionId) : Prop :=
  (∀ id m p, Encloses sa id target → sa.modules[id]? = some m → m.visibility ≠ .Public →
    m.parentModuleId = some p → Encloses sa p user) ∧
  (visibility ≠ .Public → Encloses sa target user)

/-- Each module's list of parents is its chain of ancestors, and a package has one tree. -/
structure WellFormed (sa : Program) : Prop where
  depth_eq {id : ℕ} {m : ModuleDefinition} : sa.modules[id]? = some m → m.depth = m.parents.length
  top {id : ℕ} {m : ModuleDefinition} : sa.modules[id]? = some m → m.parentModuleId = none →
    m.parents = [] ∧ m.visibility = .Public
  inner {id p : ℕ} {m : ModuleDefinition} : sa.modules[id]? = some m → m.parentModuleId = some p →
    ∃ pm : ModuleDefinition, sa.modules[p]? = some pm ∧ m.parents = pm.parents ++ [p] ∧
      m.packageId = pm.packageId
  package {a b : ℕ} {ma mb : ModuleDefinition} : sa.modules[a]? = some ma →
    sa.modules[b]? = some mb → ma.parentModuleId = none → mb.parentModuleId = none →
      ma.packageId = mb.packageId → a = b

end Dora.Language.Access
