import Dora.Language.Access

/-!
# The access checks decide the visibility rule

The path of a module is its list of parents with the module itself at the end. Two paths that share
a module agree up to it.

## Main results

* `Built.wellFormed`: the lists of parents are right
* `commonParent_spec`: the common parent is the deepest module of both paths
* `accessible_iff`: the access checks decide the rule
-/

namespace Dora.Language.Access

open List ModuleDefinition List

attribute [local simp] accessibleFrom Visibility.isPublic

variable {sa : Program} {m : ModuleDefinition}

/-! ## Every program that is read is well formed -/

theorem getElem?_push {id : ℕ} {m' : ModuleDefinition} (h : (sa.push m).modules[id]? = some m') :
    sa.modules[id]? = some m' ∨ (id = sa.modules.length ∧ m' = m) := by
  rw [Program.push, getElem?_append] at h
  split at h
  · exact .inl h
  · rename_i hlt
    rw [getElem?_singleton] at h
    split at h
    · exact .inr ⟨by omega, (Option.some.inj h).symm⟩
    · cases h

theorem getElem?_push_of_some {m' : ModuleDefinition} {id : ℕ} (h : sa.modules[id]? = some m') :
    (sa.push m).modules[id]? = some m' := by
  obtain ⟨hlt, -⟩ := List.getElem?_eq_some_iff.mp h
  rw [Program.push, getElem?_append_left hlt, h]

theorem WellFormed.push_top (hsa : WellFormed sa) {packageId : Option ℕ}
    (hnew : ∀ m ∈ sa.modules, m.packageId ≠ packageId) :
    WellFormed (sa.push { newTopLevel with packageId := packageId }) where
  depth_eq h := by
    rcases getElem?_push h with h | ⟨-, rfl⟩
    · exact hsa.depth_eq h
    · rfl
  top h hp := by
    rcases getElem?_push h with h | ⟨-, rfl⟩
    · exact hsa.top h hp
    · exact ⟨rfl, rfl⟩
  inner h hp := by
    rcases getElem?_push h with h | ⟨-, rfl⟩
    · obtain ⟨pm, hpm, hparents⟩ := hsa.inner h hp
      exact ⟨pm, getElem?_push_of_some hpm, hparents⟩
    · cases hp
  package ha hb hpa hpb hab := by
    rcases getElem?_push ha with ha | ⟨rfl, rfl⟩ <;> rcases getElem?_push hb with hb | ⟨rfl, rfl⟩
    · exact hsa.package ha hb hpa hpb hab
    · exact absurd hab (hnew _ (mem_of_getElem? ha))
    · exact absurd hab.symm (hnew _ (mem_of_getElem? hb))
    · rfl

theorem WellFormed.push_inner (hsa : WellFormed sa) {parentId : ModuleDefinitionId}
    {parent : ModuleDefinition} {visibility : Visibility}
    (hparent : sa.modules[parentId]? = some parent)
    (hm : newInner sa parent.packageId parentId visibility = some m) :
    WellFormed (sa.push m) := by
  simp only [newInner, hparent, Option.bind_eq_bind, Option.bind_some,
    Option.pure_def, Option.some.injEq] at hm
  subst hm
  refine ⟨fun h => ?_, fun h hp => ?_, fun h hp => ?_, fun ha hb hpa hpb hab => ?_⟩
  · rcases getElem?_push h with h | ⟨-, rfl⟩
    · exact hsa.depth_eq h
    · rfl
  · rcases getElem?_push h with h | ⟨-, rfl⟩
    · exact hsa.top h hp
    · cases hp
  · rcases getElem?_push h with h | ⟨-, rfl⟩
    · obtain ⟨pm, hpm, hparents⟩ := hsa.inner h hp
      exact ⟨pm, getElem?_push_of_some hpm, hparents⟩
    · cases hp
      exact ⟨parent, getElem?_push_of_some hparent, rfl, rfl⟩
  · rcases getElem?_push ha with ha | ⟨-, rfl⟩
    · rcases getElem?_push hb with hb | ⟨-, rfl⟩
      · exact hsa.package ha hb hpa hpb hab
      · cases hpb
    · cases hpa

/-- **The lists of parents are right in every program that is read.** -/
theorem Built.wellFormed (h : Built sa) : WellFormed sa := by
  induction h with
  | empty h => constructor <;> simp [h]
  | package _ hnew ih | prelude _ hnew ih => exact ih.push_top hnew
  | inner _ hparent hm ih => exact ih.push_inner hparent hm

/-! ## Paths -/

/-- The path of the module `id` from the root. -/
def ModuleDefinition.path (m : ModuleDefinition) (id : ModuleDefinitionId) :
    List ModuleDefinitionId := m.parents ++ [id]

section Paths

variable (hsa : WellFormed sa) {id : ModuleDefinitionId} {m : ModuleDefinition}
include hsa

theorem WellFormed.exists_parent (hm : sa.modules[id]? = some m) (hne : m.parents ≠ []) :
    ∃ p pm, m.parentModuleId = some p ∧ sa.modules[p]? = some pm ∧ m.parents = pm.path p ∧
      m.packageId = pm.packageId := by
  cases hp : m.parentModuleId with
  | none => exact absurd (hsa.top hm hp).1 hne
  | some p =>
    obtain ⟨pm, hpm, hparents, hpackage⟩ := hsa.inner hm hp
    exact ⟨p, pm, rfl, hpm, hparents, hpackage⟩

theorem WellFormed.parent_eq_none (hm : sa.modules[id]? = some m) (hnil : m.parents = []) :
    m.parentModuleId = none := by
  cases hp : m.parentModuleId with
  | none => rfl
  | some p =>
    obtain ⟨pm, -, hparents, -⟩ := hsa.inner hm hp
    simp [hnil] at hparents

variable {x : ModuleDefinitionId}

theorem exists_of_getElem?_path {id : ModuleDefinitionId} {m : ModuleDefinition}
    (hm : sa.modules[id]? = some m) {i : ℕ} (hx : (m.path id)[i]? = some x) :
    ∃ mx, sa.modules[x]? = some mx ∧ mx.parents = (m.path id).take i ∧
      mx.packageId = m.packageId := by
  rw [path] at hx ⊢
  by_cases hi : i < m.parents.length
  · -- the entry is one of the path of the parent
    obtain ⟨p, pm, -, hpm, hparents, hpackage⟩ :=
      hsa.exists_parent hm (ne_nil_of_length_pos (by omega))
    rw [getElem?_append_left hi, hparents] at hx
    obtain ⟨mx, hmx, htake, hpkg⟩ := exists_of_getElem?_path hpm hx
    refine ⟨mx, hmx, ?_, hpkg.trans hpackage.symm⟩
    rw [htake, take_append_of_le_length hi.le, hparents]
  · have hlt := (List.getElem?_eq_some_iff.mp hx).1
    rw [length_append, length_singleton] at hlt
    obtain rfl : i = m.parents.length := by omega
    rw [getElem?_concat_length] at hx
    cases hx
    exact ⟨m, hm, by rw [take_left], rfl⟩
termination_by m.parents.length
decreasing_by simp [hparents, path]

theorem encloses_of_mem {id : ModuleDefinitionId} {m : ModuleDefinition}
    (hm : sa.modules[id]? = some m) (h : x ∈ m.path id) :
    Encloses sa x id := by
  rcases mem_append.mp h with h | h
  · obtain ⟨p, pm, hp, hpm, hparents, -⟩ := hsa.exists_parent hm (ne_nil_of_mem h)
    exact .head ⟨m, hm, hp⟩ (encloses_of_mem hpm (hparents ▸ h))
  · exact mem_singleton.mp h ▸ .refl
termination_by m.parents.length
decreasing_by simp [hparents, path]

/-- **The modules that enclose a module are those on its path.** -/
theorem encloses_iff (hm : sa.modules[id]? = some m) : Encloses sa x id ↔ x ∈ m.path id := by
  refine ⟨fun h => ?_, encloses_of_mem hsa hm⟩
  induction h with
  | refl => exact mem_concat_self
  | tail _ hstep ih =>
    obtain ⟨my, hmy, hparent⟩ := hstep
    obtain ⟨i, hi⟩ := mem_iff_getElem?.mp ih
    obtain ⟨mx, hmx, htake, -⟩ := exists_of_getElem?_path hsa hm hi
    cases hmy.symm.trans hmx
    obtain ⟨pm, -, hparents, -⟩ := hsa.inner hmy hparent
    refine mem_of_mem_take (htake ▸ ?_ : _ ∈ (m.path id).take i)
    rw [hparents]
    exact mem_concat_self

variable {id' : ModuleDefinitionId} {m' : ModuleDefinition}

section

variable (hm : sa.modules[id]? = some m) (hm' : sa.modules[id']? = some m')
include hm hm'

variable {i : ℕ} {x : ModuleDefinitionId}

theorem take_eq_take {j : ℕ} (hi : (m.path id)[i]? = some x)
    (hj : (m'.path id')[j]? = some x) :
    i = j ∧ (m.path id).take i = (m'.path id').take j := by
  obtain ⟨mx, hmx, htake, -⟩ := exists_of_getElem?_path hsa hm hi
  obtain ⟨mx', hmx', htake', -⟩ := exists_of_getElem?_path hsa hm' hj
  cases hmx.symm.trans hmx'
  have hij := htake.symm.trans htake'
  have hlen := congrArg length hij
  obtain ⟨hlt, -⟩ := List.getElem?_eq_some_iff.mp hi
  obtain ⟨hlt', -⟩ := List.getElem?_eq_some_iff.mp hj
  simp only [length_take] at hlen
  exact ⟨by omega, hij⟩

/-- A module on one path is on another one at the same depth, or not at all. -/
theorem mem_path_iff (hi : (m.path id)[i]? = some x) :
    x ∈ m'.path id' ↔ (m'.path id')[i]? = some x := by
  refine ⟨fun h => ?_, mem_of_getElem?⟩
  obtain ⟨j, hj⟩ := mem_iff_getElem?.mp h
  obtain ⟨rfl, -⟩ := take_eq_take hsa hm hm' hi hj
  exact hj

theorem getElem?_eq_of_le {d : ℕ} (hd : (m.path id)[d]? = some x)
    (hd' : (m'.path id')[d]? = some x) (hi : i ≤ d) : (m.path id)[i]? = (m'.path id')[i]? := by
  rcases hi.lt_or_eq with hi | rfl
  · have htake := (take_eq_take hsa hm hm' hd hd').2
    have hget := congrArg (·[i]?) htake
    simpa only [getElem?_take_of_lt hi] using hget
  · rw [hd, hd']

end

end Paths

/-! ## The common parent -/

/-- The deepest depth below `n` at which two paths agree, with the module there. -/
def DeepestBelow (n : ℕ) (path path' : List ModuleDefinitionId) : Option ModuleDefinitionId → Prop
  | none => ∀ i < n, path[i]? ≠ path'[i]?
  | some c => ∃ d < n, path[d]? = some c ∧ path'[d]? = some c ∧
      ∀ i, d < i → i < n → path[i]? ≠ path'[i]?

theorem DeepestBelow.mono {n n' : ℕ} {path path' : List ModuleDefinitionId}
    {c : Option ModuleDefinitionId} (h : DeepestBelow n path path' c) (hn : n ≤ n')
    (hne : ∀ i, n ≤ i → i < n' → path[i]? ≠ path'[i]?) : DeepestBelow n' path path' c := by
  cases c with
  | none =>
    intro i hi
    by_cases hin : i < n
    · exact h i hin
    · exact hne i (by omega) hi
  | some c =>
    obtain ⟨d, hd, hc, hc', hall⟩ := h
    refine ⟨d, by omega, hc, hc', fun i hdi hi => ?_⟩
    by_cases hin : i < n
    · exact hall i hdi hin
    · exact hne i (by omega) hi

theorem lastCommon_spec (lhs rhs : List ModuleDefinitionId) (start : ℕ) (hl : start ≤ lhs.length)
    (hr : start ≤ rhs.length) :
    ∃ c, lastCommon lhs rhs start = some c ∧ DeepestBelow start lhs rhs c := by
  induction start with
  | zero => exact ⟨none, rfl, by simp [DeepestBelow]⟩
  | succ depth ih =>
    have hlget : lhs[depth]? = some lhs[depth] := getElem?_eq_getElem hl
    have hrget : rhs[depth]? = some rhs[depth] := getElem?_eq_getElem hr
    by_cases heq : lhs[depth] = rhs[depth]
    · refine ⟨some lhs[depth], ?_, depth, Nat.lt_succ_self _, hlget, heq ▸ hrget, by omega⟩
      simp [lastCommon, hlget, hrget, heq]
    · obtain ⟨c, hc, hdeepest⟩ := ih (by omega) (by omega)
      refine ⟨c, ?_, hdeepest.mono (Nat.le_succ _) fun i hi hi' => ?_⟩
      · simpa [lastCommon, hlget, hrget, heq] using hc
      · obtain rfl : i = depth := by omega
        rw [hlget, hrget]
        exact fun h => heq (Option.some.inj h)

section CommonParent

variable (hsa : WellFormed sa) {id id' : ModuleDefinitionId} {m m' : ModuleDefinition}
  (hm : sa.modules[id]? = some m) (hm' : sa.modules[id']? = some m')

theorem ModuleDefinition.length_path : (m.path id).length = m.parents.length + 1 := by
  simp [path]

theorem ModuleDefinition.getElem?_path_last : (m.path id)[m.parents.length]? = some id :=
  getElem?_concat_length

theorem ModuleDefinition.getElem?_path_of_lt {i : ℕ} (hi : i < m.parents.length) :
    (m.path id)[i]? = m.parents[i]? :=
  getElem?_append_left hi

theorem ModuleDefinition.getElem?_path_ne {i : ℕ} (hi : i < (m.path id).length)
    (hi' : m'.parents.length < i) : (m.path id)[i]? ≠ (m'.path id')[i]? := by
  have hlen : (m'.path id').length = m'.parents.length + 1 := length_path
  rw [getElem?_eq_getElem hi, getElem?_eq_none (by omega)]
  exact Option.some_ne_none _

theorem lastCommon_append {parents parents' : List ModuleDefinitionId} {n : ℕ}
    (hn : n ≤ parents.length) (hn' : n ≤ parents'.length) (l l' : List ModuleDefinitionId) :
    lastCommon (parents ++ l) (parents' ++ l') n = lastCommon parents parents' n := by
  induction n with
  | zero => rfl
  | succ depth ih =>
    simp only [lastCommon, getElem?_append_left hn, getElem?_append_left hn',
      ih (Nat.le_of_succ_le hn) (Nat.le_of_succ_le hn')]

include hsa hm hm'

/-- The test for an ancestor is one more round of the loop, over the paths. -/
theorem commonParent_eq (hne : id ≠ id') :
    commonParent sa id id' =
      lastCommon (m.path id) (m'.path id') (min m.parents.length m'.parents.length + 1) := by
  have hrest := lastCommon_append (Nat.min_le_left m.parents.length m'.parents.length)
    (Nat.min_le_right _ _) [id] [id']
  simp only [commonParent, if_neg hne, hm, hm', Option.bind_eq_bind, Option.bind_some,
    hsa.depth_eq hm, hsa.depth_eq hm', lastCommon, path, hrest]
  rcases Nat.lt_trichotomy m.parents.length m'.parents.length with hlt | heq | hgt
  · rw [Nat.min_eq_left hlt.le, getElem?_concat_length, getElem?_append_left hlt,
      if_neg hlt.not_gt, if_pos hlt, ancestorAt, getElem?_eq_getElem hlt]
    by_cases hp : m'.parents[m.parents.length] = id
    · simp [hp]
    · simp [hp, Ne.symm hp]
  · simp [heq, hne]
  · rw [Nat.min_eq_right hgt.le, getElem?_concat_length, getElem?_append_left hgt,
      if_pos hgt, ancestorAt, getElem?_eq_getElem hgt]
    by_cases hp : m.parents[m'.parents.length] = id' <;> simp [hp]

/-- **The common parent is the deepest module of both paths.** -/
theorem commonParent_spec (hne : id ≠ id') :
    ∃ c, commonParent sa id id' = some c ∧
      DeepestBelow (m.path id).length (m.path id) (m'.path id') c := by
  have hlen : (m.path id).length = m.parents.length + 1 := length_path
  have hlen' : (m'.path id').length = m'.parents.length + 1 := length_path
  obtain ⟨c, hc, hdeepest⟩ := lastCommon_spec (m.path id) (m'.path id')
    (min m.parents.length m'.parents.length + 1) (by omega) (by omega)
  refine ⟨c, (commonParent_eq hsa hm hm' hne).trans hc, hdeepest.mono (by omega) fun i hi hi' => ?_⟩
  exact getElem?_path_ne hi' (by omega)

/-- The assertions of `accessible_from` on the packages hold. -/
theorem isSome_iff_package {c : Option ModuleDefinitionId}
    (hc : DeepestBelow (m.path id).length (m.path id) (m'.path id') c) :
    c.isSome = decide (m.packageId = m'.packageId) := by
  have hlen : (m.path id).length = m.parents.length + 1 := length_path
  have hlen' : (m'.path id').length = m'.parents.length + 1 := length_path
  obtain ⟨r, hr⟩ : ∃ r, (m.path id)[0]? = some r := ⟨_, getElem?_eq_getElem (by omega)⟩
  obtain ⟨r', hr'⟩ : ∃ r', (m'.path id')[0]? = some r' := ⟨_, getElem?_eq_getElem (by omega)⟩
  obtain ⟨mr, hmr, hnil, hpackage⟩ := exists_of_getElem?_path hsa hm hr
  obtain ⟨mr', hmr', hnil', hpackage'⟩ := exists_of_getElem?_path hsa hm' hr'
  cases c with
  | none =>
    have hne : r ≠ r' := fun h => hc 0 (by omega) (by rw [hr, hr', h])
    have hpkg : m.packageId ≠ m'.packageId := by
      intro h
      refine hne (hsa.package hmr hmr' (hsa.parent_eq_none hmr hnil)
        (hsa.parent_eq_none hmr' hnil') ?_)
      rw [hpackage, hpackage', h]
    simp [hpkg]
  | some c =>
    obtain ⟨d, -, hd, hd', -⟩ := hc
    have heq := getElem?_eq_of_le hsa hm hm' hd hd' (Nat.zero_le d)
    rw [hr, hr', Option.some.injEq] at heq
    subst heq
    cases hmr.symm.trans hmr'
    simp [hpackage ▸ hpackage']

end CommonParent

/-! ## The checks decide the rule -/

section Decision

variable (hsa : WellFormed sa) {target user : ModuleDefinitionId} {tm um : ModuleDefinition}
  (htm : sa.modules[target]? = some tm) (hum : sa.modules[user]? = some um)

/-- The module at the given depth of a path is public. -/
def PublicAt (sa : Program) (path : List ModuleDefinitionId) (i : ℕ) : Prop :=
  ∀ x m, path[i]? = some x → sa.modules[x]? = some m → m.visibility = .Public

theorem allPublic_spec {ids : List ModuleDefinitionId}
    (hids : ∀ id ∈ ids, ∃ m, sa.modules[id]? = some m) :
    ∃ b, allPublic sa ids = some b ∧ (b = true ↔ ∀ i, PublicAt sa ids i) := by
  induction ids with
  | nil => exact ⟨true, rfl, by simp [PublicAt]⟩
  | cons id ids ih =>
    obtain ⟨⟨m, hm⟩, hids⟩ := forall_mem_cons.mp hids
    obtain ⟨b, hb, hiff⟩ := ih hids
    have hhead : PublicAt sa (id :: ids) 0 ↔ m.visibility = .Public := by
      refine ⟨fun h => h id m rfl hm, ?_⟩
      rintro h x m' ⟨⟩ hm'
      exact Option.some.inj (hm.symm.trans hm') ▸ h
    have htail (i : ℕ) : PublicAt sa (id :: ids) (i + 1) ↔ PublicAt sa ids i := by
      simp [PublicAt]
    cases hv : m.visibility with
    | Public =>
      refine ⟨b, by simp [allPublic, hm, hv, hb], hiff.trans ?_⟩
      refine ⟨fun h i => ?_, fun h i => (htail i).mp (h (i + 1))⟩
      cases i with
      | zero => exact hhead.mpr hv
      | succ i => exact (htail i).mpr (h i)
    | Module =>
      refine ⟨false, by simp [allPublic, hm, hv], ?_⟩
      refine ⟨fun h => absurd h Bool.false_ne_true, fun h => ?_⟩
      cases hv.symm.trans (hhead.mp (h 0))

include hsa htm hum

/-- The rule, by depths: an item is visible if its parent is on the path of the user. -/
theorem allowed_iff {visibility : Visibility} :
    Allowed sa target visibility user ↔
      (∀ i, i + 1 < (tm.path target).length → (tm.path target)[i]? ≠ (um.path user)[i]? →
        PublicAt sa (tm.path target) (i + 1)) ∧
      (visibility ≠ .Public → target ∈ um.path user) := by
  have hcases (v : Visibility) : v = .Public ∨ v ≠ .Public := em _
  refine and_congr ⟨fun h i hi hne x m hx hm => ?_, fun h id m p hid hm hv hp => ?_⟩
    (imp_congr_right fun _ => encloses_iff hsa hum)
  · -- the entry before `x` is its parent
    obtain ⟨mx, hmx, htake, -⟩ := exists_of_getElem?_path hsa htm hx
    cases hm.symm.trans hmx
    refine (hcases _).resolve_right fun hv => ?_
    have hlen : m.parents.length = i + 1 := by
      rw [htake, length_take]
      omega
    obtain ⟨p, pm, hp, -, hparents, -⟩ := hsa.exists_parent hm (ne_nil_of_length_pos (by omega))
    have hlast : m.parents[i]? = some p := by
      rw [hparents, length_path] at hlen
      rw [hparents, ← Nat.succ.inj hlen, getElem?_path_last]
    rw [htake, getElem?_take_of_lt (Nat.lt_succ_self i)] at hlast
    have hmem := (encloses_iff hsa hum).mp (h x m p
      ((encloses_iff hsa htm).mpr (mem_of_getElem? hx)) hm hv hp)
    exact hne (hlast.trans ((mem_path_iff hsa htm hum hlast).mp hmem).symm)
  · obtain ⟨i, hi⟩ := mem_iff_getElem?.mp ((encloses_iff hsa htm).mp hid)
    obtain ⟨mx, hmx, htake, -⟩ := exists_of_getElem?_path hsa htm hi
    cases hm.symm.trans hmx
    obtain ⟨pm, -, hparents, -⟩ := hsa.inner hm hp
    obtain ⟨hlt, -⟩ := List.getElem?_eq_some_iff.mp hi
    have hlen := congrArg length (hparents.symm.trans htake)
    simp only [length_append, length_singleton, length_take] at hlen
    obtain ⟨j, rfl⟩ : ∃ j, i = j + 1 := ⟨pm.parents.length, by omega⟩
    have hpj : (tm.path target)[j]? = some p := by
      rw [← getElem?_take_of_lt (Nat.lt_succ_self j), ← htake, hparents,
        (by omega : j = pm.parents.length), getElem?_concat_length]
    rw [encloses_iff hsa hum, mem_path_iff hsa htm hum hpj, ← hpj]
    by_contra hne
    exact hv (h j hlt (fun heq => hne heq.symm) id m hi hm)

/-- The decision, from the modules that are below the deepest common one. -/
theorem allowed_iff_of_deepest (visibility : Visibility) (hout : target ∉ um.path user) {n : ℕ}
    (hsame : ∀ i, i + 1 < n → (tm.path target)[i]? = (um.path user)[i]?)
    (hdiff : ∀ i, n ≤ i + 1 → i < (tm.path target).length →
      (tm.path target)[i]? ≠ (um.path user)[i]?) :
    Allowed sa target visibility user ↔
      (∀ i, n ≤ i → 0 < i → PublicAt sa (tm.path target) i) ∧ visibility = .Public := by
  rw [allowed_iff hsa htm hum]
  refine and_congr ⟨fun h i hi hpos => ?_, fun h i hi hne => ?_⟩ ?_
  · obtain ⟨j, rfl⟩ : ∃ j, i = j + 1 := ⟨i - 1, by omega⟩
    by_cases hlt : j + 1 < (tm.path target).length
    · exact h j hlt (hdiff j hi (by omega))
    · intro x m hx
      rw [getElem?_eq_none (by omega)] at hx
      cases hx
  · refine h (i + 1) ?_ (Nat.succ_pos i)
    by_contra hn
    exact hne (hsame i (by omega))
  · refine ⟨fun h => ?_, fun h hv => absurd h hv⟩
    by_contra hv
    exact hout (h hv)

/-- **`accessible_from` decides the rule.** -/
theorem accessibleFrom_spec (visibility : Visibility) :
    ∃ b, accessibleFrom sa target visibility user = some b ∧
      (b = true ↔ Allowed sa target visibility user) := by
  have hself : target = user → Allowed sa target visibility user := by
    rintro rfl
    refine ⟨fun id m p hid hm _ hp => hid.tail ⟨m, hm, hp⟩, fun _ => .refl⟩
  by_cases heq : target = user
  · exact ⟨true, by simp [heq], by simpa using hself heq⟩
  have hcontains : moduleContains sa target user = some (decide (target ∈ um.parents)) := by
    simp [moduleContains, heq, hum]
  have hpath : target ∈ um.path user ↔ target ∈ um.parents := by
    simp [path, heq]
  by_cases hmem : target ∈ um.parents
  · -- a module may use everything on its own path
    refine ⟨true, by simp [hcontains, hmem], ?_⟩
    have henc := (encloses_iff hsa hum).mpr (hpath.mpr hmem)
    refine ⟨fun _ => ⟨fun id m p hid hm _ hp => ?_, fun _ => henc⟩, fun _ => rfl⟩
    exact (henc.trans hid).tail ⟨m, hm, hp⟩
  have hout : target ∉ um.path user := fun h => hmem (hpath.mp h)
  obtain ⟨c, hc, hdeepest⟩ := commonParent_spec hsa htm hum heq
  have hassert := isSome_iff_package hsa htm hum hdeepest
  have hlen : (tm.path target).length = tm.parents.length + 1 := length_path
  have hexists (id : ModuleDefinitionId) (hid : id ∈ tm.parents) :
      ∃ m, sa.modules[id]? = some m := by
    obtain ⟨i, hi⟩ := mem_iff_getElem?.mp (mem_append_left [target] hid)
    obtain ⟨m, hm, -⟩ := exists_of_getElem?_path hsa htm hi
    exact ⟨m, hm⟩
  -- the modules from depth `n` on are those of the slice and the target
  have hslice {n : ℕ} (hn : n ≤ tm.parents.length) :
      ∃ b, allPublic sa (tm.parents.drop n) = some b ∧
        ((b && tm.visibility.isPublic && visibility.isPublic) = true ↔
          (∀ i, n ≤ i → PublicAt sa (tm.path target) i) ∧ visibility = .Public) := by
    obtain ⟨b, hb, hiff⟩ := allPublic_spec fun id hid => hexists id (mem_of_mem_drop hid)
    refine ⟨b, hb, ?_⟩
    have hpublic (v : Visibility) : v.isPublic = true ↔ v = .Public := by
      cases v <;> simp
    rw [Bool.and_eq_true, Bool.and_eq_true, hiff, hpublic, hpublic]
    refine and_congr ⟨fun h i hi x m hx hm => ?_, fun h => ⟨fun i x m hx hm => ?_, ?_⟩⟩ Iff.rfl
    · obtain ⟨hlt, -⟩ := List.getElem?_eq_some_iff.mp hx
      by_cases hlast : i = tm.parents.length
      · rw [hlast, getElem?_path_last] at hx
        cases hx
        cases hm.symm.trans htm
        exact h.2
      · rw [getElem?_path_of_lt (by omega)] at hx
        refine h.1 (i - n) x m ?_ hm
        rwa [getElem?_drop, Nat.add_sub_cancel' hi]
    · rw [getElem?_drop] at hx
      obtain ⟨hlt, -⟩ := List.getElem?_eq_some_iff.mp hx
      refine h (n + i) (by omega) x m ?_ hm
      rw [getElem?_path_of_lt hlt, hx]
    · exact h tm.parents.length hn target tm getElem?_path_last htm
  cases c with
  | none =>
    -- another package: the whole path has to be public
    obtain ⟨b, hb, hiff⟩ := hslice (Nat.zero_le _)
    rw [drop_zero] at hb
    refine ⟨b && tm.visibility.isPublic && visibility.isPublic, ?_, hiff.trans ?_⟩
    · cases b <;> simp [heq, hcontains, hmem, hc, htm, hum, ← hassert, hb]
    · rw [allowed_iff_of_deepest hsa htm hum visibility hout (n := 0) (by omega) fun i _ hi =>
        hdeepest i hi]
      refine and_congr ⟨fun h i hi _ => h i hi, fun h i hi x m hx hm => ?_⟩ Iff.rfl
      -- a top-level module is public
      cases i with
      | zero =>
        obtain ⟨mx, hmx, hnil, -⟩ := exists_of_getElem?_path hsa htm hx
        cases hm.symm.trans hmx
        exact (hsa.top hm (hsa.parent_eq_none hm hnil)).2
      | succ i => exact h (i + 1) hi (Nat.succ_pos i) x m hx hm
  | some c =>
    obtain ⟨d, hd, hcd, hcd', hall⟩ := hdeepest
    obtain ⟨mc, hmc, htake, -⟩ := exists_of_getElem?_path hsa htm hcd
    have hdepth : mc.depth = d := by
      rw [hsa.depth_eq hmc, htake, length_take]
      omega
    have htdepth := hsa.depth_eq htm
    have hallowed := allowed_iff_of_deepest hsa htm hum visibility hout (n := d + 2)
      (fun i hi => getElem?_eq_of_le hsa htm hum hcd hcd' (by omega))
      (fun i hi hlt => hall i (by omega) hlt)
    -- the target itself is not common
    have hbelow : d < tm.parents.length := by
      by_contra hge
      obtain rfl : d = tm.parents.length := by omega
      rw [getElem?_path_last] at hcd
      exact hout (Option.some.inj hcd ▸ mem_of_getElem? hcd')
    by_cases hchild : d + 1 = tm.parents.length
    · refine ⟨visibility.isPublic, ?_, ?_⟩
      · simp [heq, hcontains, hmem, hc, htm, hum, ← hassert, hmc, hdepth, htdepth, hchild]
      · rw [hallowed]
        refine ⟨fun h => ⟨fun i hi _ x m hx => ?_, ?_⟩, fun h => by rw [h.2]; rfl⟩
        · rw [getElem?_eq_none (by omega)] at hx
          cases hx
        · cases visibility with
          | Public => rfl
          | Module => cases h
    · obtain ⟨b, hb, hiff⟩ := hslice (n := d + 2) (by omega)
      refine ⟨b && tm.visibility.isPublic && visibility.isPublic, ?_, hiff.trans ?_⟩
      · have hle : d + 2 ≤ tm.parents.length := by omega
        cases b <;> simp [heq, hcontains, hmem, hc, htm, hum, ← hassert, hmc,
          hdepth, htdepth, hchild, hle, hb]
      · rw [hallowed]
        exact and_congr ⟨fun h i hi _ => h i hi, fun h i hi => h i hi (by omega)⟩ Iff.rfl

end Decision

/-- **The access checks decide the visibility rule**, for every element and every user. -/
theorem accessible_iff (hsa : WellFormed sa) {e : Element} {target user : ModuleDefinitionId}
    {visibility : Visibility} (he : e.home sa = some (target, visibility))
    (htarget : target < sa.modules.length) (huser : user < sa.modules.length) :
    ∃ b, e.check sa user = some b ∧ (b = true ↔ Allowed sa target visibility user) := by
  rw [e.check_eq, he]
  exact accessibleFrom_spec hsa (getElem?_eq_getElem htarget) (getElem?_eq_getElem huser) visibility

/-- A package with a public module `a`, a module `b` inside it that is not public, and in `b` a
public class. -/
def nested : Program where
  modules := [⟨some 0, none, .Public, [], 0⟩, ⟨some 0, some 0, .Public, [0], 1⟩,
    ⟨some 0, some 1, .Module, [0, 1], 2⟩]
  globals := []
  classes := [⟨⟨2, .Public⟩, []⟩]
  fcts := []
  enums := []
  structs := []
  traits := []
  consts := []

theorem built_nested : Built nested := by
  have hempty : Built { nested with modules := [] } := .empty rfl
  have hroot : Built { nested with modules := nested.modules.take 1 } := .package hempty (by simp)
  have ha : Built { nested with modules := nested.modules.take 2 } :=
    hroot.inner (show _[0]? = _ from rfl) (show newInner _ _ _ .Public = _ from rfl)
  exact ha.inner (show _[1]? = _ from rfl) (show newInner _ _ _ .Module = _ from rfl)

/-- The root may not use the class, since `b` is hidden outside of `a`. -/
theorem accessible_iff_nested :
    Built nested ∧ ∃ b, (Element.Class 0).check nested 0 = some b ∧
      (b = true ↔ Allowed nested 2 .Public 0) :=
  ⟨built_nested, accessible_iff built_nested.wellFormed rfl (by decide) (by decide)⟩

end Dora.Language.Access
