import Mathlib.Data.List.Basic
import Mathlib.Data.List.Pairwise

/-!
# Fixups

Code that is written from front to back, with labels whose positions are not known when they are
used. Where a position is missing, a field is left in the code and a fixup is recorded, and in the
end every field is overwritten. Each field is left in code that was added with its fixup, so fields
do not overlap.

## Main definitions

* `patch`, `patchAll`, `slice`: overwriting and reading parts of the code
* `Code`: code with labels and fixups; `Code.Grows`, `Code.Resolvable`, `Code.resolved`
* `run`, `Occurs`: sequences of calls, and an occurrence of a call in one

## Main results

* `resolve_eq`: resolving the fixups one after the other is `patchAll`
* `Code.Grows.slice_resolved`, `Code.Grows.slice_resolved_jump`: what a call has appended
* `Code.Grows.exists_field`: only fields change
-/

namespace Fixups

open List

variable {α : Type}

/-! ### Patching -/

section Patch

/-- Overwriting a part of the code. -/
def patch (code : List α) (start : ℕ) (bytes : List α) : List α :=
  code.take start ++ bytes ++ code.drop (start + bytes.length)

def patchAll (code : List α) (patches : List (ℕ × List α)) : List α :=
  patches.foldl (fun code p => patch code p.1 p.2) code

/-- A part of the code. -/
def slice (code : List α) (start size : ℕ) : List α := (code.drop start).take size

variable {code bytes : List α} {start size n : ℕ}

theorem length_patch (h : start + bytes.length ≤ code.length) :
    (patch code start bytes).length = code.length := by
  simp only [patch, length_append, length_take, length_drop]
  omega

theorem getElem?_patch (h : start + bytes.length ≤ code.length) (i : ℕ) :
    (patch code start bytes)[i]? =
      if start ≤ i ∧ i < start + bytes.length then bytes[i - start]? else code[i]? := by
  have hlen : (code.take start).length = start := by
    rw [length_take]
    omega
  rw [patch, append_assoc]
  by_cases hlt : i < start
  · rw [if_neg (by omega), getElem?_append_left (by omega), getElem?_take_of_lt hlt]
  · rw [getElem?_append_right (by omega), hlen]
    by_cases hmid : i < start + bytes.length
    · rw [if_pos ⟨by omega, hmid⟩, getElem?_append_left (by omega)]
    · rw [if_neg (by omega), getElem?_append_right (by omega), getElem?_drop]
      congr 1
      omega

/-- Fields, as start and size, in ascending order and before `n`. -/
structure Fields (n : ℕ) (fields : List (ℕ × ℕ)) : Prop where
  pairwise : fields.Pairwise fun f g => f.1 + f.2 ≤ g.1
  le : ∀ f ∈ fields, f.1 + f.2 ≤ n

def fieldOf (p : ℕ × List α) : ℕ × ℕ := (p.1, p.2.length)

variable {patches : List (ℕ × List α)} {p : ℕ × List α} {code' : List α} {i : ℕ}

/-- One patch leaves the fields of the others where they are. -/
theorem Fields.patch_head (h : Fields code.length ((p :: patches).map fieldOf)) :
    p.1 + p.2.length ≤ code.length ∧ Fields (patch code p.1 p.2).length (patches.map fieldOf) := by
  have hp : p.1 + p.2.length ≤ code.length := h.le (fieldOf p) mem_cons_self
  rw [length_patch hp]
  exact ⟨hp, (pairwise_cons.mp h.pairwise).2, fun g hg => h.le g (mem_cons_of_mem _ hg)⟩

section

variable (h : Fields code.length (patches.map fieldOf))
include h

theorem length_patchAll : (patchAll code patches).length = code.length := by
  induction patches generalizing code with
  | nil => rfl
  | cons p patches ih =>
    obtain ⟨hp, htail⟩ := h.patch_head
    rw [patchAll, foldl_cons, ← patchAll, ih htail, length_patch hp]

theorem getElem?_patchAll_of_not_mem (hi : ∀ p ∈ patches, i < p.1 ∨ p.1 + p.2.length ≤ i) :
    (patchAll code patches)[i]? = code[i]? := by
  induction patches generalizing code with
  | nil => rfl
  | cons p patches ih =>
    obtain ⟨hp, htail⟩ := h.patch_head
    have hi' := hi p mem_cons_self
    rw [patchAll, foldl_cons, ← patchAll, ih htail fun q hq => hi q (mem_cons_of_mem _ hq),
      getElem?_patch hp, if_neg (by omega)]

theorem getElem?_patchAll_of_mem (hmem : p ∈ patches) (hi : i < p.2.length) :
    (patchAll code patches)[p.1 + i]? = p.2[i]? := by
  induction patches generalizing code with
  | nil => cases hmem
  | cons q patches ih =>
    obtain ⟨hq, htail⟩ := h.patch_head
    rw [patchAll, foldl_cons, ← patchAll]
    rcases mem_cons.mp hmem with rfl | hmem
    · -- the later fields lie behind this one
      have hlater : ∀ q ∈ patches, p.1 + i < q.1 ∨ q.1 + q.2.length ≤ p.1 + i := by
        intro q hq
        have : p.1 + p.2.length ≤ q.1 :=
          (pairwise_cons.mp h.pairwise).1 (fieldOf q) (mem_map_of_mem hq)
        exact .inl (by omega)
      rw [getElem?_patchAll_of_not_mem htail hlater, getElem?_patch hq, if_pos (by omega),
        Nat.add_sub_cancel_left]
    · exact ih htail hmem

end

/-! ### Slices -/

theorem getElem?_slice (i : ℕ) :
    (slice code start size)[i]? = if i < size then code[start + i]? else none := by
  rw [slice, getElem?_take, getElem?_drop]

theorem slice_congr (h : ∀ i, start ≤ i → i < start + size → code[i]? = code'[i]?) :
    slice code start size = slice code' start size := by
  apply ext_getElem?
  intro i
  rw [getElem?_slice, getElem?_slice]
  by_cases hi : i < size
  · rw [if_pos hi, if_pos hi, h (start + i) (by omega) (by omega)]
  · rw [if_neg hi, if_neg hi]

theorem slice_append (pre rest : List α) :
    slice (pre ++ (bytes ++ rest)) pre.length bytes.length = bytes := by
  rw [slice, drop_left, take_left]

theorem slice_append_left {rest : List α} (h : start + size ≤ code.length) :
    slice (code ++ rest) start size = slice code start size :=
  slice_congr fun i _ hi => getElem?_append_left (by omega)

/-- Two codes differ in an element that both have. -/
def Differ (code code' : List α) : Prop :=
  ∃ (i : ℕ) (x y : α), code[i]? = some x ∧ code'[i]? = some y ∧ x ≠ y

theorem Differ.prepend {code : List α} (h : Differ code code') (pre : List α) :
    Differ (pre ++ code) (pre ++ code') := by
  obtain ⟨i, x, y, hx, hy, hne⟩ := h
  refine ⟨pre.length + i, x, y, ?_, ?_, hne⟩
  · rw [getElem?_append_right (by omega), Nat.add_sub_cancel_left, hx]
  · rw [getElem?_append_right (by omega), Nat.add_sub_cancel_left, hy]

theorem Differ.of_head {x y : α} {code : List α} (h : x ≠ y) :
    Differ (x :: code) (y :: code') := ⟨0, x, y, rfl, rfl, h⟩

theorem Differ.ne_of_slice {bytes bytes' code : List α} (h : Differ bytes bytes') {start : ℕ}
    (hs : slice code start bytes.length = bytes) (hs' : slice code' start bytes'.length = bytes') :
    code ≠ code' := by
  rintro rfl
  obtain ⟨i, x, y, hx, hy, hne⟩ := h
  rw [← hs, getElem?_slice] at hx
  rw [← hs', getElem?_slice] at hy
  split_ifs at hx hy
  exact hne (Option.some.inj (hx.symm.trans hy))

end Patch

/-! ### Resolving -/

section Resolve

variable {σ J : Type} {start size : J → ℕ} {encode : List (Option ℕ) → J → Option (List α)}
    {v : σ → List α × List (Option ℕ)} {resolve : σ → J → Option σ}

variable (start encode) in
/-- What is written for the fixups. -/
def patchesOf (labels : List (Option ℕ)) (jumps : List J) : List (ℕ × List α) :=
  jumps.map fun j => (start j, (encode labels j).getD [])

/-- **Resolving fixups**: where every fixup is resolved by writing bytes that depend on the labels
into its field, resolving all of them patches all fields, and fails if some fixup has no bytes. -/
theorem resolve_eq
    (hresolve : ∀ s j, start j + size j ≤ (v s).1.length → (resolve s j).map v =
        (encode (v s).2 j).map fun bytes => (patch (v s).1 (start j) bytes, (v s).2))
    (hsize : ∀ labels j bytes, encode labels j = some bytes → bytes.length = size j)
    {jumps : List J} {s : σ} (hjumps : ∀ j ∈ jumps, start j + size j ≤ (v s).1.length) :
    (jumps.foldlM resolve s).map v =
      if ∀ j ∈ jumps, (encode (v s).2 j).isSome then
        some (patchAll (v s).1 (patchesOf start encode (v s).2 jumps), (v s).2)
      else none := by
  induction jumps generalizing s with
  | nil => rfl
  | cons j jumps ih =>
    have hj := hresolve s j (hjumps j mem_cons_self)
    rw [foldlM_cons]
    cases hencode : encode (v s).2 j with
    | none =>
      rw [hencode] at hj
      have hnone : resolve s j = none := Option.map_eq_none_iff.mp hj
      have hnot : ¬ ∀ k ∈ j :: jumps, (encode (v s).2 k).isSome := by
        intro h
        have := h j mem_cons_self
        rw [hencode] at this
        cases this
      rw [hnone, if_neg hnot]
      rfl
    | some bytes =>
      rw [hencode] at hj
      obtain ⟨s', hs', hview⟩ := Option.map_eq_some_iff.mp hj
      have hlen : (v s').1.length = (v s).1.length := by
        rw [hview]
        apply length_patch
        rw [hsize _ _ _ hencode]
        exact hjumps j mem_cons_self
      have htail := ih fun k hk => by
        rw [hlen]
        exact hjumps k (mem_cons_of_mem _ hk)
      have hiff : (∀ k ∈ j :: jumps, (encode (v s).2 k).isSome) ↔
          ∀ k ∈ jumps, (encode (v s).2 k).isSome := by
        rw [forall_mem_cons, hencode]
        exact and_iff_right rfl
      have hpatches : patchAll (v s).1 (patchesOf start encode (v s).2 (j :: jumps)) =
          patchAll (patch (v s).1 (start j) bytes) (patchesOf start encode (v s).2 jumps) := by
        rw [patchesOf, map_cons, hencode]
        rfl
      rw [hview] at htail
      rw [hs', hpatches, if_congr hiff rfl rfl]
      exact htail

end Resolve

/-! ### Code with labels -/

/-- **Fixups**: where the field of a fixup is, and what is written into it, unless that fails. -/
class Fixup (α : outParam Type) (J : Type) where
  start : J → ℕ
  size : J → ℕ
  encode : List (Option ℕ) → J → Option (List α)
  length_encode : ∀ labels j bytes, encode labels j = some bytes → bytes.length = size j

/-- **Code with labels and fixups.** A label is bound to a position or not yet. -/
structure Code (α J : Type) where
  code : List α
  labels : List (Option ℕ)
  jumps : List J

namespace Code

open Fixup

variable {J : Type} {s s1 s2 s3 : Code α J}

variable {l t : ℕ}

/-- No code and no labels. -/
def empty : Code α J := ⟨[], [], []⟩

/-- The position of a label, if it is bound. -/
def target (s : Code α J) (l : ℕ) : Option ℕ := (s.labels[l]?).join

theorem target_append (s : Code α J) (v : Option ℕ) (hl : l < s.labels.length) :
    ({ s with labels := s.labels ++ [v] } : Code α J).target l = s.target l := by
  rw [target, target, getElem?_append_left hl]

theorem lt_of_target (h : s.target l = some t) : l < s.labels.length := by
  rw [target] at h
  by_contra hl
  rw [getElem?_eq_none (by omega)] at h
  cases h

theorem eq_of_target_create {v : Option ℕ} (h : s.target l ≠ some t)
    (h' : (⟨s.code, s.labels ++ [v], s.jumps⟩ : Code α J).target l = some t) :
    l = s.labels.length ∧ v = some t := by
  have hlt : l < (s.labels ++ [v]).length := lt_of_target h'
  have hle : s.labels.length ≤ l := by
    refine Nat.le_of_not_lt fun hl => h ?_
    exact (target_append s v hl).symm.trans h'
  obtain rfl : l = s.labels.length := by
    rw [length_append, length_singleton] at hlt
    omega
  rw [target, getElem?_append_right (Nat.le_refl _), Nat.sub_self] at h'
  exact ⟨rfl, h'⟩

theorem eq_of_target_set {k p : ℕ} (hk : k < s.labels.length) (h : s.target l ≠ some t)
    (h' : (⟨s.code, s.labels.set k (some p), s.jumps⟩ : Code α J).target l = some t) :
    k = l ∧ p = t := by
  rw [target] at h'
  by_cases hl : k = l
  · subst hl
    rw [getElem?_set_self hk] at h'
    exact ⟨rfl, Option.some.inj h'⟩
  · rw [getElem?_set_ne hl] at h'
    exact absurd h' h

variable [Fixup α J]

def field (j : J) : ℕ × ℕ := (start j, size j)

/-- What is written into the fields. -/
def patches (s : Code α J) : List (ℕ × List α) := patchesOf start encode s.labels s.jumps

/-- The code with all fields filled in. -/
def resolved (s : Code α J) : List α := patchAll s.code s.patches

/-- Every field can be filled in. -/
def Resolvable (s : Code α J) : Prop := ∀ j ∈ s.jumps, (encode s.labels j).isSome

instance : Decidable s.Resolvable := inferInstanceAs (Decidable (∀ j ∈ s.jumps, _))

theorem Resolvable.fieldOf_patches (h : s.Resolvable) :
    s.patches.map fieldOf = s.jumps.map field := by
  rw [patches, patchesOf, map_map]
  refine map_congr_left fun j hj => ?_
  obtain ⟨bytes, hbytes⟩ := Option.isSome_iff_exists.mp (h j hj)
  simp only [Function.comp_apply, fieldOf, field, hbytes, Option.getD_some,
    length_encode _ _ _ hbytes]

/-- **Growth**: code is appended, the fields of new fixups lie in new code, and labels that are
bound stay bound; others may be bound to a position in the new code. -/
structure Grows (s s' : Code α J) : Prop where
  code : ∃ bytes, s'.code = s.code ++ bytes
  jumps : ∃ jumps, s'.jumps = s.jumps ++ jumps ∧ Fields s'.code.length (jumps.map field) ∧
    ∀ j ∈ jumps, s.code.length ≤ (field j).1
  target : ∀ l t, s.target l = some t → s'.target l = some t
  fresh : ∀ l t, s'.target l = some t → s.target l = some t ∨ s.code.length ≤ t ∧ t ≤ s'.code.length

namespace Grows

theorem length_le (h : Grows s1 s2) : s1.code.length ≤ s2.code.length := by
  obtain ⟨bytes, hbytes⟩ := h.code
  rw [hbytes, length_append]
  omega

theorem refl (s : Code α J) : Grows s s where
  code := ⟨[], (append_nil _).symm⟩
  jumps := ⟨[], (append_nil _).symm, ⟨List.Pairwise.nil, by simp⟩, by simp⟩
  target _ _ h := h
  fresh _ _ h := .inl h

theorem trans (h : Grows s1 s2) (h' : Grows s2 s3) : Grows s1 s3 := by
  have hle := h.length_le
  have hle' := h'.length_le
  refine ⟨?_, ?_, fun l t ht => h'.target l t (h.target l t ht), fun l t ht => ?_⟩
  · obtain ⟨bytes, hbytes⟩ := h.code
    obtain ⟨bytes', hbytes'⟩ := h'.code
    exact ⟨bytes ++ bytes', by rw [hbytes', hbytes, append_assoc]⟩
  · obtain ⟨js, hjs, hfields, hstart⟩ := h.jumps
    obtain ⟨js', hjs', hfields', hstart'⟩ := h'.jumps
    refine ⟨js ++ js', by rw [hjs', hjs, append_assoc], ⟨?_, ?_⟩, ?_⟩
    · rw [map_append]
      refine pairwise_append.mpr ⟨hfields.pairwise, hfields'.pairwise, ?_⟩
      -- the old fields end where the new code starts
      rintro f hf g hg
      obtain ⟨j, hj, rfl⟩ := mem_map.mp hg
      exact Nat.le_trans (hfields.le f hf) (hstart' j hj)
    · intro f hf
      rw [map_append] at hf
      rcases mem_append.mp hf with hf | hf
      · exact Nat.le_trans (hfields.le f hf) hle'
      · exact hfields'.le f hf
    · intro j hj
      rcases mem_append.mp hj with hj | hj
      · exact hstart j hj
      · exact Nat.le_trans hle (hstart' j hj)
  · rcases h'.fresh l t ht with ht | ht
    · exact (h.fresh l t ht).imp_right fun ⟨h1, h2⟩ => ⟨h1, Nat.le_trans h2 hle'⟩
    · exact .inr ⟨Nat.le_trans hle ht.1, ht.2⟩

theorem append (s : Code α J) (bytes : List α) :
    Grows s { s with code := s.code ++ bytes } where
  code := ⟨bytes, rfl⟩
  jumps := ⟨[], (append_nil _).symm, ⟨List.Pairwise.nil, by simp⟩, by simp⟩
  target _ _ h := h
  fresh _ _ h := .inl h

theorem jump (s : Code α J) (bytes : List α) {j : J} (hstart : s.code.length ≤ (field j).1)
    (hend : (field j).1 + (field j).2 ≤ s.code.length + bytes.length) :
    Grows s { s with code := s.code ++ bytes, jumps := s.jumps ++ [j] } where
  code := ⟨bytes, rfl⟩
  jumps := ⟨[j], rfl, ⟨pairwise_singleton _ _, by simpa using hend⟩, by simpa using hstart⟩
  target _ _ h := h
  fresh _ _ h := .inl h

theorem create (s : Code α J) {v : Option ℕ} (hv : ∀ t, v = some t → t = s.code.length) :
    Grows s { s with labels := s.labels ++ [v] } where
  code := ⟨[], (append_nil _).symm⟩
  jumps := ⟨[], (append_nil _).symm, ⟨List.Pairwise.nil, by simp⟩, by simp⟩
  target l t h := by rw [target_append s v (lt_of_target h), h]
  fresh l t h := by
    by_cases ht : s.target l = some t
    · exact .inl ht
    · obtain rfl := hv t (eq_of_target_create ht h).2
      exact .inr ⟨Nat.le_refl _, Nat.le_refl _⟩

theorem bind (s : Code α J) {l : ℕ} (hl : s.labels[l]? = some none) :
    Grows s { s with labels := s.labels.set l (some s.code.length) } where
  code := ⟨[], (List.append_nil _).symm⟩
  jumps := ⟨[], (List.append_nil _).symm, ⟨List.Pairwise.nil, by simp⟩, by simp⟩
  target k t h := by
    have hne : l ≠ k := by
      rintro rfl
      rw [Code.target, hl] at h
      cases h
    rw [Code.target, List.getElem?_set_ne hne]
    exact h
  fresh k t h := by
    by_cases ht : s.target k = some t
    · exact .inl ht
    · obtain ⟨-, rfl⟩ := eq_of_target_set (List.getElem?_eq_some_iff.mp hl).1 ht h
      exact .inr ⟨Nat.le_refl _, Nat.le_refl _⟩

theorem mem_jumps (h : Grows s1 s2) {j : J} (hj : j ∈ s1.jumps) : j ∈ s2.jumps := by
  obtain ⟨later, hlater, -⟩ := h.jumps
  rw [hlater]
  exact mem_append_left _ hj

theorem fields (h : Grows Code.empty s) : Fields s.code.length (s.jumps.map field) := by
  obtain ⟨js, hjs, hfields, -⟩ := h.jumps
  rw [hjs]
  exact hfields

theorem target_le (h : Grows Code.empty s) {l t : ℕ} (ht : s.target l = some t) :
    t ≤ s.code.length := by
  rcases h.fresh l t ht with h | h
  · cases h
  · exact h.2

section Resolved

variable {bytes : List α}

/-- Fields of the grown code: those before a call, those of the call and those behind it. -/
theorem apart (h1 : Grows Code.empty s1) (h2 : Grows s2 s) {own : List J}
    (hjumps : s2.jumps = s1.jumps ++ own) {f : ℕ × ℕ} (hf : f ∈ s.jumps.map field) :
    f.1 + f.2 ≤ s1.code.length ∨ f ∈ own.map field ∨ s2.code.length ≤ f.1 := by
  obtain ⟨later, hlater, -, hstart⟩ := h2.jumps
  rw [hlater, hjumps, map_append, map_append] at hf
  rcases mem_append.mp hf with hf | hf
  · rcases mem_append.mp hf with hf | hf
    · exact .inl (h1.fields.le f hf)
    · exact .inr (.inl hf)
  · obtain ⟨j, hj, rfl⟩ := mem_map.mp hf
    exact .inr (.inr (hstart j hj))

variable (hres : s.Resolvable) (h : Grows Code.empty s)

include hres h

theorem fields_patches : Fields s.code.length (s.patches.map fieldOf) :=
  hres.fieldOf_patches ▸ h.fields

theorem length_resolved : s.resolved.length = s.code.length :=
  length_patchAll (fields_patches hres h)

/-- **What has changed** lies in a field. -/
theorem exists_field {i : ℕ} (hne : s.resolved[i]? ≠ s.code[i]?) :
    ∃ j ∈ s.jumps, start j ≤ i ∧ i < start j + size j := by
  refine Classical.not_forall_not.mp fun hout => hne ?_
  refine getElem?_patchAll_of_not_mem (fields_patches hres h) fun p hp => ?_
  obtain ⟨j, hj, hjp⟩ := mem_map.mp (hres.fieldOf_patches ▸ mem_map_of_mem hp)
  have hnot : ¬ (start j ≤ i ∧ i < start j + size j) := fun h => hout j ⟨hj, h⟩
  obtain ⟨hstart, hsize⟩ := Prod.mk.inj hjp
  omega

variable (h1 : Grows Code.empty s1) (h2 : Grows s2 s)

include h1 h2

/-- **What a call has appended without a fixup** stands in the resolved code. -/
theorem slice_resolved (hcode : s2.code = s1.code ++ bytes) (hjumps : s2.jumps = s1.jumps) :
    slice s.resolved s1.code.length bytes.length = bytes := by
  obtain ⟨rest, hrest⟩ := h2.code
  have hlen : s2.code.length = s1.code.length + bytes.length := by rw [hcode, length_append]
  have hsame : slice s.resolved s1.code.length bytes.length =
      slice s.code s1.code.length bytes.length := by
    refine slice_congr fun i hi hi' =>
      getElem?_patchAll_of_not_mem (fields_patches hres h) fun p hp => ?_
    have hf : fieldOf p ∈ s.jumps.map field := hres.fieldOf_patches ▸ mem_map_of_mem hp
    have hown : s2.jumps = s1.jumps ++ [] := by rw [hjumps, append_nil]
    rcases apart h1 h2 hown hf with hf | hf | hf
    · exact .inr (Nat.le_trans hf hi)
    · cases hf
    · exact .inl (Nat.lt_of_lt_of_le (hlen ▸ hi') hf)
  rw [hsame, hrest, hcode, append_assoc, slice_append]

/-- **What a call has appended with a fixup** at its end: the field has been filled in. -/
theorem slice_resolved_jump {pre old new : List α} {j : J}
    (hcode : s2.code = s1.code ++ (pre ++ old)) (hjumps : s2.jumps = s1.jumps ++ [j])
    (hfield : field j = (s1.code.length + pre.length, old.length))
    (hencode : encode s.labels j = some new) :
    slice s.resolved s1.code.length (pre ++ old).length = pre ++ new := by
  obtain ⟨rest, hrest⟩ := h2.code
  have hlen : s2.code.length = s1.code.length + (pre.length + old.length) := by
    rw [hcode, length_append, length_append]
  obtain ⟨hstart, hsize⟩ := Prod.mk.inj hfield
  have hnew : new.length = old.length := (length_encode _ _ _ hencode).trans hsize
  have hmem : (s1.code.length + pre.length, new) ∈ s.patches := by
    refine mem_map.mpr ⟨j, h2.mem_jumps (hjumps ▸ mem_append_right _ (mem_singleton_self j)), ?_⟩
    rw [hencode, hstart]
    rfl
  apply ext_getElem?
  intro i
  rw [getElem?_slice, length_append]
  by_cases hi : i < pre.length + old.length
  · rw [if_pos hi, resolved]
    by_cases hpre : i < pre.length
    · -- the part before the field is not touched
      rw [getElem?_patchAll_of_not_mem (fields_patches hres h), hrest, hcode, append_assoc,
        getElem?_append_right (by omega), Nat.add_sub_cancel_left, append_assoc,
        getElem?_append_left hpre, getElem?_append_left hpre]
      intro p hp
      have hf : fieldOf p ∈ s.jumps.map field := hres.fieldOf_patches ▸ mem_map_of_mem hp
      rcases apart h1 h2 hjumps hf with hf | hf | hf
      · exact .inr (Nat.le_trans hf (by omega))
      · have hp1 : p.1 = s1.code.length + pre.length := by
          rw [map_singleton, mem_singleton, hfield] at hf
          exact congrArg Prod.fst hf
        exact .inl (by omega)
      · have hp1 : s2.code.length ≤ p.1 := hf
        exact .inl (by omega)
    · have hmid := getElem?_patchAll_of_mem (fields_patches hres h) hmem (i := i - pre.length)
        (by dsimp only; omega)
      rw [getElem?_append_right (by omega), ← hmid]
      congr 1
      omega
  · rw [if_neg hi, getElem?_eq_none]
    rw [length_append, hnew]
    omega

end Resolved

end Grows

end Code

/-! ### Runs -/

section Runs

variable {σ κ : Type} (step : σ → κ → Option σ)

/-- A sequence of calls, each of which may fail. -/
def run (calls : List κ) (s : σ) : Option σ := calls.foldlM step s

/-- **An occurrence of a call in a run**, with the states before and after it. -/
def Occurs (start : σ) (calls : List κ) (s : σ) (c : κ) (s1 s2 : σ) : Prop :=
  ∃ pre post, calls = pre ++ c :: post ∧ run step pre start = some s1 ∧ step s1 c = some s2 ∧
    run step post s2 = some s

variable {step} {calls : List κ}

theorem run_cons {c : κ} {s s' : σ} :
    run step (c :: calls) s = some s' ↔ ∃ s1, step s c = some s1 ∧ run step calls s1 = some s' := by
  exact Option.bind_eq_some_iff

theorem run_append {pre post : List κ} {s s' : σ} :
    run step (pre ++ post) s = some s' ↔
      ∃ s1, run step pre s = some s1 ∧ run step post s1 = some s' := by
  rw [run, foldlM_append]
  exact Option.bind_eq_some_iff

theorem run_induction {P : σ → σ → Prop} (hrefl : ∀ s, P s s)
    (htrans : ∀ s1 s2 s3, P s1 s2 → P s2 s3 → P s1 s3)
    (hstep : ∀ s c s', step s c = some s' → P s s') {s s' : σ} (h : run step calls s = some s') :
    P s s' := by
  induction calls generalizing s with
  | nil =>
    obtain rfl := Option.some.inj h
    exact hrefl s
  | cons c calls ih =>
    obtain ⟨s1, hs1, h⟩ := run_cons.mp h
    exact htrans s s1 s' (hstep s c s1 hs1) (ih h)

/-- What does not hold at first and holds in the end was brought about by some call. -/
theorem exists_occurs {Q : σ → Prop} {start s : σ} (hrun : run step calls start = some s)
    (hstart : ¬ Q start) (hs : Q s) :
    ∃ c s1 s2, Occurs step start calls s c s1 s2 ∧ ¬ Q s1 ∧ Q s2 := by
  induction calls generalizing start with
  | nil =>
    cases hrun
    exact absurd hs hstart
  | cons c calls ih =>
    obtain ⟨s1, hs1, hrun⟩ := run_cons.mp hrun
    by_cases hq : Q s1
    · exact ⟨c, start, s1, ⟨[], calls, rfl, rfl, hs1, hrun⟩, hstart, hq⟩
    · obtain ⟨c', s2, s3, ⟨pre, post, rfl, hpre, hc, hpost⟩, h2, h3⟩ := ih hrun hq
      exact ⟨c', s2, s3, ⟨c :: pre, post, rfl, run_cons.mpr ⟨s1, hs1, hpre⟩, hc, hpost⟩, h2, h3⟩

end Runs

end Fixups
