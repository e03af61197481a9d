import Dora.Gc.Controller

/-!
# Allocation in the old generation

In `OldGen` of `dora/src/gc/swiper/old.rs` objects are allocated at the top of one of several
regions. If none has room, the heap configuration is asked for more, and a region is extended.

## Main results

* `OldGen.alloc_spec`: `alloc` allocates at the top of a region, or changes no top
-/

namespace Dora.Gc

open Function

/-- A region: its bounds, those of its mapping, the end of what is allocated and the end of what is
mapped. -/
structure OldGenRegion where
  total : Region
  totalMapping : Region
  top : ℕ
  mappingTop : ℕ
deriving DecidableEq

namespace OldGenRegion

def pureAlloc (r : OldGenRegion) (size : ℕ) : Option (ℕ × OldGenRegion) :=
  if r.top + size ≤ min r.mappingTop r.total.stop then some (r.top, { r with top := r.top + size })
  else none

def extend (r : OldGenRegion) (size : ℕ) : Option OldGenRegion :=
  if r.mappingTop + size ≤ r.totalMapping.stop then
    some { r with mappingTop := r.mappingTop + size }
  else none

end OldGenRegion

/-- `OldGenProtected`, with the heap configuration that `alloc` asks. -/
structure OldGen (n : ℕ) where
  size : ℕ
  regions : Fin n → OldGenRegion
  allocRegion : Fin n
  config : HeapConfig

namespace OldGen

variable {n : ℕ}

/-- The first region that `f` succeeds on, the current one before the others. -/
def tryRegions {α : Type} (old : OldGen n) (f : OldGenRegion → Option (α × OldGenRegion)) :
    Option (α × OldGen n) :=
  match f (old.regions old.allocRegion) with
  | some (a, r) => some (a, { old with regions := Function.update old.regions old.allocRegion r })
  | none =>
    (List.finRange n).findSome? fun idx =>
      (f (old.regions idx)).map fun (a, r) =>
        (a, { old with regions := Function.update old.regions idx r, allocRegion := idx })

def pureAlloc (old : OldGen n) (size : ℕ) : Option (ℕ × OldGen n) :=
  old.tryRegions fun r => r.pureAlloc size

def extend (old : OldGen n) (size : ℕ) : Option (OldGen n) :=
  (old.tryRegions fun r => (r.extend size).map ((), ·)).map fun p =>
    { p.2 with size := p.2.size + size }

/-- The address, or nothing if there is no room. -/
def alloc (old : OldGen n) (size : ℕ) : Option ℕ × OldGen n :=
  match old.pureAlloc size with
  | some (addr, old) => (some addr, old)
  | none =>
    let (config, grown) := old.config.growOld genSize
    let old := { old with config }
    if grown then
      match old.extend genSize with
      | none => (none, old)
      | some old =>
        match old.pureAlloc size with
        | some (addr, old) => (some addr, old)
        | none => (none, old)
    else (none, old)

/-- The region from its start to its top. -/
def span (old : OldGen n) (i : Fin n) : ℕ × ℕ := ((old.regions i).total.start, (old.regions i).top)

/-- The regions have the same bounds and tops. -/
def Same (old old' : OldGen n) : Prop :=
  ∀ i, (old'.regions i).total = (old.regions i).total ∧ (old'.regions i).top = (old.regions i).top

/-- **An allocation**: the address is the top of a region, which moves on by the size. -/
structure Allocates (old old' : OldGen n) (size addr : ℕ) (i : Fin n) : Prop where
  total : ∀ j, (old'.regions j).total = (old.regions j).total
  addr_eq : addr = (old.regions i).top
  top : (old'.regions i).top = addr + size
  top_le : addr + size ≤ (old.regions i).total.stop
  others : ∀ j, j ≠ i → (old'.regions j).top = (old.regions j).top

variable {old old' : OldGen n} {size addr : ℕ} {i : Fin n}

/-- The region that `tryRegions` changes. -/
theorem tryRegions_spec {α : Type} {f : OldGenRegion → Option (α × OldGenRegion)} {a : α}
    (h : old.tryRegions f = some (a, old')) :
    ∃ i r j, f (old.regions i) = some (a, r) ∧
      old' = { old with regions := Function.update old.regions i r, allocRegion := j } := by
  unfold tryRegions at h
  split at h
  next a' r hf =>
    cases h
    exact ⟨_, r, _, hf, rfl⟩
  next =>
    obtain ⟨i, -, hi⟩ := List.exists_of_findSome?_eq_some h
    obtain ⟨⟨a', r⟩, hf, heq⟩ := Option.map_eq_some_iff.mp hi
    obtain ⟨rfl, rfl⟩ := Prod.mk.inj heq
    exact ⟨i, r, _, hf, rfl⟩

theorem pureAlloc_spec (h : old.pureAlloc size = some (addr, old')) :
    ∃ i, old.Allocates old' size addr i := by
  obtain ⟨i, r, -, hf, rfl⟩ := tryRegions_spec h
  unfold OldGenRegion.pureAlloc at hf
  split at hf
  next hle =>
    cases hf
    refine ⟨i, fun j => ?_, rfl, ?_, hle.trans (min_le_right _ _), fun j hj => ?_⟩
    · by_cases hj : j = i
      · simp only [hj, update_self]
      · simp only [update_of_ne hj]
    · simp only [update_self]
    · simp only [update_of_ne hj]
  next => cases hf

theorem extend_spec (h : old.extend size = some old') : old.Same old' := by
  obtain ⟨⟨u, grown⟩, htry, rfl⟩ := Option.map_eq_some_iff.mp h
  obtain ⟨i, r, -, hf, rfl⟩ := tryRegions_spec htry
  obtain ⟨r', hr', heq⟩ := Option.map_eq_some_iff.mp hf
  obtain rfl := (Prod.mk.inj heq).2
  unfold OldGenRegion.extend at hr'
  split at hr'
  next =>
    cases hr'
    intro j
    by_cases hj : j = i
    · simp only [hj, update_self, and_self]
    · simp only [update_of_ne hj, and_self]
  next => cases hr'

/-- **`alloc`** allocates at the top of a region, or leaves the tops as they are. -/
theorem alloc_spec (old : OldGen n) (size : ℕ) :
    (∃ addr i, (old.alloc size).1 = some addr ∧ old.Allocates (old.alloc size).2 size addr i) ∨
      (old.alloc size).1 = none ∧ old.Same (old.alloc size).2 := by
  unfold alloc
  cases hfirst : old.pureAlloc size with
  | some p =>
    obtain ⟨i, hi⟩ := pureAlloc_spec hfirst
    exact .inl ⟨p.1, i, rfl, hi⟩
  | none =>
    dsimp only
    cases hgrow : (old.config.growOld genSize).2 with
    | false => exact .inr ⟨rfl, fun _ => ⟨rfl, rfl⟩⟩
    | true =>
      rw [if_pos rfl]
      split
      next => exact .inr ⟨rfl, fun _ => ⟨rfl, rfl⟩⟩
      next grown hextend =>
        have hsame := extend_spec hextend
        split
        next addr old' halloc =>
          -- the extended regions have the bounds and tops of the old ones
          obtain ⟨i, hi⟩ := pureAlloc_spec halloc
          refine .inl ⟨addr, i, rfl, ?_, ?_, hi.top, ?_, ?_⟩
          · exact fun j => (hi.total j).trans (hsame j).1
          · exact hi.addr_eq.trans (hsame i).2
          · exact hi.top_le.trans (by rw [(hsame i).1])
          · exact fun j hj => (hi.others j hj).trans (hsame j).2
        next => exact .inr ⟨rfl, fun j => ⟨(hsame j).1, (hsame j).2⟩⟩

end OldGen

end Dora.Gc
