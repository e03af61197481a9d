import Dora.Gc.ParallelMinor
import Dora.Lib.Territory

/-!
# Allocation by the tasks of a minor collection

To-space and the old generation are a territory: what lies below a top is a copy or a filler, or is
reserved for a task, in one of its buffers or for a copy of medium size.

## Main results

* `fillLab_spec`: the rest of a buffer becomes a filler
* `allocSmall_spec`, `allocMedium_spec`, `allocObject_spec`: what allocation reserves
-/

namespace Dora.Gc

open Function (update update_eq_self update_eq_self_iff update_idem update_of_ne update_self)
open Option

variable {n : ℕ} {E : MinorHeap}

namespace Tops

/-- To-space, or a region of the old generation, up to its top. -/
def space (E : MinorHeap) (tops : Tops n) : Option (Fin n) → ℕ × ℕ
  | none => (E.toSpace.start, tops.youngTop)
  | some i => tops.old.span i

/-- The same up to the end. -/
def bounds (E : MinorHeap) (tops : Tops n) : Option (Fin n) → ℕ × ℕ
  | none => (E.toSpace.start, E.toSpace.stop)
  | some i => ((tops.old.regions i).total.start, (tops.old.regions i).total.stop)

/-- The spaces do not overlap, and tops are inside and aligned. -/
structure Valid (E : MinorHeap) (tops : Tops n) : Prop where
  apart : ∀ a b, a ≠ b → SpanApart (tops.bounds E a) (tops.bounds E b)
  start_le : ∀ a, (tops.space E a).1 ≤ (tops.space E a).2
  le_stop : ∀ a, (tops.space E a).2 ≤ (tops.bounds E a).2
  aligned : ∀ a, 8 ∣ (tops.space E a).2

theorem space_fst (E : MinorHeap) (tops : Tops n) (a : Option (Fin n)) :
    (tops.space E a).1 = (tops.bounds E a).1 := by
  cases a <;> rfl

end Tops

/-- **Memory at the top of a space**, which moves on. -/
structure Bumps (E : MinorHeap) (tops tops' : Tops n) (size addr : ℕ) (a : Option (Fin n)) :
    Prop where
  addr_eq : addr = (tops.space E a).2
  space : tops'.space E = update (tops.space E) a ((tops.space E a).1, addr + size)
  bounds : tops'.bounds E = tops.bounds E
  le_stop : addr + size ≤ (tops.bounds E a).2

/-- Memory is taken from the top of a space, if at all. -/
def BumpSpec (E : MinorHeap) (bump : Tops n → ℕ → Option ℕ × Tops n) : Prop :=
  ∀ tops size,
    (∃ addr a, (bump tops size).1 = some addr ∧ Bumps E tops (bump tops size).2 size addr a) ∨
      (bump tops size).1 = none ∧ (bump tops size).2.space E = tops.space E ∧
        (bump tops size).2.bounds E = tops.bounds E

theorem bumpYoung_spec : BumpSpec E (Tops.bumpYoung (n := n) E) := by
  intro tops size
  unfold Tops.bumpYoung
  by_cases hle : tops.youngTop + size ≤ E.toSpace.stop
  · rw [if_pos hle]
    refine .inl ⟨tops.youngTop, none, rfl, rfl, ?_, ?_, hle⟩
    · funext a
      cases a with
      | none => rw [update_self]; rfl
      | some i => rw [update_of_ne (by simp)]; rfl
    · funext a
      cases a <;> rfl
  · rw [if_neg hle]
    exact .inr ⟨rfl, rfl, rfl⟩

theorem bumpOld_spec : BumpSpec E (Tops.bumpOld (n := n)) := by
  intro tops size
  have hspace (j : Fin n) : (tops.bumpOld size).2.space E (some j) =
    (((tops.old.alloc size).2.regions j).total.start,
      ((tops.old.alloc size).2.regions j).top) := rfl
  have hbounds (j : Fin n) : (tops.bumpOld size).2.bounds E (some j) =
    (((tops.old.alloc size).2.regions j).total.start,
      ((tops.old.alloc size).2.regions j).total.stop) := rfl
  rcases tops.old.alloc_spec size with ⟨addr, i, hsome, halloc⟩ | ⟨hnone, hsame⟩
  · refine .inl ⟨addr, some i, hsome, halloc.addr_eq, ?_, ?_, halloc.top_le⟩
    · funext a
      cases a with
      | none => rw [update_of_ne (by simp)]; rfl
      | some j =>
        by_cases hj : j = i
        · rw [hspace, hj, update_self, halloc.total, halloc.top]
          rfl
        · rw [hspace, update_of_ne (by simpa using hj), halloc.total, halloc.others j hj]
          rfl
    · funext a
      cases a with
      | none => rfl
      | some j =>
        rw [hbounds, halloc.total]
        rfl
  · refine .inr ⟨hnone, funext fun a => ?_, funext fun a => ?_⟩
    · cases a with
      | none => rfl
      | some j =>
        rw [hspace, (hsame j).1, (hsame j).2]
        rfl
    · cases a with
      | none => rfl
      | some j =>
        rw [hbounds, (hsame j).1]
        rfl

section Bumping

variable {tops tops' : Tops n} {size addr : ℕ} {a : Option (Fin n)}

theorem Bumps.valid (h : Bumps E tops tops' size addr a) (htops : tops.Valid E) (hsize : 8 ∣ size) :
    tops'.Valid E ∧ 8 ∣ addr := by
  have hdvd : 8 ∣ addr := h.addr_eq ▸ htops.aligned a
  refine ⟨⟨h.bounds ▸ htops.apart, fun b => ?_, fun b => ?_, fun b => ?_⟩, hdvd⟩
  · rw [h.space]
    by_cases hb : b = a
    · have hle := htops.start_le a
      rw [hb, update_self]
      exact hle.trans (h.addr_eq ▸ Nat.le_add_right _ _)
    · rw [update_of_ne hb]
      exact htops.start_le b
  · rw [h.space, h.bounds]
    by_cases hb : b = a
    · rw [hb, update_self]
      exact h.le_stop
    · rw [update_of_ne hb]
      exact htops.le_stop b
  · rw [h.space]
    by_cases hb : b = a
    · rw [hb, update_self]
      exact Nat.dvd_add hdvd hsize
    · rw [update_of_ne hb]
      exact htops.aligned b

theorem Bumps.tight {η : Type} [DecidableEq η] {hole : η → ℕ × ℕ} {blocks : Set (ℕ × ℕ)}
    (h : Bumps E tops tops' size addr a) (htops : tops.Valid E)
    (htight : Territory.Tight ⟨tops.space E, hole, blocks⟩) {k : η} (hk : (hole k).2 ≤ (hole k).1) :
    Territory.Tight ⟨tops'.space E, update hole k (addr, addr + size), blocks⟩ := by
  have hstart := htops.start_le a
  have hspace : tops.space E a = ((tops.space E a).1, addr) := Prod.ext rfl h.addr_eq.symm
  have hgrow := htight.grow (n := size) hspace (h.addr_eq ▸ hstart) hk fun b hb => ?_
  · rw [h.space]
    exact hgrow
  · -- the space ends before the bounds of the other one begin
    have hapart := htops.apart b a hb
    have hle := htops.le_stop b
    have hfst := tops.space_fst E a
    have hfst' := tops.space_fst E b
    have hstop := h.le_stop
    unfold SpanApart at hapart ⊢
    dsimp only
    omega

end Bumping

/-- A buffer with aligned bounds. -/
structure Lab.Valid (lab : Lab) : Prop where
  top_aligned : 8 ∣ lab.top
  limit_aligned : 8 ∣ lab.limit
  le : lab.top ≤ lab.limit

theorem Lab.valid_new : Lab.new.Valid := ⟨⟨0, rfl⟩, ⟨0, rfl⟩, le_rfl⟩

/-- **Making a buffer iterable**: the rest of it is a filler. -/
theorem fillLab_spec {σ η : Type} [DecidableEq η] {T : Territory σ η} {lab : Lab} {k : η}
    {m : Memory} (hfillers : E.fillers.WellFormed E.classes) (htight : T.Tight) (hlab : lab.Valid)
    (hk : T.hole k = (lab.top, lab.limit)) :
    ∃ blocks, T.blocks ⊆ blocks ∧ Territory.Tight { T.setHole k (0, 0) with blocks } ∧
      (∀ b ∈ blocks, b ∉ T.blocks → b = (lab.top, lab.limit) ∧
        WalkStep E.classes (fillRegion E.fillers m lab.top lab.limit) b.1 b.2) ∧
      ∀ x, x < lab.top ∨ lab.limit ≤ x → fillRegion E.fillers m lab.top lab.limit x = m x := by
  have hdvd : 8 ∣ lab.limit - lab.top := Nat.dvd_sub hlab.limit_aligned hlab.top_aligned
  have houtside : ∀ x, x < lab.top ∨ lab.limit ≤ x →
      fillRegion E.fillers m lab.top lab.limit x = m x := fun x hx =>
    fillRegion_outside hlab.le hdvd hx
  rcases hlab.le.eq_or_lt with heq | hlt
  · refine ⟨T.blocks, subset_rfl, ?_, fun b hb hnot => absurd hb hnot, houtside⟩
    exact htight.reset (by rw [hk]; exact heq.ge)
  · have hcarve := htight.carve hk hlt le_rfl
    refine ⟨insert (lab.top, lab.limit) T.blocks, Set.subset_insert _ _, ?_, ?_, houtside⟩
    · have hreset := hcarve.reset (k := k) (by simp [Territory.setHole])
      simpa [Territory.setHole] using hreset
    · rintro b (rfl | hb) hnot
      · exact ⟨rfl, walkStep_fillRegion hfillers hlt hdvd⟩
      · exact absurd hb hnot

/-- **An allocation** by a task whose buffer is the hole `k`: other memory is not written, fillers
are walked over, and the memory is reserved in the hole `k` or `medium`. -/
structure Allocated {η : Type} [DecidableEq η] (E : MinorHeap) (hole : η → ℕ × ℕ)
    (blocks : Set (ℕ × ℕ)) (k medium : η) (st st' : Allocation n) (size : ℕ) (addr : Option ℕ) :
    Prop where
  territory : ∃ blocks', blocks ⊆ blocks' ∧
    (∀ b ∈ blocks', b ∉ blocks → b = (st.lab.top, st.lab.limit) ∧
      WalkStep E.classes st'.memory b.1 b.2) ∧
    Territory.Tight ⟨st'.tops.space E, update (update hole k
        (st'.lab.top - (if addr.isSome ∧ size < clabObjectSize then size else 0), st'.lab.limit))
        medium (addr.elim (0, 0) fun addr =>
          if size < clabObjectSize then (0, 0) else (addr, addr + size)), blocks'⟩
  memory : ∀ x, x < st.lab.top ∨ st.lab.limit ≤ x → st'.memory x = st.memory x
  tops : st'.tops.Valid E
  bounds : st'.tops.bounds E = st.tops.bounds E
  lab : st'.lab.Valid
  dest : ∀ a ∈ addr, 8 ∣ a ∧ (size < clabObjectSize → a + size = st'.lab.top)

section Allocating

variable {η : Type} [DecidableEq η] {hole : η → ℕ × ℕ} {blocks : Set (ℕ × ℕ)} {k medium : η}
  {st : Allocation n} {size : ℕ} {bump : Tops n → ℕ → Option ℕ × Tops n}

variable {st' : Allocation n} {blocks' : Set (ℕ × ℕ)}

theorem allocated_of_lab {addr : ℕ} {lab : Lab}
    (hne : medium ≠ k) (hmedium : hole medium = (0, 0)) (hsize : 8 ∣ size)
    (hsmall : size < clabObjectSize) (hsub : blocks ⊆ blocks')
    (hnew : ∀ b ∈ blocks', b ∉ blocks → b = (st.lab.top, st.lab.limit) ∧
      WalkStep E.classes st'.memory b.1 b.2)
    (htight : Territory.Tight ⟨st'.tops.space E, update hole k (lab.top, lab.limit), blocks'⟩)
    (hmemory : ∀ x, x < st.lab.top ∨ st.lab.limit ≤ x → st'.memory x = st.memory x)
    (htops : st'.tops.Valid E) (hbounds : st'.tops.bounds E = st.tops.bounds E) (hlab : lab.Valid)
    (halloc : lab.alloc size = some (addr, st'.lab)) :
    Allocated E hole blocks k medium st st' size (some addr) := by
  unfold Lab.alloc at halloc
  split at halloc
  next hle =>
    obtain ⟨rfl, hst⟩ := Prod.mk.inj (Option.some.inj halloc)
    refine ⟨⟨blocks', hsub, hnew, ?_⟩, hmemory, htops, hbounds, ?_, ?_⟩
    · -- the hole of the buffer begins with what was allocated
      rw [← hst]
      simp only [isSome_some, hsmall, and_self, if_true]
      rw [Nat.add_sub_cancel]
      rwa [update_eq_self_iff.mpr ((update_of_ne hne ..).trans hmedium).symm]
    · rw [← hst]
      exact ⟨Nat.dvd_add hlab.top_aligned hsize, hlab.limit_aligned, hle⟩
    · rintro a ha
      cases ha
      rw [← hst]
      exact ⟨hlab.top_aligned, fun _ => rfl⟩
  next => cases halloc

/-- A new buffer has room for a small object. -/
theorem Lab.alloc_new (hsmall : size < clabObjectSize) (start : ℕ) :
    (⟨start, start + clabSize⟩ : Lab).alloc size =
      some (start, ⟨start + size, start + clabSize⟩) := by
  have hclab : clabObjectSize ≤ clabSize := by decide
  exact if_pos (by dsimp only; omega)

/-- A generation that has failed is not tried again, and it has failed if there is no memory. -/
theorem allocObject_failed {fillers : Fillers} {addr : Option ℕ}
    (halloc : allocObject fillers bump st size = (addr, st')) (h : st.failed = true ∨ addr = none) :
    st'.failed = true := by
  obtain ⟨rfl, rfl⟩ := Prod.ext_iff.mp halloc
  unfold allocObject at h ⊢
  by_cases hsmall : size < clabObjectSize
  · rw [if_pos hsmall] at h ⊢
    unfold allocSmall at h ⊢
    cases hfirst : st.lab.alloc size with
    | some p =>
      rw [hfirst] at h
      exact h.resolve_right (by simp)
    | none =>
      rw [hfirst] at h
      by_cases hfailed : st.failed = true
      · simp only [hfailed, if_true]
      · simp only [hfailed, Bool.false_eq_true, false_or] at h ⊢
        rcases hbump : bump st.tops clabSize with ⟨_ | start, tops⟩
        · rfl
        · rw [hbump] at h
          simp only [Lab.alloc_new hsmall] at h
          cases h
  · rw [if_neg hsmall] at h ⊢
    unfold allocMedium at h ⊢
    by_cases hfailed : st.failed = true
    · simp only [hfailed, if_true]
    · simp only [hfailed, Bool.false_eq_true, false_or] at h ⊢
      rcases hbump : bump st.tops size with ⟨_ | start, tops⟩
      · rfl
      · rw [hbump] at h
        cases h

theorem allocated_none (hne : medium ≠ k)
    (hmedium : hole medium = (0, 0)) (htops : st.tops.Valid E) (hsub : blocks ⊆ blocks')
    (hnew : ∀ b ∈ blocks', b ∉ blocks → b = (st.lab.top, st.lab.limit) ∧
      WalkStep E.classes st'.memory b.1 b.2)
    (htight : Territory.Tight
      ⟨st.tops.space E, update hole k (st'.lab.top, st'.lab.limit), blocks'⟩)
    (hmemory : ∀ x, x < st.lab.top ∨ st.lab.limit ≤ x → st'.memory x = st.memory x)
    (hspace : st'.tops.space E = st.tops.space E)
    (hbounds : st'.tops.bounds E = st.tops.bounds E) (hlab : st'.lab.Valid) :
    Allocated E hole blocks k medium st st' size none := by
  refine ⟨⟨blocks', hsub, hnew, ?_⟩, hmemory, ?_, hbounds, hlab, by simp⟩
  · simp only [hspace]
    rwa [update_eq_self_iff.mpr ((update_of_ne hne ..).trans hmedium).symm]
  · exact ⟨hbounds ▸ htops.apart, hspace ▸ htops.start_le, hspace ▸ hbounds ▸ htops.le_stop,
      hspace ▸ htops.aligned⟩

variable (hbump : BumpSpec E bump) (htight : Territory.Tight ⟨st.tops.space E, hole, blocks⟩)
  (htops : st.tops.Valid E) (hlab : st.lab.Valid) (hk : hole k = (st.lab.top, st.lab.limit))
  (hne : medium ≠ k) (hmedium : hole medium = (0, 0)) (hsize : 8 ∣ size)

include hbump htight htops hlab hk hne hmedium hsize

/-- **`alloc_young_small`, `alloc_old_small`**. -/
theorem allocSmall_spec (hfillers : E.fillers.WellFormed E.classes)
    (hsmall : size < clabObjectSize) :
    Allocated E hole blocks k medium st (allocSmall E.fillers bump st size).2 size
      (allocSmall E.fillers bump st size).1 := by
  have hsame : update hole k (st.lab.top, st.lab.limit) = hole := by
    rw [← hk, update_eq_self]
  unfold allocSmall
  cases hfirst : st.lab.alloc size with
  | some p =>
    exact allocated_of_lab hne hmedium hsize hsmall subset_rfl (fun b hb hnot => absurd hb hnot)
      (by rwa [hsame]) (fun _ _ => rfl) htops rfl hlab hfirst
  | none =>
    by_cases hfailed : st.failed = true
    · simp only [hfailed, if_true]
      exact allocated_none hne hmedium htops subset_rfl (fun b hb hnot => absurd hb hnot)
        (by rwa [hsame]) (fun _ _ => rfl) rfl rfl hlab
    · simp only [hfailed, Bool.false_eq_true, if_false]
      -- the rest of the buffer is filled
      obtain ⟨blocks', hsub, hfilled, hnew, hmemory⟩ := fillLab_spec hfillers htight hlab hk
      rcases hbump st.tops clabSize with ⟨start, a, hsome, hbumps⟩ | ⟨hnone, hspace, hbounds⟩
      · obtain ⟨htops', hstart⟩ := hbumps.valid htops (by decide)
        have hnewLab : (⟨start, start + clabSize⟩ : Lab).Valid :=
          ⟨hstart, Nat.dvd_add hstart (by decide), Nat.le_add_right _ _⟩
        have hgrown := hbumps.tight htops hfilled (k := k) (by simp [Territory.setHole])
        simp only [Territory.setHole, update_idem] at hgrown
        have hroom := Lab.alloc_new hsmall start
        have hbump' : bump st.tops clabSize = (some start, (bump st.tops clabSize).2) :=
          Prod.ext hsome rfl
        rw [hbump']
        simp only [hroom]
        exact allocated_of_lab hne hmedium hsize hsmall hsub hnew hgrown hmemory htops'
          hbumps.bounds hnewLab hroom
      · have hbump' : bump st.tops clabSize = (none, (bump st.tops clabSize).2) :=
          Prod.ext hnone rfl
        rw [hbump']
        exact allocated_none hne hmedium htops hsub hnew hfilled hmemory hspace hbounds
          Lab.valid_new

/-- **`alloc_young_medium`, `alloc_old_medium`**. -/
theorem allocMedium_spec (hlarge : ¬size < clabObjectSize) :
    Allocated E hole blocks k medium st (allocMedium bump st size).2 size
      (allocMedium bump st size).1 := by
  have hsame : update hole k (st.lab.top, st.lab.limit) = hole := by
    rw [← hk, update_eq_self]
  unfold allocMedium
  by_cases hfailed : st.failed = true
  · simp only [hfailed, if_true]
    exact allocated_none hne hmedium htops subset_rfl (fun b hb hnot => absurd hb hnot)
      (by rwa [hsame]) (fun _ _ => rfl) rfl rfl hlab
  · simp only [hfailed, Bool.false_eq_true, if_false]
    rcases hbump st.tops size with ⟨addr, a, hsome, hbumps⟩ | ⟨hnone, hspace, hbounds⟩
    · obtain ⟨htops', haddr⟩ := hbumps.valid htops hsize
      have hbump' : bump st.tops size = (some addr, (bump st.tops size).2) := Prod.ext hsome rfl
      rw [hbump']
      refine ⟨⟨blocks, subset_rfl, fun b hb hnot => absurd hb hnot, ?_⟩, fun _ _ => rfl, htops',
        hbumps.bounds, hlab, ?_⟩
      · simp only [hlarge, and_false, if_false, Nat.sub_zero]
        rw [hsame]
        exact hbumps.tight htops htight (by rw [hmedium])
      · rintro b hb
        cases hb
        exact ⟨haddr, fun hsmall => absurd hsmall hlarge⟩
    · have hbump' : bump st.tops size = (none, (bump st.tops size).2) := Prod.ext hnone rfl
      rw [hbump']
      exact allocated_none hne hmedium htops subset_rfl (fun b hb hnot => absurd hb hnot)
        (by rwa [hsame]) (fun _ _ => rfl) hspace hbounds hlab

/-- **`alloc_young`, `alloc_old`**. -/
theorem allocObject_spec (hfillers : E.fillers.WellFormed E.classes) :
    Allocated E hole blocks k medium st (allocObject E.fillers bump st size).2 size
      (allocObject E.fillers bump st size).1 := by
  unfold allocObject
  by_cases hsmall : size < clabObjectSize
  · rw [if_pos hsmall]
    exact allocSmall_spec hbump htight htops hlab hk hne hmedium hsize hfillers hsmall
  · rw [if_neg hsmall]
    exact allocMedium_spec hbump htight htops hlab hk hne hmedium hsize hsmall

end Allocating

end Dora.Gc
