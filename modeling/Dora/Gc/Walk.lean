import Dora.Gc.Object

/-!
# Walking a region

Collectors walk a region from object to object (`walk_region` of `dora/src/gc/swiper.rs`). A null
word is a filler of one word; gaps are filled with objects that nothing refers to (`fill_region` of
`dora/src/gc.rs`).

## Main definitions

* `WalkStep`, `Iterable`: a step, and a region that is walked from its start to its end
* `Inert`: no object of the region looks marked or forwarded

## Main results

* `walkStep_fillRegion`: a filled gap is passed in one step
* `inert_fillRegion_iff`: when a filler is inert
-/

namespace Dora.Gc

open Function (update update_of_ne update_self)

variable {classes : Classes} {m m' : Memory} {x y : ℕ}

/-- One step of a walk from `x` to `y`, over a filler word or a well-formed object. -/
def WalkStep (classes : Classes) (m : Memory) (x y : ℕ) : Prop :=
  (m x = 0 ∧ y = x + ptrWidth) ∨
    (m x ≠ 0 ∧ 8 ∣ m x ∧ (classes (m x)).WellFormed ∧ y = x + size classes m x)

instance (classes : Classes) (m : Memory) (x y : ℕ) : Decidable (WalkStep classes m x y) :=
  inferInstanceAs (Decidable (_ ∨ _))

/-- The region is walked from its start to its end. -/
def Iterable (classes : Classes) (m : Memory) (start stop : ℕ) : Prop :=
  Relation.ReflTransGen (WalkStep classes m) start stop

/-- The vtables of the objects that fill gaps. -/
structure Fillers where
  freeObject : ℕ
  freeArray : ℕ

/-- The vtables are those that `create_special_classes` makes. -/
structure Fillers.WellFormed (fillers : Fillers) (classes : Classes) : Prop where
  freeObject_pos : fillers.freeObject ≠ 0
  freeObject_aligned : 8 ∣ fillers.freeObject
  freeObject : classes fillers.freeObject = ⟨.fixed headerSize, []⟩
  freeArray_pos : fillers.freeArray ≠ 0
  freeArray_aligned : 8 ∣ fillers.freeArray
  freeArray : classes fillers.freeArray = ⟨.freeArray, []⟩

def fillRegion (fillers : Fillers) (m : Memory) (start stop : ℕ) : Memory :=
  if start = stop then m
  else if stop - start = ptrWidth then update m start 0
  else if stop - start = headerSize then update m start fillers.freeObject
  else
    let length := (stop - (start + arrayHeaderSize)) / ptrWidth
    update
      (update (update m start fillers.freeArray) (start + ptrWidth) 0)
      (start + headerSize) length

/-- **A step** depends on the vtable word, and on the length if there is one. -/
theorem WalkStep.congr (h : WalkStep classes m x y) (hvtbl : m' x = m x)
    (hlength : m x ≠ 0 → 16 < size classes m x → 16 ∉ offsets classes m x →
      m' (x + 16) = m (x + 16)) : WalkStep classes m' x y := by
  rcases h with ⟨hzero, hy⟩ | ⟨hne, halign, hwf, hy⟩
  · exact .inl ⟨hvtbl.trans hzero, hy⟩
  · refine .inr ⟨hvtbl ▸ hne, hvtbl ▸ halign, hvtbl ▸ hwf, ?_⟩
    rw [hy, (layout_eq hwf hvtbl (hlength hne)).1]

theorem WalkStep.offsets_congr (h : WalkStep classes m x y) (hne : m x ≠ 0) (hvtbl : m' x = m x)
    (hlength : 16 < size classes m x → 16 ∉ offsets classes m x → m' (x + 16) = m (x + 16)) :
    offsets classes m' x = offsets classes m x := by
  rcases h with ⟨hzero, -⟩ | ⟨-, -, hwf, -⟩
  · exact absurd hzero hne
  · unfold offsets
    rw [hvtbl]
    exact (ClassInstance.layout_congr hwf hlength).2

theorem WalkStep.unique {z : ℕ} (h : WalkStep classes m x y) (h' : WalkStep classes m x z) :
    y = z := by
  rcases h with ⟨hzero, hy⟩ | ⟨hne, -, -, hy⟩ <;> rcases h' with ⟨hzero', hz⟩ | ⟨hne', -, -, hz⟩
  · exact hy.trans hz.symm
  · exact absurd hzero hne'
  · exact absurd hzero' hne
  · exact hy.trans hz.symm

theorem WalkStep.lt (h : WalkStep classes m x y) : x < y := by
  rcases h with ⟨-, hy⟩ | ⟨-, -, hwf, hy⟩
  · rw [hy]
    exact Nat.lt_add_of_pos_right (by decide)
  · have hpos := (ClassInstance.objectSize_bounds hwf (arrayLength m x)).2
    rw [hy, size_eq]
    omega

theorem fillRegion_outside {fillers : Fillers} {start stop a : ℕ} (hle : start ≤ stop)
    (hdvd : 8 ∣ stop - start) (ha : a < start ∨ stop ≤ a) :
    fillRegion fillers m start stop a = m a := by
  unfold fillRegion
  split_ifs with hempty hword hheader
  · rfl
  · exact update_of_ne (by unfold ptrWidth at hword; omega) ..
  · exact update_of_ne (by unfold headerSize at hheader; omega) ..
  · simp only [ptrWidth, headerSize] at hword hheader ⊢
    rw [update_of_ne (by omega), update_of_ne (by omega), update_of_ne (by omega)]

/-- **A gap that is filled** is passed in one step. -/
theorem walkStep_fillRegion {fillers : Fillers} (hfillers : fillers.WellFormed classes)
    {start stop : ℕ} (hlt : start < stop) (hdvd : 8 ∣ stop - start) :
    WalkStep classes (fillRegion fillers m start stop) start stop := by
  unfold fillRegion
  rw [if_neg hlt.ne]
  split_ifs with hword hheader
  · refine .inl ⟨update_self .., ?_⟩
    omega
  · refine .inr ?_
    rw [update_self, hfillers.freeObject]
    refine ⟨hfillers.freeObject_pos, hfillers.freeObject_aligned, by decide, ?_⟩
    rw [size_eq, update_self, hfillers.freeObject, ClassInstance.objectSize_fixed rfl le_rfl]
    unfold headerSize at hheader
    omega
  · simp only [ptrWidth, headerSize, arrayHeaderSize] at hword hheader ⊢
    have hvtbl : update (update (update m start fillers.freeArray)
        (start + 8) 0) (start + 16) ((stop - (start + (16 + 8))) / 8) start =
          fillers.freeArray := by
      rw [update_of_ne (by omega), update_of_ne (by omega), update_self]
    refine .inr ?_
    rw [hvtbl, hfillers.freeArray]
    refine ⟨hfillers.freeArray_pos, hfillers.freeArray_aligned, by decide, ?_⟩
    rw [size_eq, hvtbl, hfillers.freeArray, ClassInstance.objectSize_array rfl, arrayLength,
      headerSize, update_self]
    simp only [InstanceSize.elementSize, Option.getD_some, ptrWidth]
    omega

/-- **Inert**: the region is walked to its end, and no object on the way looks marked or forwarded
to a collector. -/
def Inert (classes : Classes) (m : Memory) (start stop : ℕ) : Prop :=
  Iterable classes m start stop ∧ ∀ x, Iterable classes m start x → x < stop → m x ≠ 0 →
    isMarkedNonAtomic m x = false ∧ vtblptrForwarded m x = none

theorem Iterable.le (h : Iterable classes m x y) : x ≤ y := by
  induction h with
  | refl => exact le_rfl
  | tail _ hstep ih => exact ih.trans hstep.lt.le

/-- A region of one step is inert when the object at its start is. -/
theorem WalkStep.inert_iff (h : WalkStep classes m x y) :
    Inert classes m x y ↔ (m x ≠ 0 → isMarkedNonAtomic m x = false) := by
  refine ⟨fun hinert hne => (hinert.2 x .refl h.lt hne).1, ?_⟩
  intro hmark
  refine ⟨.single h, ?_⟩
  intro z hz hlt hne
  -- a walk that leaves the start passes the whole region
  rcases hz.cases_head with rfl | ⟨w, hstep, hwalk⟩
  · rcases h with ⟨hzero, -⟩ | ⟨-, hdvd, -, -⟩
    · exact absurd hzero hne
    · exact ⟨hmark hne, vtblptrForwarded_of_even (dvd_trans (by decide) hdvd)⟩
  · cases h.unique hstep
    exact absurd (Iterable.le hwalk) (by omega)

/-- **Fillers are inert** unless the region is one header that was left with mark bits: such a
filler gets a vtable only. -/
theorem inert_fillRegion_iff {fillers : Fillers} (hfillers : fillers.WellFormed classes)
    {start stop : ℕ} (hle : start ≤ stop) (hdvd : 8 ∣ stop - start) :
    Inert classes (fillRegion fillers m start stop) start stop ↔
      (stop - start = headerSize → isMarkedNonAtomic m start = false) := by
  rcases hle.eq_or_lt with rfl | hlt
  · refine iff_of_true ⟨.refl, fun z hz hlt => absurd (Iterable.le hz) (by omega)⟩ ?_
    intro hsize
    exact absurd hsize (by simp [headerSize])
  rw [(walkStep_fillRegion hfillers hlt hdvd).inert_iff]
  unfold fillRegion
  rw [if_neg hlt.ne]
  split_ifs with hword hheader
  · simp [hword, ptrWidth, headerSize]
  · -- the word with the mark bits keeps what it held
    have hkeep : isMarkedNonAtomic (update m start fillers.freeObject) start =
        isMarkedNonAtomic m start := by
      simp [isMarkedNonAtomic, fwdptr, ptrWidth]
    rw [update_self, hkeep]
    exact ⟨fun h _ => h hfillers.freeObject_pos, fun h _ => h hheader⟩
  · refine iff_of_true (fun _ => ?_) (absurd · hheader)
    simp [isMarkedNonAtomic, fwdptr, ptrWidth, headerSize]

/-- Classes of the two fillers, at vtables 8 and 16. -/
def fillerClasses : Classes := fun a => if a = 8 then ⟨.fixed headerSize, []⟩ else ⟨.freeArray, []⟩

theorem fillers_wellFormed : Fillers.WellFormed ⟨8, 16⟩ fillerClasses := by
  constructor <;> decide

/-- Two words that held addresses: the low bits of the word that is kept are zero. -/
theorem inert_fillRegion_clean :
    Inert fillerClasses (fillRegion ⟨8, 16⟩ (fun _ => 4096) 32 48) 32 48 :=
  (inert_fillRegion_iff fillers_wellFormed (by decide) (by decide)).mpr fun _ => by decide

/-- Two words that held ones: the filler looks marked. -/
theorem not_inert_fillRegion :
    ¬ Inert fillerClasses (fillRegion ⟨8, 16⟩ (fun _ => 1) 32 48) 32 48 := by
  intro h
  have hfilled : fillRegion ⟨8, 16⟩ (fun _ => 1) 32 48 32 = 8 := by decide
  exact absurd (h.2 32 .refl (by decide) (by rw [hfilled]; decide)).1 (by decide)

end Dora.Gc
