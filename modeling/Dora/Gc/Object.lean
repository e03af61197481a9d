import Dora.Lib.Memory
import Mathlib.Data.Nat.Bitwise

/-!
# Objects on the heap

Headers and layouts, as `dora/src/object.rs`, `dora/src/size.rs` and `dora/src/vtable.rs` define
them. An object starts with the address of its vtable and a word for the forwarding address and mark
bits of the compacting collectors; arrays have their length behind that. The vtable leads to the
class instance, which says how large the object is and which of its words are references. Vtables
stand outside of the heap and are looked up in a parameter `classes`.

## Main definitions

* `ClassInstance`, `size`, `visitReferenceFields`: layouts, and what the collectors read off them

## Main results

* `ClassInstance.refOffsets_bounds`: reference fields lie inside the object
* `layout_eq`: a copy has the layout of its original
-/

namespace Dora.Gc

open List Function

variable {a : ℕ} {classes : Classes}

/-- The addresses from `start` up to `stop`, as `Region` of `dora/src/gc.rs`. -/
structure Region where
  start : ℕ
  stop : ℕ
deriving Repr, DecidableEq

namespace Region

variable {r : Region} {addr : ℕ}

def contains (r : Region) (addr : ℕ) : Bool := decide (r.start ≤ addr) && decide (addr < r.stop)

def size (r : Region) : ℕ := r.stop - r.start

theorem contains_iff : r.contains addr = true ↔ r.start ≤ addr ∧ addr < r.stop := by
  simp [contains]

theorem contains_eq_false_iff : r.contains addr = false ↔ addr < r.start ∨ r.stop ≤ addr := by
  rw [← Bool.not_eq_true, contains_iff]
  omega

end Region

/-- `mem::ptr_width`. -/
def ptrWidth : ℕ := 8

/-- `Header::size`: the vtable word and the forwarding word. -/
def headerSize : ℕ := 16

/-- `Header::array_size`: the header and the length. -/
def arrayHeaderSize : ℕ := headerSize + ptrWidth

/-- `mem::align_usize`. -/
def alignUsize (value align : ℕ) : ℕ :=
  if align = 0 then value else (value + align - 1) / align * align

/-- The kinds of layouts of `dora/src/size.rs`. -/
inductive InstanceSize
  | fixed (size : ℕ)
  | primitiveArray (elementSize : ℕ)
  | objArray
  | unitArray
  | structArray (elementSize : ℕ)
  | freeArray
  | codeObject
  | str
deriving Repr, DecidableEq

def InstanceSize.instanceSize : InstanceSize → Option ℕ
  | primitiveArray _ | objArray | str => none
  | fixed value => some value
  | freeArray | structArray _ => none
  | unitArray => some arrayHeaderSize
  | codeObject => none

def InstanceSize.elementSize : InstanceSize → Option ℕ
  | primitiveArray esize => some esize
  | objArray => some ptrWidth
  | str => some 1
  | fixed _ => none
  | freeArray => some ptrWidth
  | structArray esize => some esize
  | unitArray => none
  | codeObject => some ptrWidth

/-- What collectors read of a class instance: its layout, and the offsets of its references, in
the object or, for an array of structs, in an element. -/
structure ClassInstance where
  size : InstanceSize
  refFields : List ℕ
deriving Repr, DecidableEq

/-- What collectors read of a vtable. -/
structure VTable where
  classInstance : ClassInstance
  instanceSize : ℕ
  elementSize : ℕ

/-- The vtable of a class instance, as `create_class_instance_with_vtable` fills it: a missing
element size is the word of all ones. -/
def VTable.new (cls : ClassInstance) : VTable where
  classInstance := cls
  instanceSize := cls.size.instanceSize.getD 0
  elementSize := cls.size.elementSize.getD (2 ^ 64 - 1)

/-- The class instances that the vtables at the addresses belong to. -/
abbrev Classes := ℕ → ClassInstance

/-! ## Headers -/

/-- The bits of `value` that are not in `mask`, as `value & !mask`. -/
def clearBits (value mask : ℕ) : ℕ := value - (value &&& mask)

section Header

variable (m : Memory) (object : ℕ)

def vtblptr : ℕ := m object

def vtblptrForward (address : ℕ) : Memory := update m object (address ||| 1)

def vtblptrForwarded : Option ℕ :=
  let addr := m object
  if addr &&& 1 = 1 then some (clearBits addr 1) else none

/-- The `fwdptr` word of the header. -/
def fwdptr : ℕ := m (object + ptrWidth)

def markMask : ℕ := 7

def isMarkedNonAtomic : Bool := fwdptr m object &&& markMask != 0

end Header

theorem or_one_eq (h : 2 ∣ a) : a ||| 1 = a + 1 := by
  obtain ⟨b, rfl⟩ := h
  exact (Nat.two_pow_add_eq_or_of_lt (i := 1) (by decide) b).symm

variable {object : ℕ} {m : Memory}

theorem vtblptrForwarded_of_forward (h : 2 ∣ a) (hm : m object = a ||| 1) :
    vtblptrForwarded m object = some a := by
  have hodd : (a + 1) % 2 = 1 := by omega
  simp [vtblptrForwarded, hm, or_one_eq h, clearBits, hodd]

theorem vtblptrForwarded_of_even (h : 2 ∣ m object) : vtblptrForwarded m object = none := by
  have heven : m object % 2 = 0 := by omega
  simp [vtblptrForwarded, heven]

/-! ## Sizes -/

/-- The length of an array. -/
def arrayLength (m : Memory) (object : ℕ) : ℕ := m (object + headerSize)

def determineArraySize (m : Memory) (object elementSize : ℕ) : ℕ :=
  alignUsize (headerSize + ptrWidth + elementSize * arrayLength m object) ptrWidth

def sizeForVtblptr (classes : Classes) (m : Memory) (object vtblptr : ℕ) : ℕ :=
  let vtbl := VTable.new (classes vtblptr)
  if vtbl.instanceSize ≠ 0 then vtbl.instanceSize
  else determineArraySize m object vtbl.elementSize

/-- The size of the object in bytes. -/
def size (classes : Classes) (m : Memory) (object : ℕ) : ℕ :=
  sizeForVtblptr classes m object (vtblptr m object)

/-! ## Reference fields -/

/-- The values of `ptr` in a loop `while ptr < limit { …; ptr += width }`. -/
def steps (ptr limit width : ℕ) : List ℕ :=
  (List.range ((limit - ptr + width - 1) / width)).map fun i => ptr + width * i

def visitFixedObject (object : ℕ) (cls : ClassInstance) : List ℕ :=
  cls.refFields.map fun offset => object + offset

def visitObjectArrayRefs (m : Memory) (object : ℕ) (range : Option Region) : List ℕ :=
  let ptr := object + arrayHeaderSize
  let limit := ptr + ptrWidth * arrayLength m object
  match range with
  | none => steps ptr limit ptrWidth
  | some range => steps (max ptr range.start) (min limit range.stop) ptrWidth

/-- The references of the elements from `ptr` up to `limit`. -/
def elementRefs (cls : ClassInstance) (elementSize ptr limit : ℕ) : List ℕ :=
  (steps ptr limit elementSize).flatMap fun ptr => cls.refFields.map fun offset => ptr + offset

/-- The slots of an array of structs; with a range, those of the elements that start in it. The
division by the element size panics on zero. -/
def visitStructArrayRefs (m : Memory) (object : ℕ) (cls : ClassInstance) (elementSize : ℕ)
    (range : Option Region) : Option (List ℕ) :=
  if cls.refFields.isEmpty then some []
  else
    let arrayStart := object + arrayHeaderSize
    let arrayLimit := arrayStart + elementSize * arrayLength m object
    match range with
    | none => some (elementRefs cls elementSize arrayStart arrayLimit)
    | some range =>
      let limit := min arrayLimit range.stop
      if arrayStart < range.start then
        if elementSize = 0 then none
        else
          let skip := (range.start - arrayStart + elementSize - 1) / elementSize
          some (elementRefs cls elementSize (arrayStart + skip * elementSize) limit)
      else some (elementRefs cls elementSize arrayStart limit)

/-- The slots that `visit_refs` calls its function with, in order. Code objects are
`unreachable!`. -/
def visitRefs (m : Memory) (object : ℕ) (cls : ClassInstance) (range : Option Region) :
    Option (List ℕ) :=
  match cls.size with
  | .objArray => some (visitObjectArrayRefs m object range)
  | .structArray elementSize => visitStructArrayRefs m object cls elementSize range
  | .unitArray | .primitiveArray _ | .str | .freeArray => some []
  | .fixed _ => some (visitFixedObject object cls)
  | .codeObject => none

def visitReferenceFields (classes : Classes) (m : Memory) (object : ℕ) : Option (List ℕ) :=
  visitRefs m object (VTable.new (classes (vtblptr m object))).classInstance none

/-- `copy_to`: the object's bytes at another address. -/
def copyTo (m : Memory) (object dest size : ℕ) : Memory := m.move object dest size

/-! ## Layouts -/

/-- The layouts that the compiler makes for heap objects: sizes and references are aligned, and
references stand inside the object behind the header, or inside the element. Code objects stand in
a space of their own. -/
def ClassInstance.WellFormed (cls : ClassInstance) : Prop :=
  cls.refFields.Nodup ∧
  match cls.size with
  | .fixed size => 8 ∣ size ∧ 16 ≤ size ∧ ∀ k ∈ cls.refFields, 8 ∣ k ∧ 16 ≤ k ∧ k + 8 ≤ size
  | .structArray elementSize =>
    8 ∣ elementSize ∧ 0 < elementSize ∧ ∀ k ∈ cls.refFields, 8 ∣ k ∧ k + 8 ≤ elementSize
  | .codeObject => False
  | _ => True

instance : (cls : ClassInstance) → Decidable cls.WellFormed
  | ⟨.fixed size, refFields⟩ => inferInstanceAs (Decidable (refFields.Nodup ∧ 8 ∣ size ∧
      16 ≤ size ∧ ∀ k ∈ refFields, 8 ∣ k ∧ 16 ≤ k ∧ k + 8 ≤ size))
  | ⟨.structArray elementSize, refFields⟩ => inferInstanceAs (Decidable (refFields.Nodup ∧
      8 ∣ elementSize ∧ 0 < elementSize ∧ ∀ k ∈ refFields, 8 ∣ k ∧ k + 8 ≤ elementSize))
  | ⟨.codeObject, refFields⟩ => inferInstanceAs (Decidable (refFields.Nodup ∧ False))
  | ⟨.primitiveArray _, refFields⟩ | ⟨.objArray, refFields⟩ | ⟨.unitArray, refFields⟩
  | ⟨.freeArray, refFields⟩ | ⟨.str, refFields⟩ =>
    inferInstanceAs (Decidable (refFields.Nodup ∧ True))

namespace ClassInstance

/-- The size of an object of the class; `length` counts for arrays. -/
def objectSize (cls : ClassInstance) (length : ℕ) : ℕ :=
  let instanceSize := cls.size.instanceSize.getD 0
  if instanceSize ≠ 0 then instanceSize
  else alignUsize (headerSize + ptrWidth + cls.size.elementSize.getD (2 ^ 64 - 1) * length) ptrWidth

/-- The offsets of the references in an object of the class. -/
def refOffsets (cls : ClassInstance) (length : ℕ) : List ℕ :=
  match cls.size with
  | .objArray => steps arrayHeaderSize (arrayHeaderSize + ptrWidth * length) ptrWidth
  | .structArray elementSize =>
    elementRefs cls elementSize arrayHeaderSize (arrayHeaderSize + elementSize * length)
  | .fixed _ => cls.refFields
  | _ => []

end ClassInstance

/-- The offsets of the references in the object. -/
def offsets (classes : Classes) (m : Memory) (object : ℕ) : List ℕ :=
  (classes (m object)).refOffsets (arrayLength m object)

theorem size_eq (classes : Classes) (m : Memory) (object : ℕ) :
    size classes m object = (classes (m object)).objectSize (arrayLength m object) := rfl

section Steps

variable {ptr limit width : ℕ}

theorem mem_steps (hwidth : 0 < width) {x : ℕ} :
    x ∈ steps ptr limit width ↔ ∃ i, x = ptr + width * i ∧ x < limit := by
  simp only [steps, mem_map, mem_range, Nat.lt_div_iff_mul_lt hwidth]
  constructor
  · rintro ⟨i, hi, rfl⟩
    refine ⟨i, rfl, ?_⟩
    rw [Nat.mul_comm] at hi
    omega
  · rintro ⟨i, rfl, hi⟩
    refine ⟨i, ?_, rfl⟩
    rw [Nat.mul_comm]
    omega

theorem steps_add (base : ℕ) :
    steps (base + ptr) (base + limit) width = (steps ptr limit width).map (base + ·) := by
  simp [steps, Nat.add_sub_add_left, Nat.add_assoc]

theorem nodup_steps (hwidth : 0 < width) : (steps ptr limit width).Nodup := by
  refine List.Nodup.map ?_ nodup_range
  intro i j hij
  exact Nat.eq_of_mul_eq_mul_left hwidth (by simpa using hij)

end Steps

theorem alignUsize_eq (n : ℕ) : alignUsize n 8 = (n + 7) / 8 * 8 := by
  simp [alignUsize]

theorem elementRefs_add (cls : ClassInstance) (elementSize base ptr limit : ℕ) :
    elementRefs cls elementSize (base + ptr) (base + limit) =
      (elementRefs cls elementSize ptr limit).map (base + ·) := by
  simp only [elementRefs, steps_add, flatMap_map, map_flatMap]
  simp [Nat.add_assoc]

namespace ClassInstance

variable {cls : ClassInstance} {length k : ℕ}

theorem objectSize_fixed {size : ℕ} (hcls : cls.size = .fixed size) (hsize : 16 ≤ size) :
    cls.objectSize length = size := by
  have hne : size ≠ 0 := by omega
  simp [objectSize, hcls, InstanceSize.instanceSize, hne]

theorem objectSize_array (hcls : cls.size.instanceSize = none) :
    cls.objectSize length = (24 + cls.size.elementSize.getD (2 ^ 64 - 1) * length + 7) / 8 * 8 := by
  simp [objectSize, hcls, headerSize, ptrWidth, alignUsize_eq]

theorem objectSize_unitArray (hcls : cls.size = .unitArray) : cls.objectSize length = 24 := by
  simp [objectSize, hcls, InstanceSize.instanceSize, arrayHeaderSize, headerSize, ptrWidth]

theorem objectSize_bounds (h : cls.WellFormed) (length : ℕ) :
    8 ∣ cls.objectSize length ∧ 16 ≤ cls.objectSize length := by
  obtain ⟨size, refFields⟩ := cls
  cases size with
  | fixed size =>
    obtain ⟨-, hdvd, hle, -⟩ := h
    rw [objectSize_fixed rfl hle]
    exact ⟨hdvd, hle⟩
  | codeObject => exact absurd h.2 id
  | unitArray =>
    rw [objectSize_unitArray rfl]
    omega
  | primitiveArray | objArray | structArray | freeArray | str =>
    rw [objectSize_array rfl]
    omega

/-- **The reference fields** are aligned, stand behind the header and inside the object. -/
theorem refOffsets_bounds (h : cls.WellFormed) (hk : k ∈ cls.refOffsets length) :
    8 ∣ k ∧ 16 ≤ k ∧ k + 8 ≤ cls.objectSize length := by
  obtain ⟨size, refFields⟩ := cls
  cases size with
  | fixed size =>
    obtain ⟨-, -, hle, hrefs⟩ := h
    obtain ⟨hdvd, hlo, hhi⟩ := hrefs k hk
    rw [objectSize_fixed rfl hle]
    exact ⟨hdvd, hlo, hhi⟩
  | objArray =>
    obtain ⟨i, rfl, hlt⟩ := (mem_steps (by decide)).mp hk
    rw [objectSize_array rfl]
    simp only [InstanceSize.elementSize, Option.getD_some, headerSize, ptrWidth,
      arrayHeaderSize] at hlt ⊢
    omega
  | structArray elementSize =>
    obtain ⟨-, hdvd, hpos, hrefs⟩ := h
    obtain ⟨e, he, hk⟩ := mem_flatMap.mp hk
    obtain ⟨i, rfl, hlt⟩ := (mem_steps hpos).mp he
    obtain ⟨j, hj, rfl⟩ := mem_map.mp hk
    obtain ⟨hdvdj, hhi⟩ := hrefs j hj
    -- the element is one of `length`, so it ends inside the array
    have hi : i < length := by
      by_contra hge
      have := Nat.mul_le_mul_left elementSize (Nat.le_of_not_lt hge)
      omega
    have hend : elementSize * i + elementSize ≤ elementSize * length :=
      Nat.mul_le_mul_left elementSize hi
    have hdvdi : 8 ∣ elementSize * i := Dvd.dvd.mul_right hdvd i
    rw [objectSize_array rfl]
    simp only [InstanceSize.elementSize, Option.getD_some, headerSize, ptrWidth,
      arrayHeaderSize] at hlt ⊢
    omega
  | codeObject => exact absurd h.2 id
  | primitiveArray | unitArray | freeArray | str => cases hk

theorem nodup_refOffsets (h : cls.WellFormed) : (cls.refOffsets length).Nodup := by
  obtain ⟨size, refFields⟩ := cls
  cases size with
  | fixed size => exact h.1
  | objArray => exact nodup_steps (by decide)
  | structArray elementSize =>
    obtain ⟨hnodup, -, hpos, hrefs⟩ := h
    refine nodup_flatMap.mpr ⟨?_, ?_⟩
    · intro e _
      exact hnodup.map fun i j hij => Nat.add_left_cancel hij
    · -- fields of two elements differ, since the elements do not overlap
      refine (pairwise_map.mpr ?_)
      refine List.Pairwise.imp ?_ nodup_range
      intro i j hij x hx hx'
      obtain ⟨a, ha, rfl⟩ := mem_map.mp hx
      obtain ⟨b, hb, hab⟩ := mem_map.mp hx'
      have halt := (hrefs a ha).2
      have hblt := (hrefs b hb).2
      rcases Nat.lt_or_gt_of_ne hij with hlt | hlt
      · have := Nat.mul_le_mul_left elementSize hlt
        rw [Nat.mul_succ] at this
        omega
      · have := Nat.mul_le_mul_left elementSize hlt
        rw [Nat.mul_succ] at this
        omega
  | codeObject => exact absurd h.2 id
  | primitiveArray | unitArray | freeArray | str => exact nodup_nil

/-- Unless the word behind the header is the length, the layout does not depend on it. -/
theorem layout_congr (h : cls.WellFormed) {length' : ℕ}
    (hlength : 16 < cls.objectSize length → 16 ∉ cls.refOffsets length → length' = length) :
    cls.objectSize length' = cls.objectSize length ∧
      cls.refOffsets length' = cls.refOffsets length := by
  by_cases hfixed : ∃ size, cls.size = .fixed size
  · obtain ⟨size, hsize⟩ := hfixed
    obtain ⟨_, refFields⟩ := cls
    cases hsize
    have hle := h.2.2.1
    rw [objectSize_fixed rfl hle, objectSize_fixed rfl hle]
    exact ⟨rfl, rfl⟩
  · have hsize : 16 < cls.objectSize length := by
      obtain ⟨size, refFields⟩ := cls
      cases size with
      | fixed size => exact absurd ⟨size, rfl⟩ hfixed
      | codeObject => exact absurd h.2 id
      | unitArray =>
        rw [objectSize_unitArray rfl]
        omega
      | primitiveArray | objArray | structArray | freeArray | str =>
        rw [objectSize_array rfl]
        omega
    have hoff : 16 ∉ cls.refOffsets length := by
      intro hmem
      obtain ⟨size, refFields⟩ := cls
      cases size with
      | fixed size => exact hfixed ⟨size, rfl⟩
      | objArray =>
        obtain ⟨i, hi, -⟩ := (mem_steps (by decide)).mp hmem
        simp only [arrayHeaderSize, headerSize, ptrWidth] at hi
        omega
      | structArray elementSize =>
        obtain ⟨e, he, hk⟩ := mem_flatMap.mp hmem
        obtain ⟨i, rfl, -⟩ := (mem_steps h.2.2.1).mp he
        obtain ⟨j, -, hj⟩ := mem_map.mp hk
        simp only [arrayHeaderSize, headerSize, ptrWidth] at hj
        omega
      | primitiveArray | unitArray | freeArray | codeObject | str => cases hmem
    rw [hlength hsize hoff]
    exact ⟨rfl, rfl⟩

end ClassInstance

theorem visitReferenceFields_eq (h : (classes (m object)).WellFormed) :
    visitReferenceFields classes m object = some ((offsets classes m object).map (object + ·)) := by
  unfold visitReferenceFields offsets vtblptr VTable.new
  generalize classes (m object) = cls at h ⊢
  obtain ⟨size, refFields⟩ := cls
  cases size with
  | fixed size => rfl
  | objArray =>
    simp only [visitRefs, visitObjectArrayRefs, ClassInstance.refOffsets, Nat.add_assoc, steps_add]
  | structArray elementSize =>
    simp only [visitRefs, visitStructArrayRefs, ClassInstance.refOffsets]
    cases refFields with
    | nil => simp [elementRefs]
    | cons k refFields => simp [Nat.add_assoc, elementRefs_add]
  | codeObject => exact absurd h.2 id
  | primitiveArray | unitArray | freeArray | str => rfl

/-- **A copy has the layout of its original**: the vtable word is the same, and the length is if
there is one. -/
theorem layout_eq {m' : Memory} {object' : ℕ}
    (h : (classes (m object)).WellFormed) (hvtbl : m' object' = m object)
    (hlength : 16 < size classes m object → 16 ∉ offsets classes m object →
      m' (object' + 16) = m (object + 16)) :
    size classes m' object' = size classes m object ∧ visitReferenceFields classes m' object' =
        some ((offsets classes m object).map (object' + ·)) := by
  have hcls : classes (m' object') = classes (m object) := by rw [hvtbl]
  have hlength' : 16 < (classes (m object)).objectSize (arrayLength m object) →
      16 ∉ (classes (m object)).refOffsets (arrayLength m object) →
      arrayLength m' object' = arrayLength m object := hlength
  obtain ⟨hsize, hoff⟩ := ClassInstance.layout_congr h hlength'
  refine ⟨?_, ?_⟩
  · rw [size_eq, size_eq, hcls, hsize]
  · rw [visitReferenceFields_eq (hcls ▸ h)]
    unfold offsets
    rw [hcls, hoff]

end Dora.Gc
