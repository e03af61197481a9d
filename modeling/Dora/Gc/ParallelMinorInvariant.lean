import Dora.Gc.ParallelMinorSpaces
import Dora.Lib.Evacuating

/-!
# The invariant of the parallel minor collection

What a task writes before its copy is known to the others stays in its own holes.

## Main definitions

* `CopyInv`: the memory is an evacuation (`Evacuating`) whose pending slots are those of the tasks
  and of the gray objects, in a territory whose holes belong to the tasks

## Main results

* `CopyInv.of_step`: what a step has to show to keep it
-/

namespace Dora.Gc

open Finset Function

variable {ι : Type} {n : ℕ} {E : MinorHeap} {H : Heap}

/-- The heap of the young objects. -/
structure IsMinorHeap (E : MinorHeap) (H : Heap) : Prop where
  size : ∀ o, H.size o = size E.classes H.memory o
  offsets : ∀ o, H.offsets o = offsets E.classes H.memory o
  movable : ∀ v, H.movable v = E.young.contains v
  forward : ∀ a, H.forward a = a ||| 1
  wellFormed : ∀ o ∈ H.objects, (E.classes (H.memory o)).WellFormed
  vtbl_ne : ∀ o ∈ H.objects, H.memory o ≠ 0
  vtbl_aligned : ∀ o ∈ H.objects, 8 ∣ H.memory o
  fillers : E.fillers.WellFormed E.classes

namespace IsMinorHeap

variable {o : ℕ}

theorem size_bounds (hE : IsMinorHeap E H) (ho : o ∈ H.objects) : 8 ∣ H.size o ∧ 16 ≤ H.size o := by
  rw [hE.size, size_eq]
  exact ClassInstance.objectSize_bounds (hE.wellFormed o ho) _

theorem offsets_bounds (hE : IsMinorHeap E H) (ho : o ∈ H.objects) {k : ℕ} (hk : k ∈ H.offsets o) :
    16 ≤ k ∧ k + 8 ≤ H.size o := by
  rw [hE.offsets] at hk
  have hbounds := ClassInstance.refOffsets_bounds (hE.wellFormed o ho) hk
  rw [hE.size, size_eq]
  exact hbounds.2

theorem nodup_offsets (hE : IsMinorHeap E H) (ho : o ∈ H.objects) : (H.offsets o).Nodup := by
  rw [hE.offsets]
  exact ClassInstance.nodup_refOffsets (hE.wellFormed o ho)

end IsMinorHeap

/-! ## Headers -/

section Header

variable {m : Memory} {obj a : ℕ}

theorem and_three_of_aligned (h : 8 ∣ a) : a &&& 3 = 0 ∧ a &&& 1 = 0 := by
  constructor
  · have hmod : a &&& 3 = a % 4 := Nat.and_two_pow_sub_one_eq_mod a 2
    omega
  · rw [Nat.and_one_is_mod]
    omega

theorem forwardedTo_of_aligned (h : 8 ∣ a) : forwardedTo obj (a ||| 1) = a := by
  have hthree : (a ||| 1) &&& 3 ≠ 3 := by
    have hmod : (a ||| 1) &&& 3 = (a ||| 1) % 4 := Nat.and_two_pow_sub_one_eq_mod _ 2
    rw [hmod, or_one_eq (by omega)]
    omega
  rw [forwardedTo, if_neg hthree, or_one_eq (by omega), clearBits, Nat.and_one_is_mod]
  omega

theorem hasForwardingPointer_vtblptr (h : 8 ∣ m obj) :
    hasForwardingPointer m obj = .error (m obj) := by
  obtain ⟨hthree, hone⟩ := and_three_of_aligned h
  simp [hasForwardingPointer, hthree, hone]

theorem hasForwardingPointer_forward (h : 8 ∣ a) (hm : m obj = a ||| 1) :
    hasForwardingPointer m obj = .ok a := by
  have hfwd : forwardedTo obj (a ||| 1) = a := forwardedTo_of_aligned h
  have hone : (a ||| 1) &&& 1 = 1 := by
    rw [or_one_eq (by omega), Nat.and_one_is_mod]
    omega
  unfold forwardedTo at hfwd
  unfold hasForwardingPointer
  rw [hm]
  dsimp only
  split_ifs at hfwd ⊢ with hthree
  · rw [hfwd]
  · rw [hfwd]

end Header

/-! ## Holes and slots of the tasks -/

/-- The copy that a task is making. -/
def CopyPc.claim : CopyPc → Option Claim
  | .copyTo c | .forward c => some c
  | _ => none

/-- The slot that a task is visiting. -/
def CopyPc.slot : CopyPc → List ℕ
  | .load slot _ | .allocYoung slot _ _ | .promote slot _ _ | .fail slot _ _ => [slot]
  | .copyTo c | .forward c => [c.slot]
  | .idle | .done => []

/-- What a copy takes of the buffer. -/
@[simp]
def CopyPc.small (pc : CopyPc) (promote : Bool) : ℕ :=
  match pc.claim with
  | some c => if c.size < clabObjectSize ∧ c.promote = promote then c.size else 0
  | none => 0

/-- The memory for a copy of medium size. -/
@[simp]
def CopyPc.medium (pc : CopyPc) : ℕ × ℕ :=
  match pc.claim with
  | some c => if c.size < clabObjectSize then (0, 0) else (c.dest, c.dest + c.size)
  | none => (0, 0)

namespace CopyTask

variable (t : CopyTask)

/-- The buffer for copies in to-space, or in the old generation. -/
def lab : Bool → Lab
  | true => t.oldLab
  | false => t.youngLab

/-- The task at another place. -/
def setPc (pc : CopyPc) : CopyTask := { t with pc }

@[simp] theorem setPc_lab (pc : CopyPc) (promote : Bool) :
    (t.setPc pc).lab promote = t.lab promote := by
  cases promote <;> rfl

/-- What is reserved for the task: the buffers with the copy that is being made, and the memory of a
copy of medium size. -/
@[simp]
def hole : Option Bool → ℕ × ℕ
  | some promote => ((t.lab promote).top - t.pc.small promote, (t.lab promote).limit)
  | none => t.pc.medium

/-- The slots that the task is to visit. -/
def slots : List ℕ := t.pc.slot ++ t.todo

end CopyTask

namespace CopyTasks

/-- To-space and the old generation, with the holes of the tasks. -/
def territory (E : MinorHeap) (s : CopyTasks ι n) (blocks : Set (ℕ × ℕ)) :
    Territory (Option (Fin n)) (ι × Option Bool) :=
  ⟨s.tops.space E, fun k => (s.tasks k.1).hole k.2, blocks⟩

/-- The slots that have not been visited: those of the tasks and those of the gray objects. -/
def pending [Fintype ι] (H : Heap) (s : CopyTasks ι n) (gray : List (ℕ × ℕ)) : Multiset ℕ :=
  ∑ i, ((s.tasks i).slots : Multiset ℕ) + (gray.flatMap H.fieldsOf : List ℕ)

theorem mem_pending [Fintype ι] {s : CopyTasks ι n} {gray : List (ℕ × ℕ)} {i : ι} {x : ℕ}
    (hx : x ∈ (s.tasks i).slots) : x ∈ s.pending H gray :=
  Multiset.mem_add.mpr (.inl (Multiset.mem_sum.mpr ⟨i, mem_univ i, hx⟩))

theorem pending_eq [Fintype ι] [DecidableEq ι] {s s' : CopyTasks ι n} {gray gray' : List (ℕ × ℕ)}
    {i : ι} {extra : Multiset ℕ} (hothers : ∀ j, j ≠ i → s'.tasks j = s.tasks j)
    (hslots : ((s.tasks i).slots : Multiset ℕ) + (gray.flatMap H.fieldsOf : List ℕ) =
      extra + ((s'.tasks i).slots + (gray'.flatMap H.fieldsOf : List ℕ))) :
    s.pending H gray = extra + s'.pending H gray' := by
  have hsum := sum_change (f := fun j => ((s.tasks j).slots : Multiset ℕ))
    (g := fun j => ((s'.tasks j).slots)) fun j hj => by rw [hothers j hj]
  refine add_right_cancel (b := ((s'.tasks i).slots : Multiset ℕ)) ?_
  calc ∑ j, ((s.tasks j).slots : Multiset ℕ) + (gray.flatMap H.fieldsOf) + (s'.tasks i).slots
      = (∑ j, ((s.tasks j).slots : Multiset ℕ) + (s'.tasks i).slots) +
          (gray.flatMap H.fieldsOf) := add_right_comm ..
    _ = ∑ j, ((s'.tasks j).slots : Multiset ℕ) +
          ((s.tasks i).slots + (gray.flatMap H.fieldsOf)) := by rw [← hsum, add_assoc]
    _ = extra + (∑ j, ((s'.tasks j).slots : Multiset ℕ) + (gray'.flatMap H.fieldsOf)) +
          (s'.tasks i).slots := by rw [hslots]; ac_rfl

end CopyTasks

/-! ## The invariant -/

/-- The slot refers to the object. -/
def Visits (H : Heap) (copies : Copies) (slot obj : ℕ) : Prop :=
  ∃ x0, H.IsSlot copies slot x0 ∧ H.memory x0 = obj ∧ H.movable obj = true

/-- A copy that is being made. -/
structure ClaimInv (H : Heap) (copies : Copies) (t : CopyTask) (c : Claim) : Prop where
  visits : Visits H copies c.slot c.obj
  vtblptr : c.vtblptr = H.memory c.obj
  size : c.size = H.size c.obj
  aligned : 8 ∣ c.dest
  small : c.size < clabObjectSize → c.dest + c.size = (t.lab c.promote).top

/-- A copy that has been made. Its header is that of the original unless it was late. -/
structure Made (H : Heap) (strict : Prop) (m : Memory) (copies : Copies) (c : Claim) : Prop where
  body : ∀ k < c.size, 0 < k → m (c.dest + k) = H.memory (c.obj + k)
  header : m c.dest = H.memory c.obj ∨
    c.obj ∈ copies.map Prod.fst ∧ (strict → c.size < clabObjectSize)

/-- What holds at the places of a task. -/
def PcInv (H : Heap) (strict : Prop) (m : Memory) (copies : Copies) (t : CopyTask) : CopyPc → Prop
  | .idle => True
  | .load slot obj => Visits H copies slot obj
  | .allocYoung slot obj vtblptr | .promote slot obj vtblptr =>
    Visits H copies slot obj ∧ vtblptr = H.memory obj
  | .copyTo c => ClaimInv H copies t c
  | .forward c => ClaimInv H copies t c ∧ Made H strict m copies c
  | .fail _ _ _ => False
  | .done => t.todo = [] ∧ t.youngLab = .new ∧ t.oldLab = .new

/-- What holds of a task. -/
structure TaskInv (H : Heap) (strict : Prop) (m : Memory) (copies : Copies) (t : CopyTask) :
    Prop where
  labs : ∀ promote, (t.lab promote).Valid
  pc : PcInv H strict m copies t t.pc

/-- A block that is passed in one step, whatever is written to the slots in it. -/
structure Solid (classes : Classes) (H : Heap) (m : Memory) (copies : Copies) (b : ℕ × ℕ) :
    Prop where
  step : WalkStep classes m b.1 b.2
  slots : ∀ x x0, H.IsSlot copies x x0 → b.1 ≤ x → x < b.2 →
    x ≠ b.1 ∧ (x = b.1 + 16 → 16 ∈ offsets classes m b.1)

/-- **The invariant**. The walk over the blocks is part of it if `strict` holds. -/
structure CopyInv [Fintype ι] (E : MinorHeap) (H : Heap) (strict : Prop) (s : CopyTasks ι n)
    (blocks : Set (ℕ × ℕ)) (gray : List (ℕ × ℕ)) : Prop where
  graph : Evacuating H s.memory s.forwarded (s.pending H gray)
  gray_eq : s.gray = gray.map Prod.snd
  gray_mem : ∀ p ∈ gray, p ∈ s.forwarded
  tight : (s.territory E blocks).Tight
  tops : s.tops.Valid E
  objects : ∀ o ∈ H.objects, ∀ a, SpanApart (o, o + H.size o) (s.tops.bounds E a)
  slots : ∀ x ∈ H.slots, (∀ a, x < (s.tops.bounds E a).1 ∨ (s.tops.bounds E a).2 ≤ x) ∨
    ∃ b ∈ blocks, b.1 ≤ x ∧ x < b.2
  copies : ∀ p ∈ s.forwarded, (p.2, p.2 + H.size p.1) ∈ blocks ∧ 8 ∣ p.2
  solid : strict → ∀ b ∈ blocks, Solid E.classes H s.memory s.forwarded b
  tasks : ∀ i, TaskInv H strict s.memory s.forwarded (s.tasks i)

section Lemmas

variable {copies copies' : Copies} {m m' : Memory} {strict : Prop} {c : Claim} {t : CopyTask}
  {slot obj : ℕ}

theorem Visits.append (h : Visits H copies slot obj) (more : Copies) :
    Visits H (copies ++ more) slot obj := by
  obtain ⟨x0, hslot, hobj, hmov⟩ := h
  exact ⟨x0, hslot.append more, hobj, hmov⟩

theorem Visits.reaches {pending : Multiset ℕ} (h : Visits H copies slot obj)
    (hgraph : Evacuating H m copies pending) : H.Reaches obj := by
  obtain ⟨x0, hslot, rfl, hmov⟩ := h
  exact hslot.reaches hgraph.reaches hmov

theorem Made.mono (h : Made H strict m copies c) (hpos : 0 < c.size)
    (hm : ∀ k < c.size, m' (c.dest + k) = m (c.dest + k))
    (more : Copies) : Made H strict m' (copies ++ more) c := by
  refine ⟨fun k hk hk' => (hm k hk).trans (h.body k hk hk'), ?_⟩
  have hhead := hm 0 hpos
  rw [Nat.add_zero] at hhead
  rw [hhead]
  refine h.header.imp_right fun ⟨hmem, hstrict⟩ => ⟨?_, hstrict⟩
  rw [List.map_append]
  exact List.mem_append_left _ hmem

theorem Made.copy (h : Made H strict m copies c) (hheader : m c.dest = H.memory c.obj) :
    ∀ k < c.size, m (c.dest + k) = H.memory (c.obj + k) := by
  intro k hk
  rcases Nat.eq_zero_or_pos k with rfl | hpos
  · exact hheader
  · exact h.body k hk hpos

theorem TaskInv.mono (h : TaskInv H strict m copies t) (hpos : ∀ c ∈ t.pc.claim, 0 < c.size)
    (hm : ∀ c ∈ t.pc.claim, ∀ k < c.size, m' (c.dest + k) = m (c.dest + k)) (more : Copies) :
    TaskInv H strict m' (copies ++ more) t := by
  obtain ⟨hlabs, hpc⟩ := h
  refine ⟨hlabs, ?_⟩
  generalize t.pc = pc at hpc hpos hm ⊢
  cases pc with
  | idle => trivial
  | load slot obj => exact Visits.append hpc more
  | allocYoung | promote => exact ⟨hpc.1.append more, hpc.2⟩
  | copyTo c => exact { hpc with visits := hpc.visits.append more }
  | forward c =>
    exact ⟨{ hpc.1 with visits := hpc.1.visits.append more },
      hpc.2.mono (hpos c rfl) (hm c rfl) more⟩
  | fail | done => exact hpc

/-- **Writing to slots** keeps a block solid. -/
theorem Solid.write {classes : Classes} {b : ℕ × ℕ} (h : Solid classes H m copies b)
    (hm : ∀ x, b.1 ≤ x → x < b.2 → m' x ≠ m x → ∃ x0, H.IsSlot copies x x0)
    (hslots : ∀ x x0, H.IsSlot copies' x x0 → b.1 ≤ x → x < b.2 → ∃ x1, H.IsSlot copies x x1) :
    Solid classes H m' copies' b := by
  have hlt := h.step.lt
  have hvtbl : m' b.1 = m b.1 := by
    by_contra hne
    obtain ⟨x0, hslot⟩ := hm b.1 le_rfl hlt hne
    exact (h.slots b.1 x0 hslot le_rfl hlt).1 rfl
  have hlength : m b.1 ≠ 0 → 16 < size classes m b.1 → 16 ∉ offsets classes m b.1 →
      m' (b.1 + 16) = m (b.1 + 16) := by
    intro hne hsize hoff
    by_contra hdiff
    have hin : b.1 + 16 < b.2 := by
      rcases h.step with ⟨hzero, -⟩ | ⟨-, -, -, hy⟩
      · exact absurd hzero hne
      · omega
    obtain ⟨x0, hslot⟩ := hm (b.1 + 16) (Nat.le_add_right _ _) hin hdiff
    exact hoff ((h.slots _ x0 hslot (Nat.le_add_right _ _) hin).2 rfl)
  refine ⟨h.step.congr hvtbl hlength, fun x x0 hslot hlo hhi => ?_⟩
  obtain ⟨x1, hslot'⟩ := hslots x x0 hslot hlo hhi
  obtain ⟨hne, hoff⟩ := h.slots x x1 hslot' hlo hhi
  refine ⟨hne, fun hx => ?_⟩
  have hzero : m b.1 ≠ 0 := by
    intro hzero
    rcases h.step with ⟨-, hy⟩ | ⟨hne, -⟩
    · unfold ptrWidth at hy
      omega
    · exact hne hzero
  rw [h.step.offsets_congr hzero hvtbl (hlength hzero)]
  exact hoff hx

/-- **A copy is solid** if its header is that of the original. -/
theorem solid_of_copy (hE : IsMinorHeap E H) (hobj : obj ∈ H.objects) {dest : ℕ}
    (hcopy : ∀ k < H.size obj, m (dest + k) = H.memory (obj + k))
    (hslots : ∀ x x0, H.IsSlot copies x x0 → dest ≤ x → x < dest + H.size obj →
      ∃ k ∈ H.offsets obj, x = dest + k) :
    Solid E.classes H m copies (dest, dest + H.size obj) := by
  have hwf := hE.wellFormed obj hobj
  have hbounds := hE.size_bounds hobj
  have hvtbl : m dest = H.memory obj := by
    have hhead := hcopy 0 (by omega)
    rwa [Nat.add_zero, Nat.add_zero] at hhead
  have hlength : 16 < size E.classes H.memory obj → 16 ∉ offsets E.classes H.memory obj →
      m (dest + 16) = H.memory (obj + 16) := fun hsize _ => hcopy 16 (by rwa [hE.size])
  have hstep : WalkStep E.classes m dest (dest + H.size obj) := by
    refine .inr ⟨?_, ?_, ?_, ?_⟩
    · rw [hvtbl]
      exact hE.vtbl_ne obj hobj
    · rw [hvtbl]
      exact hE.vtbl_aligned obj hobj
    · rw [hvtbl]
      exact hwf
    · rw [hE.size, (layout_eq hwf hvtbl hlength).1]
  refine ⟨hstep, fun x x0 hslot hlo hhi => ?_⟩
  obtain ⟨k, hk, rfl⟩ := hslots x x0 hslot hlo hhi
  have hkb := hE.offsets_bounds hobj hk
  refine ⟨by dsimp only; omega, fun hx => ?_⟩
  obtain rfl : k = 16 := by dsimp only at hx; omega
  have hoff : offsets E.classes m dest = offsets E.classes H.memory obj := by
    unfold offsets
    rw [hvtbl]
    exact (ClassInstance.layout_congr hwf hlength).2
  rw [hE.offsets] at hk
  exact hoff ▸ hk

end Lemmas

/-! ## Steps -/

theorem TaskInv.claim {m : Memory} {copies : Copies} {strict : Prop} {c : Claim} {t : CopyTask}
    (h : TaskInv H strict m copies t) (hc : c ∈ t.pc.claim) : ClaimInv H copies t c := by
  have hpc := h.pc
  generalize t.pc = pc at hpc hc
  cases pc with
  | copyTo c' =>
    cases hc
    exact hpc
  | forward c' =>
    cases hc
    exact hpc.1
  | _ => cases hc

namespace CopyTask

variable {t : CopyTask} {c : Claim}

theorem hole_small (hc : t.pc.claim = some c) (hsmall : c.size < clabObjectSize) :
    t.hole (some c.promote) = ((t.lab c.promote).top - c.size, (t.lab c.promote).limit) := by
  simp [hc, hsmall]

theorem hole_medium (hc : t.pc.claim = some c) (hlarge : ¬c.size < clabObjectSize) :
    t.hole none = (c.dest, c.dest + c.size) := by
  simp [hc, hlarge]

theorem hole_of_claim_none (hc : t.pc.claim = none) (promote : Bool) :
    t.hole (some promote) = ((t.lab promote).top, (t.lab promote).limit) := by
  simp [hc]

theorem hole_none_of_claim_none (hc : t.pc.claim = none) : t.hole none = (0, 0) := by
  simp [hc]

theorem hole_congr {t' : CopyTask} (hclaim : t'.pc.claim = t.pc.claim)
    (hlab : ∀ promote, t'.lab promote = t.lab promote) : t'.hole = t.hole := by
  funext k
  cases k with
  | none => simp [hclaim]
  | some promote => simp [hclaim, hlab]

end CopyTask

theorem CopyTasks.territory_congr {s s' : CopyTasks ι n} {blocks : Set (ℕ × ℕ)} {i : ι}
    (hothers : ∀ j, j ≠ i → s'.tasks j = s.tasks j)
    (hhole : (s'.tasks i).hole = (s.tasks i).hole) (htops : s'.tops = s.tops) :
    s'.territory E blocks = s.territory E blocks := by
  have hholes : (fun k : ι × Option Bool => (s'.tasks k.1).hole k.2) =
      fun k => (s.tasks k.1).hole k.2 := by
    funext k
    by_cases hk : k.1 = i
    · rw [hk, hhole]
    · rw [hothers k.1 hk]
  unfold territory
  rw [hholes, htops]

theorem hole_update [DecidableEq ι] {tasks tasks' : ι → CopyTask} {i : ι} (promote : Bool)
    (hothers : ∀ j, j ≠ i → tasks' j = tasks j)
    (hother : (tasks' i).hole (some !promote) = (tasks i).hole (some !promote)) :
    (fun k : ι × Option Bool => (tasks' k.1).hole k.2) =
      Function.update (Function.update (fun k => (tasks k.1).hole k.2) (i, some promote)
        ((tasks' i).hole (some promote))) (i, none) ((tasks' i).hole none) := by
  funext ⟨j, k⟩
  by_cases hj : j = i
  · subst hj
    cases k with
    | none => rw [update_self]
    | some b =>
      rw [update_of_ne (by simp)]
      by_cases hb : b = promote
      · rw [hb, update_self]
      · obtain rfl : b = !promote := Bool.eq_not_of_ne hb
        rw [update_of_ne (by simp)]
        exact hother
  · rw [update_of_ne (by simp [hj]), update_of_ne (by simp [hj])]
    rw [hothers j hj]

namespace CopyInv

variable [Fintype ι] {s s' : CopyTasks ι n} {blocks blocks' : Set (ℕ × ℕ)}
  {gray gray' : List (ℕ × ℕ)} {strict : Prop} {i : ι} {c : Claim} {slot obj x : ℕ}

section

variable (h : CopyInv E H strict s blocks gray)
include h

theorem mem_objects (hv : Visits H s.forwarded slot obj) :
    obj ∈ H.objects := H.reaches_mem _ (hv.reaches h.graph)

theorem in_bounds {b : ℕ × ℕ} (hb : ∃ a, (s.tops.space E a).1 ≤ b.1 ∧ b.2 ≤ (s.tops.space E a).2) :
    ∃ a, (s.tops.bounds E a).1 ≤ b.1 ∧ b.2 ≤ (s.tops.bounds E a).2 := by
  obtain ⟨a, hlo, hhi⟩ := hb
  exact ⟨a, s.tops.space_fst E a ▸ hlo, hhi.trans (h.tops.le_stop a)⟩

/-- **What is relevant** is in no hole. -/
theorem not_in_hole (hx : H.Relevant s.forwarded x) (i : ι) (k : Option Bool) :
    x < ((s.tasks i).hole k).1 ∨ ((s.tasks i).hole k).2 ≤ x := by
  have hblock : ∀ b ∈ blocks, SpanApart b ((s.tasks i).hole k) := fun b hb =>
    h.tight.apart b hb (i, k)
  rcases h.tight.hole_inside (i, k) with hzero | hin
  · change (s.tasks i).hole k = (0, 0) at hzero
    rw [hzero]
    exact .inr (Nat.zero_le x)
  obtain ⟨a, hlo, hhi⟩ := h.in_bounds hin
  change (s.tops.bounds E a).1 ≤ ((s.tasks i).hole k).1 at hlo
  change ((s.tasks i).hole k).2 ≤ (s.tops.bounds E a).2 at hhi
  rcases hx with hx | ⟨o, ho, hox, hxo⟩ | ⟨p, hp, hpx, hxp⟩
  · rcases h.slots x hx with hout | ⟨b, hb, hbx, hxb⟩
    · have houtside := hout a
      omega
    · have hapart := hblock b hb
      unfold SpanApart at hapart
      omega
  · have hapart := h.objects o ho a
    unfold SpanApart at hapart
    omega
  · have hapart := hblock _ (h.copies p hp).1
    unfold SpanApart at hapart
    omega

theorem relevant_eq {m : Memory} {k : Option Bool}
    (hm : ∀ x, m x ≠ s.memory x → ((s.tasks i).hole k).1 ≤ x ∧ x < ((s.tasks i).hole k).2)
    (hx : H.Relevant s.forwarded x) : m x = s.memory x := by
  by_contra hne
  have hin := hm x hne
  have hout := h.not_in_hole hx i k
  omega

theorem claim_hole (hc : c ∈ (s.tasks i).pc.claim) :
    ∃ k, ((s.tasks i).hole k).1 = c.dest ∧ c.dest + c.size ≤ ((s.tasks i).hole k).2 := by
  have hclaim := (h.tasks i).claim hc
  by_cases hsmall : c.size < clabObjectSize
  · have htop := hclaim.small hsmall
    have hle := ((h.tasks i).labs c.promote).le
    refine ⟨some c.promote, ?_⟩
    rw [CopyTask.hole_small hc hsmall]
    omega
  · refine ⟨none, ?_⟩
    rw [CopyTask.hole_medium hc hsmall]
    exact ⟨rfl, le_rfl⟩

end

theorem claim_size (hE : IsMinorHeap E H) (h : CopyInv E H strict s blocks gray)
    (hc : c ∈ (s.tasks i).pc.claim) : 8 ∣ c.size ∧ 16 ≤ c.size := by
  have hclaim := (h.tasks i).claim hc
  rw [hclaim.size]
  exact hE.size_bounds (h.mem_objects hclaim.visits)

/-- **A step of one task** keeps the invariant if it writes to slots, to headers of objects and in
its own holes, and leaves the rest to show about what is new. -/
theorem of_step (hE : IsMinorHeap E H) (h : CopyInv E H strict s blocks gray) (more : Copies)
    (hforwarded : s'.forwarded = s.forwarded ++ more)
    (hothers : ∀ j, j ≠ i → s'.tasks j = s.tasks j)
    (hmemory : ∀ x, s'.memory x ≠ s.memory x → (∃ x0, H.IsSlot s.forwarded x x0) ∨ x ∈ H.objects ∨
      ∃ k, ((s.tasks i).hole k).1 ≤ x ∧ x < ((s.tasks i).hole k).2)
    (hbounds : s'.tops.bounds E = s.tops.bounds E) (htops : s'.tops.Valid E)
    (hsub : blocks ⊆ blocks') (htight : (s'.territory E blocks').Tight)
    (hmore : ∀ p ∈ more, (p.2, p.2 + H.size p.1) ∈ blocks' ∧ (p.2, p.2 + H.size p.1) ∉ blocks ∧
      8 ∣ p.2)
    (hgraph : Evacuating H s'.memory s'.forwarded (s'.pending H gray'))
    (hgray : s'.gray = gray'.map Prod.snd) (hgrayMem : ∀ p ∈ gray', p ∈ s'.forwarded)
    (hnew : strict → ∀ b ∈ blocks', b ∉ blocks → Solid E.classes H s'.memory s'.forwarded b)
    (htask : TaskInv H strict s'.memory s'.forwarded (s'.tasks i)) :
    CopyInv E H strict s' blocks' gray' := by
  have hobject : ∀ o ∈ H.objects, H.Relevant s.forwarded o := fun o ho =>
    .inr (.inl ⟨o, ho, le_rfl, Nat.lt_add_of_pos_right (H.size_pos o ho)⟩)
  refine ⟨hgraph, hgray, hgrayMem, htight, htops, ?_, ?_, ?_, ?_, ?_⟩
  · rw [hbounds]
    exact h.objects
  · intro x hx
    rw [hbounds]
    exact (h.slots x hx).imp_right fun ⟨b, hb, hin⟩ => ⟨b, hsub hb, hin⟩
  · intro p hp
    rw [hforwarded] at hp
    rcases List.mem_append.mp hp with hp | hp
    · exact ⟨hsub (h.copies p hp).1, (h.copies p hp).2⟩
    · exact ⟨(hmore p hp).1, (hmore p hp).2.2⟩
  · intro hstrict b hb
    by_cases hold : b ∈ blocks
    · refine (h.solid hstrict b hold).write (fun x hlo hhi hne => ?_) fun x x0 hslot hlo hhi => ?_
      · -- a block is apart from the objects and from the holes
        rcases hmemory x hne with hslot | ho | ⟨k, hk⟩
        · exact hslot
        · obtain ⟨a, halo, hahi⟩ := h.in_bounds (h.tight.block_inside b hold)
          have hapart := h.objects x ho a
          have hpos := H.size_pos x ho
          unfold SpanApart at hapart
          omega
        · have hapart := h.tight.apart b hold (i, k)
          change SpanApart b ((s.tasks i).hole k) at hapart
          unfold SpanApart at hapart
          omega
      · rw [hforwarded] at hslot
        rcases hslot with hslot | ⟨p, hp, k, hk, rfl, hx0⟩
        · exact ⟨x0, .inl hslot⟩
        rcases List.mem_append.mp hp with hp | hp
        · exact ⟨x0, .inr ⟨p, hp, k, hk, rfl, hx0⟩⟩
        · obtain ⟨hblock, hnot, -⟩ := hmore p hp
          have hp' : p.1 ∈ H.objects :=
            hgraph.mem_objects p (hforwarded ▸ List.mem_append_right _ hp)
          have hlt := H.offsets_lt p.1 hp' k hk
          have hapart := htight.blocks b hb _ hblock fun heq => hnot (heq ▸ hold)
          unfold SpanApart at hapart
          omega
    · exact hnew hstrict b hb hold
  · intro j
    by_cases hj : j = i
    · rw [hj]
      exact htask
    · -- the copies of the others are in their holes, where this task does not write
      rw [hothers j hj, hforwarded]
      refine (h.tasks j).mono (fun c hc => ?_) (fun c hc k hk => ?_) more
      · have hsize := h.claim_size hE hc
        omega
      · by_contra hne
        obtain ⟨k', hlo, hhi⟩ := h.claim_hole hc
        have hin : ∀ y, H.Relevant s.forwarded y → y ≠ c.dest + k := by
          rintro y hy rfl
          have hnot := h.not_in_hole hy j k'
          omega
        rcases hmemory _ hne with ⟨x0, hslot⟩ | ho | ⟨l, hl⟩
        · exact hin _ (hslot.relevant h.graph.mem_objects) rfl
        · exact hin _ (hobject _ ho) rfl
        · have hapart := h.tight.holes (j, k') (i, l) (by simp [hj])
          change SpanApart ((s.tasks j).hole k') ((s.tasks i).hole l) at hapart
          unfold SpanApart at hapart
          omega

end CopyInv

end Dora.Gc
