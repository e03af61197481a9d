import Dora.Gc.Copy
import Dora.Gc.ParallelMinorSteps

/-!
# The parallel minor collection copies each object once

A copy of medium size that is made after another task has forwarded the object has the forwarding
address as its header, stays where it is when it loses, and the walk cannot pass it.

## Main definitions

* `PromotionFailed`: a promotion has failed

## Main results

* `CopyInv.step`: every step keeps the invariant until a promotion fails
* `parallel_minor_copies_once`: each object gets one forwarding address, and all slots follow it;
  the spaces can be walked if all copies of medium size were made in time
* `not_iterable_late_copy`: a run with a late copy
-/

namespace Dora.Gc

open Function (update update_eq_self update_idem update_of_ne update_self)
open CopyTasks CopyTask

open Finset

variable {ι : Type} {n : ℕ} {E : MinorHeap} {H : Heap} {s s' : CopyTasks ι n}
  {blocks : Set (ℕ × ℕ)} {gray : List (ℕ × ℕ)} {strict : Prop} {i : ι} {slot obj vtblptr : ℕ}

/-- Some promotion has failed. -/
def PromotionFailed (s : CopyTasks ι n) : Prop := ∃ i, (s.tasks i).promotionFailed = true

/-! ## Allocations -/

/-- The task with another buffer. -/
def CopyTask.setLab (t : CopyTask) (lab : Lab) (failed : Bool) : Bool → CopyTask
  | true => { t with oldLab := lab, promotionFailed := failed }
  | false => { t with youngLab := lab, copyFailed := failed }

/-- Whether the generation has failed to give the task memory. -/
def CopyTask.failed (t : CopyTask) : Bool → Bool
  | true => t.promotionFailed
  | false => t.copyFailed

/-- The memory of to-space, or of the old generation. -/
def bumpIn (E : MinorHeap) : Bool → Tops n → ℕ → Option ℕ × Tops n
  | true => Tops.bumpOld
  | false => Tops.bumpYoung E

theorem bumpIn_spec (promote : Bool) : BumpSpec E (bumpIn (n := n) E promote) := by
  cases promote
  · exact bumpYoung_spec
  · exact bumpOld_spec

/-- What the task allocates from. -/
def CopyTasks.allocation (s : CopyTasks ι n) (i : ι) (promote : Bool) : Allocation n :=
  ⟨(s.tasks i).lab promote, (s.tasks i).failed promote, s.memory, s.tops⟩

section Failures

variable [DecidableEq ι]

/-- The state after an allocation, with the task at another place. -/
def CopyTasks.setAllocation (s : CopyTasks ι n) (i : ι) (promote : Bool) (st : Allocation n)
    (pc : CopyPc) : CopyTasks ι n :=
  { s with
    memory := st.memory
    tops := st.tops
    tasks := update s.tasks i (((s.tasks i).setLab st.lab st.failed promote).setPc pc) }

theorem CopyTasks.allocYoung_goto (s : CopyTasks ι n) (size : ℕ) (pc : CopyPc) :
    (s.allocYoung E i size).2.goto i pc = s.setAllocation i false
        (allocObject E.fillers (bumpIn E false) (s.allocation i false) size).2 pc := by
  unfold goto setTask allocYoung setAllocation
  dsimp only
  rw [update_idem, update_self]
  rfl

theorem CopyTasks.allocOld_goto (s : CopyTasks ι n) (size : ℕ) (pc : CopyPc) :
    (s.allocOld E i size).2.goto i pc = s.setAllocation i true
        (allocObject E.fillers (bumpIn E true) (s.allocation i true) size).2 pc := by
  unfold goto setTask allocOld setAllocation
  dsimp only
  rw [update_idem, update_self]
  rfl

section Allocating

variable {size : ℕ} {addr : Option ℕ} {st : Allocation n}

/-- **The steps that allocate**: in to-space, or in the old generation. -/
theorem run_allocYoung (hpc : (s.tasks i).pc = .allocYoung slot obj vtblptr)
    (hsize : sizeForVtblptr E.classes s.memory obj vtblptr = size)
    (halloc : allocObject E.fillers (bumpIn E false) (s.allocation i false) size = (addr, st)) :
    s.run E i = .next (s.setAllocation i false st (addr.elim (.promote slot obj vtblptr) fun dest =>
      .copyTo ⟨slot, obj, vtblptr, size, false, dest⟩)) := by
  have hfst : (s.allocYoung E i size).1 = addr := congrArg Prod.fst halloc
  have hgoto := s.allocYoung_goto (E := E) (i := i) size
  rw [halloc] at hgoto
  unfold run
  dsimp only
  rw [hpc]
  dsimp only
  rw [hsize]
  rcases hcall : s.allocYoung E i size with ⟨_ | dest, s1⟩
  all_goals
    rw [hcall] at hfst hgoto
    cases hfst
    exact congrArg Outcome.next (hgoto _)

theorem run_promote (hpc : (s.tasks i).pc = .promote slot obj vtblptr)
    (hsize : sizeForVtblptr E.classes s.memory obj vtblptr = size)
    (halloc : allocObject E.fillers (bumpIn E true) (s.allocation i true) size = (addr, st)) :
    s.run E i = .next (s.setAllocation i true st (addr.elim (.fail slot obj vtblptr) fun dest =>
      .copyTo ⟨slot, obj, vtblptr, size, true, dest⟩)) := by
  have hfst : (s.allocOld E i size).1 = addr := congrArg Prod.fst halloc
  have hgoto := s.allocOld_goto (E := E) (i := i) size
  rw [halloc] at hgoto
  unfold run
  dsimp only
  rw [hpc]
  dsimp only
  rw [hsize]
  rcases hcall : s.allocOld E i size with ⟨_ | dest, s1⟩
  all_goals
    rw [hcall] at hfst hgoto
    cases hfst
    exact congrArg Outcome.next (hgoto _)

end Allocating

/-- A step of a task leaves the others alone, and a failed promotion stays one. -/
theorem run_tasks (hrun : s.run E i = .next s') :
    ∃ t, s'.tasks = update s.tasks i t ∧ t.pc ≠ .done ∧
      ((s.tasks i).promotionFailed = true → t.promotionFailed = true) := by
  cases hpc : (s.tasks i).pc with
  | allocYoung slot obj vtblptr =>
    rcases halloc : allocObject E.fillers (bumpIn E false) (s.allocation i false)
      (sizeForVtblptr E.classes s.memory obj vtblptr) with ⟨_ | dest, st⟩
    all_goals
      rw [run_allocYoung hpc rfl halloc] at hrun
      cases hrun
      exact ⟨_, rfl, nofun, id⟩
  | promote slot obj vtblptr =>
    have hst : (s.tasks i).promotionFailed = true → (s.allocation i true).failed = true := id
    rcases halloc : allocObject E.fillers (bumpIn E true) (s.allocation i true)
      (sizeForVtblptr E.classes s.memory obj vtblptr) with ⟨_ | dest, st⟩
    all_goals
      rw [run_promote hpc rfl halloc] at hrun
      cases hrun
      exact ⟨_, rfl, nofun, fun hf => allocObject_failed halloc (.inl (hst hf))⟩
  | idle =>
    simp only [run, hpc] at hrun
    split at hrun
    · cases hrun
    · split_ifs at hrun <;> cases hrun <;> exact ⟨_, rfl, nofun, id⟩
  | load slot obj =>
    simp only [run, hpc] at hrun
    split at hrun
    · cases hrun
      exact ⟨_, rfl, nofun, id⟩
    · split_ifs at hrun <;> cases hrun <;> exact ⟨_, rfl, nofun, id⟩
  | copyTo c =>
    simp only [run, hpc] at hrun
    cases hrun
    exact ⟨_, rfl, nofun, id⟩
  | forward c =>
    simp only [run, hpc] at hrun
    split at hrun
    · cases hrun
      exact ⟨_, rfl, nofun, id⟩
    · cases hrun
      refine ⟨_, rfl, nofun, fun hf => ?_⟩
      unfold undoAlloc
      split_ifs <;> exact hf
  | fail slot obj vtblptr =>
    simp only [run, hpc] at hrun
    split at hrun <;> cases hrun <;> exact ⟨_, rfl, nofun, id⟩
  | done =>
    simp only [run, hpc] at hrun
    cases hrun

theorem take_tasks {k : ℕ} (htake : s.take E i k = .next s') :
    s.gray ≠ [] ∧ ∃ t, s'.tasks = update s.tasks i t ∧ t.pc ≠ .done ∧
      ((s.tasks i).promotionFailed = true → t.promotionFailed = true) := by
  unfold take at htake
  dsimp only at htake
  split at htake
  · cases htake
  · next object hk =>
    split_ifs at htake with hidle
    split at htake
    · cases htake
    · cases htake
      refine ⟨fun hnil => ?_, _, rfl, ?_, id⟩
      · rw [hnil] at hk
        cases hk
      · change (s.tasks i).pc ≠ .done
        simp [hidle.1]

theorem finish_tasks [Fintype ι] (hfinish : s.finish E i = .next s') :
    s.gray = [] ∧ s'.gray = [] ∧ (∀ j, Resting (s.tasks j)) ∧
      ∃ t, s'.tasks = update s.tasks i t ∧ Resting t ∧
        ((s.tasks i).promotionFailed = true → t.promotionFailed = true) := by
  unfold finish at hfinish
  dsimp only at hfinish
  split_ifs at hfinish with hend
  cases hfinish
  exact ⟨hend.1, hend.1, hend.2.1, _, rfl, ⟨(hend.2.1 i).1, .inr rfl⟩, id⟩

/-- **A failed promotion stays one**. -/
theorem PromotionFailed.step [Fintype ι] {a : CopyAction ι} (h : PromotionFailed s)
    (hstep : s.step E a = .next s') : PromotionFailed s' := by
  obtain ⟨j, hj⟩ := h
  have hupdate : ∀ (i : ι) (t : CopyTask), s'.tasks = update s.tasks i t →
      ((s.tasks i).promotionFailed = true → t.promotionFailed = true) → PromotionFailed s' := by
    intro i t htasks hkeep
    refine ⟨j, ?_⟩
    rw [htasks]
    by_cases hji : j = i
    · subst hji
      rw [update_self]
      exact hkeep hj
    · rwa [update_of_ne hji]
  cases a with
  | run i =>
    obtain ⟨t, htasks, -, hkeep⟩ := run_tasks hstep
    exact hupdate i t htasks hkeep
  | take i k =>
    obtain ⟨-, t, htasks, -, hkeep⟩ := take_tasks hstep
    exact hupdate i t htasks hkeep
  | finish i =>
    obtain ⟨-, -, -, t, htasks, -, hkeep⟩ := finish_tasks hstep
    exact hupdate i t htasks hkeep

/-- Once a task has ended, there is no work left. -/
def Ended (s : CopyTasks ι n) : Prop :=
  (∃ i, (s.tasks i).pc = .done) → s.gray = [] ∧ ∀ i, Resting (s.tasks i)

theorem run_of_resting (h : Resting (s.tasks i)) : s.run E i = .waits := by
  rcases h with ⟨htodo, hpc | hpc⟩
  · simp only [run, hpc, htodo]
  · simp only [run, hpc]

theorem Ended.step [Fintype ι] {a : CopyAction ι} (h : Ended s) (hstep : s.step E a = .next s') :
    Ended s' := by
  -- a step that is not the end of a task happens only before the first end
  have hother : ∀ (i : ι) (t : CopyTask), s'.tasks = update s.tasks i t → t.pc ≠ .done →
      (∀ j, (s.tasks j).pc ≠ .done) → Ended s' := by
    rintro i t htasks hpc hnone ⟨j, hj⟩
    rw [htasks] at hj
    by_cases hji : j = i
    · subst hji
      rw [update_self] at hj
      exact absurd hj hpc
    · rw [update_of_ne hji] at hj
      exact absurd hj (hnone j)
  cases a with
  | run i =>
    obtain ⟨t, htasks, hpc, -⟩ := run_tasks hstep
    refine hother i t htasks hpc fun j hj => ?_
    change s.run E i = .next s' at hstep
    rw [run_of_resting ((h ⟨j, hj⟩).2 i)] at hstep
    cases hstep
  | take i k =>
    obtain ⟨hgray, t, htasks, hpc, -⟩ := take_tasks hstep
    exact hother i t htasks hpc fun j hj => hgray (h ⟨j, hj⟩).1
  | finish i =>
    obtain ⟨-, hgray, hrest, t, htasks, ht, -⟩ := finish_tasks hstep
    refine fun _ => ⟨hgray, fun j => ?_⟩
    rw [htasks]
    by_cases hji : j = i
    · rw [hji, update_self]
      exact ht
    · rw [update_of_ne hji]
      exact hrest j

end Failures

namespace CopyInv

variable [Fintype ι]

section

variable (hE : IsMinorHeap E H) (h : CopyInv E H strict s blocks gray)
include hE h

/-- The size that is read off the vtable is the size of the object, forwarded or not. -/
theorem size_eq_of_vtblptr (hobj : obj ∈ H.objects) :
    sizeForVtblptr E.classes s.memory obj (H.memory obj) = H.size obj := by
  rw [hE.size, size_eq]
  refine (ClassInstance.layout_congr (hE.wellFormed obj hobj) fun hlt _ => ?_).1
  exact h.graph.body hobj (by rw [hE.size]; exact hlt) (by decide)

/-- The object that a slot refers to has been forwarded, or its header is the vtable. -/
theorem header_cases (hobj : obj ∈ H.objects) :
    (∃ a, (obj, a) ∈ s.forwarded ∧ 8 ∣ a ∧ s.memory obj = a ||| 1) ∨
      8 ∣ s.memory obj ∧ s.memory obj = H.memory obj := by
  by_cases hmem : obj ∈ s.forwarded.map Prod.fst
  · obtain ⟨⟨o, a⟩, hp, rfl⟩ := List.mem_map.mp hmem
    refine .inl ⟨a, hp, (h.copies _ hp).2, ?_⟩
    rw [h.graph.header.1 _ hp, hE.forward]
  · have hheader := h.graph.header.2 obj hobj hmem
    exact .inr ⟨hheader ▸ hE.vtbl_aligned obj hobj, hheader⟩

theorem visit_copy {p : ℕ × ℕ} (hp : p ∈ s.forwarded) :
    visitReferenceFields E.classes s.memory p.2 = some (H.fieldsOf p) := by
  have hobj := h.graph.mem_objects p hp
  have hpos := (hE.size_bounds hobj).2
  have hvtbl : s.memory p.2 = H.memory p.1 := by
    refine h.graph.contents hp (k := 0) (by omega) fun hzero => ?_
    have hbounds := hE.offsets_bounds hobj hzero
    omega
  have hlength : 16 < size E.classes H.memory p.1 → 16 ∉ offsets E.classes H.memory p.1 →
      s.memory (p.2 + 16) = H.memory (p.1 + 16) := by
    intro hlt hoff
    rw [← hE.size] at hlt
    rw [← hE.offsets] at hoff
    exact h.graph.contents hp hlt hoff
  rw [(layout_eq (hE.wellFormed p.1 hobj) hvtbl hlength).2, Heap.fieldsOf, hE.offsets]

end

variable [DecidableEq ι]

/-- What a step leads to. -/
def Next (E : MinorHeap) (H : Heap) (strict : Prop) (s : CopyTasks ι n) : Prop :=
  PromotionFailed s ∨ ∃ blocks gray, CopyInv E H strict s blocks gray

section

variable (hE : IsMinorHeap E H) (h : CopyInv E H strict s blocks gray)
include hE h

/-- **`visit_slot`**: the task takes its next slot. -/
theorem runIdle (hpc : (s.tasks i).pc = .idle) : (s.run E i).Keeps (Next E H strict) := by
  unfold run
  dsimp only
  rw [hpc]
  cases htodo : (s.tasks i).todo with
  | nil => trivial
  | cons slot todo =>
    have hslots : (s.tasks i).slots = slot :: todo := by
      simp [CopyTask.slots, hpc, CopyPc.slot, htodo]
    obtain ⟨x0, hslot, hread⟩ := h.next_slot i (hslots ▸ List.mem_cons_self)
    dsimp only
    by_cases hyoung : E.young.contains (s.memory slot) = true
    · rw [if_pos hyoung]
      refine .inr ⟨blocks, gray, h.move hE ?_ ?_ ⟨fun b => ?_, ?_⟩⟩
      · rw [hslots]
        rfl
      · exact CopyTask.hole_congr (by rw [hpc]; rfl) fun b => by cases b <;> rfl
      · have hvalid := (h.tasks i).labs b
        cases b <;> exact hvalid
      · exact ⟨x0, hslot, hread.symm, by rw [hE.movable]; exact hyoung⟩
    · rw [if_neg hyoung]
      have hmov : H.movable (H.memory x0) = false := by
        rw [← hread, hE.movable]
        exact Bool.eq_false_iff.mpr hyoung
      have hdone := h.settleSlot hE i slot x0 { s.tasks i with pc := .idle, todo } hslots
        (by rw [hpc]) (fun b => by cases b <;> rfl) rfl hslot fun hmov' => by
          cases hmov.symm.trans hmov'
      rw [H.redirect_of_not_movable hmov, ← hread, update_eq_self] at hdone
      exact .inr ⟨blocks, gray, hdone⟩

/-- **`copy`**, up to the load of the header. -/
theorem runLoad (hpc : (s.tasks i).pc = .load slot obj)
    (hfailed : (s.tasks i).promotionFailed = false) :
    (s.run E i).Keeps (Next E H strict) := by
  have hvisits := (h.tasks i).pc
  rw [hpc] at hvisits
  have hobj := h.mem_objects hvisits
  -- the task moves on with the vtable
  have hgoto : ∀ pc : CopyPc, pc.slot = [slot] → pc.claim = none →
      PcInv H strict s.memory s.forwarded ((s.tasks i).setPc pc) pc →
      CopyInv E H strict (s.goto i pc) blocks gray := by
    intro pc hslot hclaim hinv
    refine h.move hE (t := (s.tasks i).setPc pc) ?_ ?_ ⟨fun b => ?_, hinv⟩
    · change pc.slot ++ (s.tasks i).todo = (s.tasks i).pc.slot ++ (s.tasks i).todo
      rw [hslot, hpc]
      rfl
    · exact hole_congr (by rw [hpc]; exact hclaim) (setPc_lab _ _)
    · rw [setPc_lab]
      exact (h.tasks i).labs b
  unfold run
  dsimp only
  rw [hpc]
  dsimp only
  rcases h.header_cases hE hobj with ⟨a, ha, hdvd, hword⟩ | ⟨hdvd, hword⟩
  · rw [hasForwardingPointer_forward hdvd hword]
    exact .inr ⟨blocks, gray, h.settle hE hpc ha⟩
  · rw [hasForwardingPointer_vtblptr hdvd]
    simp only [hfailed, Bool.false_eq_true, if_false]
    split_ifs
    · exact .inr ⟨blocks, gray, hgoto (.promote slot obj _) rfl rfl ⟨hvisits, hword⟩⟩
    · exact .inr ⟨blocks, gray, hgoto (.allocYoung slot obj _) rfl rfl ⟨hvisits, hword⟩⟩

/-- A step that allocates, in whichever generation, gives the memory for a copy or none. -/
theorem allocate (promote : Bool) (pc : CopyPc) {addr : Option ℕ} {st : Allocation n}
    (hvisits : Visits H s.forwarded slot obj) (hvtbl : vtblptr = H.memory obj)
    (hclaim : (s.tasks i).pc.claim = none) (hslot : (s.tasks i).pc.slot = [slot])
    (halloc : allocObject E.fillers (bumpIn E promote) (s.allocation i promote)
      (sizeForVtblptr E.classes s.memory obj vtblptr) = (addr, st))
    (hnone : pc.slot = [slot] ∧ pc.claim = none ∧ ∀ m t, PcInv H strict m s.forwarded t pc) :
    ∃ blocks', CopyInv E H strict (s.setAllocation i promote st (addr.elim pc fun dest =>
      .copyTo ⟨slot, obj, vtblptr, sizeForVtblptr E.classes s.memory obj vtblptr, promote, dest⟩))
      blocks' gray := by
  have hobj := h.mem_objects hvisits
  have hsize : sizeForVtblptr E.classes s.memory obj vtblptr = H.size obj := by
    rw [hvtbl]
    exact h.size_eq_of_vtblptr hE hobj
  obtain ⟨pc', hpc'⟩ : ∃ pc', pc' = addr.elim pc fun dest =>
      .copyTo ⟨slot, obj, vtblptr, sizeForVtblptr E.classes s.memory obj vtblptr, promote, dest⟩ :=
    ⟨_, rfl⟩
  rw [← hpc']
  have hi : (s.setAllocation i promote st pc').tasks i =
      ((s.tasks i).setLab st.lab st.failed promote).setPc pc' := update_self ..
  have hclaim' : ((s.setAllocation i promote st pc').tasks i).pc.claim = addr.map fun dest =>
      ⟨slot, obj, vtblptr, sizeForVtblptr E.classes s.memory obj vtblptr, promote, dest⟩ := by
    rw [hi, hpc']
    cases addr with
    | none => exact hnone.2.1
    | some dest => rfl
  refine h.reserve hE (bumpIn_spec promote) (hsize ▸ (hE.size_bounds hobj).1) hclaim
    halloc rfl rfl rfl rfl (fun j hj => update_of_ne hj ..) ?_ ?_ ?_ hclaim' ?_
  · rw [hi, setPc_lab]
    cases promote <;> rfl
  · rw [hi, setPc_lab]
    cases promote <;> rfl
  · have htodo : ((s.tasks i).setLab st.lab st.failed promote).todo = (s.tasks i).todo := by
      cases promote <;> rfl
    rw [hi]
    change pc'.slot ++ ((s.tasks i).setLab st.lab st.failed promote).todo =
      (s.tasks i).pc.slot ++ (s.tasks i).todo
    rw [htodo, hslot, hpc']
    cases addr with
    | none => rw [← hnone.1]; rfl
    | some dest => rfl
  · intro hdest
    rw [hi, hpc'] at *
    cases addr with
    | none => exact hnone.2.2 _ _
    | some dest =>
      obtain ⟨haligned, hsmall⟩ := hdest dest rfl
      exact ⟨hvisits, hvtbl, hsize, haligned, hsmall⟩

/-- **`copy`** and **`promote_object`**, with the header at hand. -/
theorem runAlloc
    (hpc : (s.tasks i).pc = .allocYoung slot obj vtblptr ∨
      (s.tasks i).pc = .promote slot obj vtblptr) : (s.run E i).Keeps (Next E H strict) := by
  have hinv := (h.tasks i).pc
  rcases hpc with hpc | hpc
  · rw [hpc] at hinv
    rcases halloc : allocObject E.fillers (bumpIn E false) (s.allocation i false)
      (sizeForVtblptr E.classes s.memory obj vtblptr) with ⟨addr, st⟩
    rw [run_allocYoung hpc rfl halloc]
    obtain ⟨blocks', h'⟩ := h.allocate hE false (.promote slot obj vtblptr) hinv.1 hinv.2
      (by rw [hpc]; rfl) (by rw [hpc]; rfl) halloc ⟨rfl, rfl, fun _ _ => hinv⟩
    exact .inr ⟨blocks', gray, h'⟩
  · rw [hpc] at hinv
    rcases halloc : allocObject E.fillers (bumpIn E true) (s.allocation i true)
      (sizeForVtblptr E.classes s.memory obj vtblptr) with ⟨_ | dest, st⟩
    · -- without memory in the old generation, the promotion has failed
      rw [run_promote hpc rfl halloc]
      refine .inl ⟨i, ?_⟩
      change (update s.tasks i _ i).promotionFailed = true
      rw [update_self]
      exact allocObject_failed halloc (.inr rfl)
    · rw [run_promote hpc rfl halloc]
      obtain ⟨blocks', h'⟩ := h.allocate hE true (.promote slot obj vtblptr) hinv.1 hinv.2
        (by rw [hpc]; rfl) (by rw [hpc]; rfl) halloc ⟨rfl, rfl, fun _ _ => hinv⟩
      exact .inr ⟨blocks', gray, h'⟩

/-- **The exchange of the header**: the copy is known to the others, or given up. -/
theorem runForward {c : Claim} (hpc : (s.tasks i).pc = .forward c) :
    (s.run E i).Keeps (Next E H strict) := by
  have hc : (s.tasks i).pc.claim = some c := by rw [hpc]; rfl
  have hclaim := (h.tasks i).claim hc
  have hobj := h.mem_objects hclaim.visits
  simp only [run, hpc, forwardSynchronized]
  by_cases hheader : s.memory c.obj = c.vtblptr
  · simp only [if_pos hheader]
    exact .inr ⟨_, _, (h.forwardWon hE hpc hheader).settle_setTask hE (by simp)⟩
  · simp only [if_neg hheader]
    obtain ⟨a, ha, hdvd, hword⟩ := (h.header_cases hE hobj).resolve_right fun hor =>
      hheader (hor.2.trans hclaim.vtblptr.symm)
    obtain ⟨blocks', hlost⟩ := h.forwardLost hE hpc
    rw [hword, forwardedTo_of_aligned hdvd]
    exact .inr ⟨blocks', gray, hlost.settle_setTask hE ha⟩

/-- **A step of a task**. -/
theorem run (hfailed : (s.tasks i).promotionFailed = false) (htimely : strict → Timely s (.run i)) :
    (s.run E i).Keeps (Next E H strict) := by
  cases hpc : (s.tasks i).pc with
  | idle => exact h.runIdle hE hpc
  | load slot obj => exact h.runLoad hE hpc hfailed
  | allocYoung slot obj vtblptr => exact h.runAlloc hE (.inl hpc)
  | promote slot obj vtblptr => exact h.runAlloc hE (.inr hpc)
  | copyTo c =>
    simp only [CopyTasks.run, hpc]
    refine .inr ⟨blocks, gray, h.makeCopy hE hpc fun hstrict => ?_⟩
    have htime : (s.tasks i).pc.Timely s.memory := htimely hstrict
    rwa [hpc] at htime
  | forward c => exact h.runForward hE hpc
  | fail slot obj vtblptr =>
    have hinv := (h.tasks i).pc
    rw [hpc] at hinv
    exact hinv.elim
  | done =>
    simp only [CopyTasks.run, hpc]
    trivial

/-- **A task takes a gray object**. -/
theorem take (k : ℕ) : (s.take E i k).Keeps (Next E H strict) := by
  unfold CopyTasks.take
  cases hk : s.gray[k]? with
  | none => trivial
  | some object =>
    by_cases hidle : (s.tasks i).pc = .idle ∧ (s.tasks i).todo = []
    swap
    · simp only [if_neg hidle]
      trivial
    obtain ⟨p, hp, rfl⟩ : ∃ p, gray[k]? = some p ∧ p.2 = object := by
      rw [h.gray_eq, List.getElem?_map] at hk
      exact Option.map_eq_some_iff.mp hk
    simp only [if_pos hidle, h.visit_copy hE (h.gray_mem p (List.mem_of_getElem? hp))]
    obtain ⟨t, ht⟩ : ∃ t, t = ({ s.tasks i with todo := H.fieldsOf p }) := ⟨_, rfl⟩
    rw [← ht]
    have hpc : t.pc = .idle := by rw [ht]; exact hidle.1
    have hlab : ∀ b, t.lab b = (s.tasks i).lab b := by
      intro b
      rw [ht]
      cases b <;> rfl
    refine .inr ⟨blocks, gray.eraseIdx k,
      h.of_keep hE 0 (CopyTask.hole_congr (by rw [hpc, hidle.1]) hlab)
      ?_ (fun _ hne => absurd rfl hne) (fun _ => h.graph_of_pending)
      (by rw [h.gray_eq, List.eraseIdx_map])
      (fun q hq => h.gray_mem q (List.mem_of_mem_eraseIdx hq))
      ⟨fun b => hlab b ▸ (h.tasks i).labs b, ?_⟩⟩
    · -- the fields are slots of the task now
      obtain ⟨hlt, hget⟩ := List.getElem?_eq_some_iff.mp hp
      have hperm : gray.Perm (p :: gray.eraseIdx k) := by
        rw [← hget]
        exact (List.getElem_cons_eraseIdx_perm hlt).symm
      have hflat := Multiset.coe_eq_coe.mpr (hperm.flatMap_right H.fieldsOf)
      have hnone : (s.tasks i).slots = [] := by
        rw [CopyTask.slots, hidle.1, hidle.2]
        rfl
      have hfields : t.slots = H.fieldsOf p := by
        rw [CopyTask.slots, hpc, ht]
        rfl
      rw [hnone, hfields, hflat, zero_add, List.flatMap_cons, ← Multiset.coe_add]
      rfl
    · rw [hpc]
      trivial

/-- **A task ends**. -/
theorem finish : (s.finish E i).Keeps (Next E H strict) := by
  unfold CopyTasks.finish
  dsimp only
  by_cases hend : s.gray = [] ∧ (∀ j, CopyTasks.Resting (s.tasks j)) ∧ (s.tasks i).pc = .idle
  swap
  · rw [if_neg hend]
    trivial
  rw [if_pos hend]
  obtain ⟨-, hrest, hpc⟩ := hend
  have htodo : (s.tasks i).todo = [] := (hrest i).1
  -- first the buffer in to-space, then the one in the old generation
  obtain ⟨m1, hm1⟩ : ∃ m1, m1 = fillRegion E.fillers s.memory (s.tasks i).youngLab.top
      (s.tasks i).youngLab.limit := ⟨_, rfl⟩
  rw [← hm1]
  obtain ⟨s1, hs1⟩ : ∃ s1, s1 = { s with memory := m1 }.setTask i
      { s.tasks i with youngLab := .new } := ⟨_, rfl⟩
  have hi1 : s1.tasks i = { s.tasks i with youngLab := .new } := by
    rw [hs1]
    exact update_self ..
  obtain ⟨blocks1, h1⟩ : ∃ blocks1, CopyInv E H strict s1 blocks1 gray := by
    refine h.fill hE false (by rw [hpc]; rfl) (by rw [hs1, hm1]; rfl) (by rw [hs1]; rfl)
      (by rw [hs1]; rfl) (by rw [hs1]; rfl) (fun j hj => ?_) (by rw [hi1]; rfl) (by rw [hi1]; rfl)
      (by rw [hi1]; rfl) ?_ ?_
    · rw [hs1]
      exact update_of_ne hj ..
    · rw [hi1]
      rw [hpc]
      rfl
    · rw [hi1]
      rw [hpc]
      trivial
  have hpc1 : (s1.tasks i).pc = .idle := by rw [hi1]; exact hpc
  obtain ⟨m2, hm2⟩ : ∃ m2, m2 = fillRegion E.fillers m1 (s.tasks i).oldLab.top
      (s.tasks i).oldLab.limit := ⟨_, rfl⟩
  rw [← hm2]
  obtain ⟨s2, hs2⟩ : ∃ s2, s2 = { s with memory := m2 }.setTask i
      { s.tasks i with pc := .done, youngLab := .new, oldLab := .new } := ⟨_, rfl⟩
  have hi2 : s2.tasks i = { s.tasks i with pc := .done, youngLab := .new, oldLab := .new } := by
    rw [hs2]
    exact update_self ..
  obtain ⟨blocks2, h2⟩ : ∃ blocks2, CopyInv E H strict s2 blocks2 gray := by
    refine h1.fill hE true (by rw [hpc1]; rfl) ?_ (by rw [hs1, hs2]; rfl)
      (by rw [hs1, hs2]; rfl) (by rw [hs1, hs2]; rfl) (fun j hj => ?_) (by rw [hi2]; rfl)
      (by rw [hi1, hi2]; rfl) ?_ (by rw [hi2]; rfl) ?_
    · rw [hi1, hs1, hs2, hm2]
      rfl
    · rw [hs1, hs2]
      exact (update_of_ne hj ..).trans (update_of_ne hj ..).symm
    · rw [hi1, hi2]
      change [] ++ (s.tasks i).todo = (s.tasks i).pc.slot ++ (s.tasks i).todo
      rw [hpc]
      rfl
    · rw [hi2]
      exact ⟨htodo, rfl, rfl⟩
  exact .inr ⟨blocks2, gray, hs2 ▸ h2⟩

/-- **Every step** keeps the invariant until a promotion fails. -/
theorem step {a : CopyAction ι} (hfailed : ¬PromotionFailed s) (htimely : strict → Timely s a) :
    (s.step E a).Keeps (Next E H strict) := by
  have hnot : ∀ i, (s.tasks i).promotionFailed = false := fun i =>
    Bool.eq_false_iff.mpr fun hi => hfailed ⟨i, hi⟩
  cases a with
  | run i => exact h.run hE (hnot i) htimely
  | take i k => exact h.take hE k
  | finish i => exact h.finish hE

end

end CopyInv

/-! ## The collection -/

section Collection

variable {old : OldGen n} {objects : Finset ℕ} {m : Memory}

/-- The tops at the start: to-space is empty. -/
def MinorHeap.tops (E : MinorHeap) (old : OldGen n) : Tops n := ⟨E.toSpace.start, old⟩

/-- **What the collection starts with**: objects in the young generation outside of to-space, an old
generation that can be walked, and slots that are outside of both, or references in old objects. -/
structure MinorHeap.Valid (E : MinorHeap) (old : OldGen n) (objects : Finset ℕ) (slots : Set ℕ)
    (m : Memory) : Prop where
  young : Objects E.classes E.young objects m
  vtbl_ne : ∀ o ∈ objects, m o ≠ 0
  fillers : E.fillers.WellFormed E.classes
  tops : (E.tops old).Valid E
  outside : ∀ o ∈ objects, ∀ a, SpanApart (o, o + size E.classes m o) ((E.tops old).bounds E a)
  iterable : ∀ r, Iterable E.classes m (old.span r).1 (old.span r).2
  refers : ∀ x ∈ slots, E.young.contains (m x) = true → m x ∈ objects
  apart : ∀ x ∈ slots, ∀ o ∈ objects, Apart x 1 o (size E.classes m o)
  places : ∀ x ∈ slots, (∀ a, x < ((E.tops old).bounds E a).1 ∨ ((E.tops old).bounds E a).2 ≤ x) ∨
      ∃ r, ∃ b ∈ Territory.pathBlocks (WalkStep E.classes m) (old.span r).1 (old.span r).2,
        m b.1 ≠ 0 ∧ ∃ k ∈ offsets E.classes m b.1, x = b.1 + k

namespace MinorHeap.Valid

variable {slots : Set ℕ}

/-- **The young objects** as a heap. -/
def heap (h : E.Valid old objects slots m) : Heap where
  toObjectGraph := objectGraph E.classes E.young slots m
  objects := objects
  forward a := a ||| 1
  reaches_mem _ ho := ho.subset (fun x hx hmov => h.refers x hx hmov)
    fun o _ ho k hk hmov => h.young.refers o ho k hk hmov
  offsets_pos o ho k hk := by
    have hbounds := ClassInstance.refOffsets_bounds (h.young.wellFormed o ho) hk
    omega
  offsets_lt o ho k hk := by
    have hbounds := ClassInstance.refOffsets_bounds (h.young.wellFormed o ho) hk
    have hlt : k < size E.classes m o := by rw [size_eq]; omega
    exact hlt
  size_pos o ho := by
    have hbounds := ClassInstance.objectSize_bounds (h.young.wellFormed o ho) (arrayLength m o)
    have hpos : 0 < size E.classes m o := by rw [size_eq]; omega
    exact hpos
  objects_apart := h.young.apart
  slots_apart := h.apart

theorem isMinorHeap (h : E.Valid old objects slots m) : IsMinorHeap E h.heap where
  size _ := rfl
  offsets _ := rfl
  movable _ := rfl
  forward _ := rfl
  wellFormed := h.young.wellFormed
  vtbl_ne := h.vtbl_ne
  vtbl_aligned := h.young.vtbl_aligned
  fillers := h.fillers

theorem path (h : E.Valid old objects slots m) (a : Option (Fin n)) :
    Relation.ReflTransGen (WalkStep E.classes m) ((E.tops old).space E a).1
      ((E.tops old).space E a).2 := by
  cases a with
  | none => exact .refl
  | some r => exact h.iterable r

/-- **The blocks at the start**: what the walks go over. -/
def walked (_ : E.Valid old objects slots m) : Set (ℕ × ℕ) :=
  ⋃ a, Territory.pathBlocks (WalkStep E.classes m) ((E.tops old).space E a).1
    ((E.tops old).space E a).2

theorem tight (h : E.Valid old objects slots m) (η : Type) :
    Territory.Tight (⟨(E.tops old).space E, fun _ => (0, 0), h.walked⟩ :
      Territory (Option (Fin n)) η) := by
  refine Territory.tight_of_paths (fun _ _ => WalkStep.lt) (fun _ _ _ => WalkStep.unique)
    (fun a b hab => ?_) h.path
  have hapart := h.tops.apart a b hab
  have ha := h.tops.le_stop a
  have hb := h.tops.le_stop b
  have hfst := (E.tops old).space_fst E a
  have hfst' := (E.tops old).space_fst E b
  unfold SpanApart at hapart ⊢
  omega

theorem slot_in_block (h : E.Valid old objects slots m) {x : ℕ} (hx : x ∈ slots) :
    (∀ a, x < ((E.tops old).bounds E a).1 ∨ ((E.tops old).bounds E a).2 ≤ x) ∨
      ∃ b ∈ h.walked, b.1 < x ∧ x < b.2 ∧ (x = b.1 + 16 → 16 ∈ offsets E.classes m b.1) := by
  refine (h.places x hx).imp_right ?_
  rintro ⟨r, b, hb, hne, k, hk, rfl⟩
  rcases hb.2.1 with ⟨hzero, -⟩ | ⟨-, -, hwf, hnext⟩
  · exact absurd hzero hne
  · have hbounds := ClassInstance.refOffsets_bounds hwf hk
    rw [size_eq] at hnext
    refine ⟨b, Set.mem_iUnion.mpr ⟨some r, hb⟩, by omega, by omega, fun hsixteen => ?_⟩
    obtain rfl : k = 16 := by omega
    exact hk

end MinorHeap.Valid

variable [Fintype ι] [DecidableEq ι] {slots : ι → List ℕ}

section

variable (h : E.Valid old objects {x | ∃ i, x ∈ slots i} m)
  (hnodup : (∑ i, (slots i : Multiset ℕ)).Nodup)
include h hnodup

/-- **The start**. -/
theorem CopyInv.start : CopyInv E h.heap strict (copySystem E m old slots).start h.walked [] := by
  obtain ⟨s, hs⟩ : ∃ s, s = (copySystem E m old slots).start := ⟨_, rfl⟩
  rw [← hs]
  have htasks : ∀ i, s.tasks i = ⟨.idle, slots i, .new, false, .new, false⟩ := by
    intro i
    rw [hs]
    rfl
  have hinside : ∀ b ∈ h.walked, ∃ a, ((E.tops old).bounds E a).1 ≤ b.1 ∧
      b.2 ≤ ((E.tops old).bounds E a).2 := by
    intro b hb
    obtain ⟨a, hlo, hhi⟩ := (h.tight Unit).block_inside b hb
    exact ⟨a, (E.tops old).space_fst E a ▸ hlo, hhi.trans (h.tops.le_stop a)⟩
  have hpending : s.pending h.heap [] = ∑ i, (slots i : Multiset ℕ) := by
    have hslots : ∀ i, (s.tasks i).slots = slots i := fun i => by rw [htasks]; rfl
    simp only [pending, hslots]
    exact add_zero _
  refine ⟨?_, by rw [hs]; rfl, by simp, ?_, by rw [hs]; exact h.tops,
    by rw [hs]; exact h.outside, ?_, ?_, ?_, ?_⟩
  · rw [hpending]
    have hinit := Evacuating.init h.heap hnodup fun x => by
      rw [Multiset.mem_sum]
      exact ⟨fun ⟨i, _, hi⟩ => ⟨i, hi⟩, fun ⟨i, hi⟩ => ⟨i, mem_univ i, hi⟩⟩
    rw [hs]
    exact hinit
  · have hholes : (fun k : ι × Option Bool => (s.tasks k.1).hole k.2) = fun _ => (0, 0) := by
      funext ⟨i, k⟩
      rw [htasks]
      cases k with
      | none => rfl
      | some promote => cases promote <;> rfl
    unfold territory
    rw [hholes, hs]
    exact h.tight _
  · intro x hx
    rw [hs]
    exact (h.slot_in_block hx).imp_right fun ⟨b, hb, hlo, hhi, _⟩ => ⟨b, hb, hlo.le, hhi⟩
  · intro p hp
    rw [hs] at hp
    cases hp
  · intro _ b hb
    obtain ⟨a, ha⟩ := Set.mem_iUnion.mp hb
    rw [hs]
    refine ⟨ha.2.1, fun x x0 hslot hlo hhi => ?_⟩
    rcases hslot with ⟨hx, -⟩ | ⟨p, hp, -⟩
    swap
    · cases hp
    rcases h.slot_in_block hx with hout | ⟨b', hb', hlo', hhi', hoff⟩
    · obtain ⟨a', halo, hahi⟩ := hinside b hb
      have hout' := hout a'
      omega
    · -- the slot is in one block
      obtain rfl : b = b' := by
        by_contra hne
        have hapart := (h.tight Unit).blocks b hb b' hb' hne
        unfold SpanApart at hapart
        omega
      exact ⟨hlo'.ne', hoff⟩
  · intro i
    rw [htasks]
    refine ⟨fun promote => ?_, trivial⟩
    cases promote <;> exact Lab.valid_new

theorem CopyInv.reachableUnder {P : CopyTasks ι n → CopyAction ι → Prop}
    (hP : strict → ∀ s a, P s a → Timely s a) (hs : (copySystem E m old slots).ReachableUnder P s) :
    CopyInv.Next E h.heap strict s := by
  induction hs with
  | start => exact .inr ⟨_, _, CopyInv.start h hnodup⟩
  | @next s s' _ a ha hstep ih =>
    change s.step E a = .next s' at hstep
    by_cases hfailed : PromotionFailed s
    · exact .inl (hfailed.step hstep)
    · obtain ⟨blocks, gray, hinv⟩ := ih.resolve_left hfailed
      have hkeeps := hinv.step h.isMinorHeap hfailed fun hstrict => hP hstrict s a ha
      rwa [hstep] at hkeeps

end

omit [DecidableEq ι] in
theorem CopyInv.pending_done (h : CopyInv E H strict s blocks gray) (hgray : s.gray = [])
    (hdone : ∀ i, (s.tasks i).pc = .done) : s.pending H gray = 0 := by
  have hslots : ∀ i, (s.tasks i).slots = [] := by
    intro i
    have hinv := (h.tasks i).pc
    rw [hdone i] at hinv
    rw [CopyTask.slots, hdone i, hinv.1]
    rfl
  have hnil : gray = [] := by
    have hmap := h.gray_eq
    rw [hgray] at hmap
    exact List.map_eq_nil_iff.mp hmap.symm
  unfold pending
  simp only [hslots, hnil]
  exact (add_zero _).trans (sum_eq_zero fun _ _ => rfl)

omit [DecidableEq ι] in
theorem CopyInv.iterable (h : CopyInv E H True s blocks gray) (hdone : ∀ i, (s.tasks i).pc = .done)
    (a : Option (Fin n)) :
    Iterable E.classes s.memory (s.tops.space E a).1 (s.tops.space E a).2 := by
  have hholes : ∀ k, ((s.territory E blocks).hole k).2 ≤ ((s.territory E blocks).hole k).1 := by
    rintro ⟨i, k⟩
    have hinv := (h.tasks i).pc
    rw [hdone i] at hinv
    have hclaim : (s.tasks i).pc.claim = none := by rw [hdone i]; rfl
    change ((s.tasks i).hole k).2 ≤ ((s.tasks i).hole k).1
    cases k with
    | none => rw [hole_none_of_claim_none hclaim]
    | some promote =>
      have hlab : (s.tasks i).lab promote = .new := by
        cases promote with
        | false => exact hinv.2.1
        | true => exact hinv.2.2
      rw [hole_of_claim_none hclaim, hlab]
      exact le_rfl
  exact (h.tight.walk hholes (h.tops.start_le a)).lift id fun x y hxy =>
    (h.solid trivial _ hxy).step

theorem gray_of_done (hs : (copySystem E m old slots).Reachable s)
    (hdone : ∀ i, (s.tasks i).pc = .done) : s.gray = [] := by
  have hended : Ended s ∧ (IsEmpty ι → s.gray = []) := by
    clear hdone
    induction hs with
    | start => exact ⟨fun ⟨i, hi⟩ => (nomatch hi), fun _ => rfl⟩
    | @next s s' _ a hstep ih =>
      refine ⟨ih.1.step hstep, fun hempty => ?_⟩
      cases a with
      | run i | take i k | finish i => exact hempty.elim i
  rcases isEmpty_or_nonempty ι with hempty | ⟨⟨i⟩⟩
  · exact hended.2 hempty
  · exact (hended.1 ⟨i, hdone i⟩).1

/-- **Each object is copied once**: in every run in which no promotion fails, no step fails, and
when all tasks have ended, each reachable young object has one forwarding address, the slots and the
copies hold the graph, and the spaces can be walked up to their tops if no copy of medium size was
made of an object that had been forwarded. -/
theorem parallel_minor_copies_once (h : E.Valid old objects {x | ∃ i, x ∈ slots i} m)
    (hnodup : (∑ i, (slots i : Multiset ℕ)).Nodup) {s : CopyTasks ι n}
    (hfailed : ¬PromotionFailed s) :
    ((copySystem E m old slots).Reachable s → (∀ a, s.step E a ≠ .fails) ∧
      ((∀ i, (s.tasks i).pc = .done) → (s.forwarded.map Prod.fst).Nodup ∧
        (∀ o, (objectGraph E.classes E.young {x | ∃ i, x ∈ slots i} m).Reaches o ↔
          o ∈ s.forwarded.map Prod.fst) ∧
        (∀ p ∈ s.forwarded, s.memory p.1 = p.2 ||| 1) ∧
        (objectGraph E.classes E.young {x | ∃ i, x ∈ slots i} m).Isomorphic (fun _ => True) s.memory
          (Copies.target s.forwarded))) ∧
    ((copySystem E m old slots).ReachableUnder Timely s → (∀ i, (s.tasks i).pc = .done) →
      Iterable E.classes s.memory E.toSpace.start s.tops.youngTop ∧
      ∀ r, Iterable E.classes s.memory (s.tops.old.span r).1 (s.tops.old.span r).2) := by
  constructor
  · intro hs
    obtain ⟨blocks, gray, hinv⟩ := (CopyInv.reachableUnder h hnodup False.elim
      hs.under).resolve_left hfailed
    refine ⟨fun a hfails => ?_, fun hdone => ?_⟩
    · have hkeeps := hinv.step h.isMinorHeap (a := a) hfailed False.elim
      rw [hfails] at hkeeps
      exact hkeeps
    · have hpending := hinv.pending_done (gray_of_done hs hdone) hdone
      obtain ⟨hiso, hreaches⟩ := (hpending ▸ hinv.graph).isomorphic
      exact ⟨hinv.graph.copies_nodup, hreaches, hinv.graph.header.1, hiso⟩
  · intro hs hdone
    have hnext : CopyInv.Next E h.heap True s :=
      CopyInv.reachableUnder h hnodup (fun _ _ _ => id) hs
    obtain ⟨blocks, gray, hinv⟩ := hnext.resolve_left hfailed
    exact ⟨hinv.iterable hdone none, fun r => hinv.iterable hdone (some r)⟩

end Collection

/-! ## An object of medium size -/

/-- Objects of 8192 bytes without references, and fillers. -/
def mediumClasses : Classes
  | 16 => ⟨.fixed headerSize, []⟩
  | 24 => ⟨.freeArray, []⟩
  | _ => ⟨.fixed 8192, []⟩

/-- To-space is the second half of the young generation. -/
def mediumHeap : MinorHeap where
  classes := mediumClasses
  fillers := ⟨16, 24⟩
  young := ⟨65536, 131072⟩
  toSpace := ⟨98304, 131072⟩
  semiStart := 98304
  ageMarker := 98304

/-- An old generation of one empty region. -/
def mediumOld : OldGen 1 where
  size := 0
  regions _ := ⟨⟨262144, 270336⟩, ⟨262144, 270336⟩, 262144, 262144⟩
  allocRegion := 0
  config := ⟨0, 0, 0, 0, 0, 0⟩

/-- The slots 8 and 16 refer to one object. -/
def mediumMemory : Memory := fun x =>
  if x = 8 ∨ x = 16 then 65536 else if x = 65536 then 32 else 0

/-- Each of two tasks has one of the slots. -/
def mediumSlots : Fin 2 → List ℕ := fun i => if i = 0 then [8] else [16]

def mediumSystem : System (CopyTasks (Fin 2) 1) (CopyAction (Fin 2)) :=
  copySystem mediumHeap mediumMemory mediumOld mediumSlots

theorem mediumHeap_valid :
    mediumHeap.Valid mediumOld {65536} {x | ∃ i, x ∈ mediumSlots i} mediumMemory := by
  have hslot : ∀ x ∈ {x | ∃ i, x ∈ mediumSlots i}, x = 8 ∨ x = 16 := by
    rintro x ⟨i, hi⟩
    unfold mediumSlots at hi
    split_ifs at hi
    · exact .inl (List.mem_singleton.mp hi)
    · exact .inr (List.mem_singleton.mp hi)
  have hsize : size mediumHeap.classes mediumMemory 65536 = 8192 := by decide +kernel
  have hbounds : ∀ a, (mediumHeap.tops mediumOld).bounds mediumHeap a =
      if a = none then (98304, 131072) else (262144, 270336) := by
    intro a
    cases a <;> rfl
  have hspace : ∀ a, (mediumHeap.tops mediumOld).space mediumHeap a =
      if a = none then (98304, 98304) else (262144, 262144) := by
    intro a
    cases a <;> rfl
  have hobj {P : ℕ → Prop} (h : P 65536) : ∀ o ∈ ({65536} : Finset ℕ), P o := by simpa using h
  refine ⟨⟨hobj (by decide), hobj (by decide), hobj (by decide), hobj (by decide +kernel), ?_,
    hobj (by rintro k ⟨⟩)⟩, hobj (by decide), ⟨by decide, by decide, rfl, by decide, by decide, rfl⟩,
    ⟨?_, ?_, ?_, ?_⟩, hobj fun a => ?_, fun r => .refl, ?_, fun x hx => hobj ?_, ?_⟩
  · exact hobj (hobj fun hne => absurd rfl hne)
  · intro a b hab
    rw [hbounds, hbounds]
    unfold SpanApart
    split_ifs with ha hb hb
    · exact absurd (ha.trans hb.symm) hab
    · decide
    · decide
    · obtain ⟨r, rfl⟩ := Option.ne_none_iff_exists'.mp ha
      obtain ⟨r', rfl⟩ := Option.ne_none_iff_exists'.mp hb
      exact absurd (congrArg some (Subsingleton.elim r r')) hab
  · intro a
    rw [hspace]
    split_ifs <;> exact le_rfl
  · intro a
    rw [hspace, hbounds]
    split_ifs <;> decide
  · intro a
    rw [hspace]
    split_ifs <;> decide
  · rw [hsize, hbounds]
    unfold SpanApart
    split_ifs <;> decide
  · intro x hx _
    rcases hslot x hx with rfl | rfl <;> decide
  · rcases hslot x hx with rfl | rfl <;> decide
  · intro x hx
    refine .inl fun a => ?_
    rw [hbounds]
    rcases hslot x hx with rfl | rfl <;> split_ifs <;> decide

theorem mediumSlots_nodup : (∑ i, (mediumSlots i : Multiset ℕ)).Nodup := by decide

/-- The first task copies the object, and the second one finds it forwarded. -/
def timelyRun : List (CopyAction (Fin 2)) :=
  [.run 0, .run 0, .run 0, .run 0, .run 0, .run 1, .run 1, .take 0 0, .finish 0, .finish 1]

theorem parallel_minor_copies_once_medium : ∃ s, mediumSystem.ReachableUnder Timely s ∧
    (s.forwarded.map Prod.fst).Nodup ∧
    Iterable mediumClasses s.memory 98304 s.tops.youngTop := by
  have hrun : (mediumSystem.runUnder Timely mediumSystem.start timelyRun).map (fun s =>
      decide ((∀ i, (s.tasks i).pc = .done) ∧ ∀ i, (s.tasks i).promotionFailed = false)) =
        some true := by
    decide +kernel
  obtain ⟨s, hs, hend⟩ := Option.map_eq_some_iff.mp hrun
  obtain ⟨hdone, hfailed⟩ := of_decide_eq_true hend
  have hreach : mediumSystem.ReachableUnder Timely s := System.ReachableUnder.start.run hs
  have hnot : ¬PromotionFailed s := by
    rintro ⟨i, hi⟩
    rw [hfailed i] at hi
    cases hi
  have hspec := parallel_minor_copies_once mediumHeap_valid mediumSlots_nodup hnot
  exact ⟨s, hreach, ((hspec.1 hreach.reachable).2 hdone).1, (hspec.2 hreach hdone).1⟩

/-- The second task makes its copy after the first one has forwarded the object. -/
def lateRun : List (CopyAction (Fin 2)) :=
  [.run 0, .run 0, .run 0, .run 1, .run 1, .run 1, .run 0, .run 0, .run 1, .run 1, .take 0 0,
    .finish 0, .finish 1]

/-- **A late copy** of medium size: nothing fails, and to-space is not iterable. -/
theorem not_iterable_late_copy : ∃ s, mediumSystem.Reachable s ∧ ¬PromotionFailed s ∧
    (∀ i, (s.tasks i).pc = .done) ∧
    ¬Iterable mediumClasses s.memory mediumHeap.toSpace.start s.tops.youngTop := by
  have hrun : (mediumSystem.run mediumSystem.start lateRun).map (fun s =>
      decide ((∀ i, (s.tasks i).pc = .done) ∧ (∀ i, (s.tasks i).promotionFailed = false) ∧
        WalkStep mediumClasses s.memory 98304 106496 ∧ s.memory 106496 = 98305 ∧
        s.tops.youngTop = 114688)) = some true := by
    decide +kernel
  obtain ⟨s, hs, hend⟩ := Option.map_eq_some_iff.mp hrun
  obtain ⟨hdone, hfailed, hfirst, hheader, htop⟩ := of_decide_eq_true hend
  have hnot : ¬PromotionFailed s := by
    rintro ⟨i, hi⟩
    rw [hfailed i] at hi
    cases hi
  refine ⟨s, System.Reachable.start.run hs, hnot, hdone, fun hwalk => ?_⟩
  rw [htop] at hwalk
  -- the walk comes to the copy that lost, whose header is no vtable
  rcases hwalk.cases_head with heq | ⟨y, hstep, hrest⟩
  · cases heq
  obtain rfl := hstep.unique hfirst
  rcases hrest.cases_head with heq | ⟨z, hstep', -⟩
  · cases heq
  · rcases hstep' with ⟨hzero, -⟩ | ⟨-, hdvd, -⟩
    · rw [hheader] at hzero
      cases hzero
    · rw [hheader] at hdvd
      omega

end Dora.Gc
