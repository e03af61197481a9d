import Mathlib.Algebra.Order.BigOperators.Group.Finset
import Dora.Gc.ParallelMarking

/-!
# Parallel marking ends when everything is marked

The counter of the terminator is the number of tasks that have not given up. A task gives up with
empty queues, and while there is something in the injector, some task will look there. Every marked
object is in a queue, or with a task, or all its references are marked.

## Main definitions

* `MarkingInv`: this invariant

## Main results

* `markingStep_keeps`, `markingInv_of_reachable`: every step and every run keeps it
* `marking_terminates_soundly`: when a task has returned, everything is marked
-/

namespace Dora.Gc

open Function (update update_of_ne update_self)
open List Fintype

open Finset

attribute [local simp] MarkingTask.goto

variable {ι α : Type}

namespace MarkingPc

/-- The task will look into the injector before it gives up. -/
@[simp]
def Looks : MarkingPc α → Prop
  | popLocal | popWorker | popGlobal | trace _ _ | mark _ _ _ | push _ _ _ | share _ _ _ => True
  | _ => False

/-- Whether the counter of the terminator includes the task. -/
@[simp]
def active : MarkingPc α → ℕ
  | load | increase _ | returned => 0
  | _ => 1

/-- The object whose references the task visits, and those that it has still to see. -/
@[simp]
def visiting : MarkingPc α → Option (α × List α)
  | trace object rest | push object _ rest | share object _ rest => some (object, rest)
  | mark object field rest => some (object, field :: rest)
  | _ => none

/-- The object that the task has marked and not yet pushed. -/
@[simp]
def marked : MarkingPc α → Option α
  | push _ field _ => some field
  | _ => none

/-- The task has given up for good, or will do so with its next step. -/
@[simp]
def Ends : MarkingPc α → Prop
  | returned | increase 0 => True
  | _ => False

theorem eq_zero_of_ends {n : ℕ} (h : (increase n : MarkingPc α).Ends) : n = 0 := by
  cases n with
  | zero => rfl
  | succ n => exact h.elim

/-- The task has no object in its hands. -/
@[simp]
def Idle (pc : MarkingPc α) : Prop := pc.marked = none ∧ pc.visiting = none

end MarkingPc

/-- All references of the object are marked. -/
def MarkingHeap.Scanned (H : MarkingHeap α) (marks : α → Bool) (o : α) : Prop :=
  ∀ c ∈ H.fields o, H.contains c = true → marks c = true

namespace MarkingTask

/-- The queues of the task are empty as far as it has found them so. -/
@[simp]
def Emptied (t : MarkingTask α) : Prop :=
  match t.pc with
  | .popLocal | .trace _ _ | .mark _ _ _ | .push _ _ _ | .share _ _ _ => True
  | .popWorker => t.segment = []
  | _ => t.segment = [] ∧ t.worker = []

/-- The task accounts for the object: it has it in a queue, or it has just marked it, or it visits
its references. -/
inductive Covers (H : MarkingHeap α) (marks : α → Bool) (t : MarkingTask α) (o : α) : Prop
  | segment (h : o ∈ t.segment)
  | worker (h : o ∈ t.worker)
  | marked (h : t.pc.marked = some o)
  | visiting (rest : List α) (h : t.pc.visiting = some (o, rest))
      (hrest : ∀ c ∈ H.fields o, H.contains c = true → marks c = true ∨ c ∈ rest)

theorem Covers.mono {H : MarkingHeap α} {marks marks' : α → Bool} {t : MarkingTask α} {o : α}
    (h : t.Covers H marks o) (hmarks : ∀ o, marks o = true → marks' o = true) :
    t.Covers H marks' o := by
  rcases h with h | h | h | ⟨rest, h, hrest⟩
  · exact .segment h
  · exact .worker h
  · exact .marked h
  · exact .visiting rest h fun c hc hcon => (hrest c hc hcon).imp_left (hmarks c)

variable {H : MarkingHeap α} {marks : α → Bool} {t : MarkingTask α} {o object : α}

@[simp]
theorem goto_pc (t : MarkingTask α) (pc : MarkingPc α) : (t.goto pc).pc = pc := rfl

@[simp]
theorem visit_pc : (t.visit H object).pc = .trace object (H.fields object) := rfl

theorem Covers.mem (h : t.Covers H marks o) (hidle : t.pc.Idle) : o ∈ t.segment ∨ o ∈ t.worker := by
  rcases h with h | h | h | ⟨rest, h, -⟩
  · exact .inl h
  · exact .inr h
  · cases hidle.1.symm.trans h
  · cases hidle.2.symm.trans h

theorem Covers.goto (h : t.Covers H marks o) (hidle : t.pc.Idle) (pc : MarkingPc α) :
    (t.goto pc).Covers H marks o := by
  rcases h.mem hidle with hin | hin
  · exact .segment hin
  · exact .worker hin

/-- A task that goes on with the references of its object. -/
theorem Covers.visits {t' : MarkingTask α} {pc : MarkingPc α} {marks' : α → Bool}
    {rest rest' : List α} (h : t.Covers H marks o) (hpc : t.pc = pc)
    (hvisits : (pc.marked, pc.visiting) = (none, some (object, rest)))
    (hvisits' : (t'.pc.visiting, t'.worker) = (some (object, rest'), t.worker))
    (hsegment : o ∈ t.segment → o ∈ t'.segment)
    (hrest : ∀ c, H.contains c = true → marks c = true ∨ c ∈ rest → marks' c = true ∨ c ∈ rest') :
    t'.Covers H marks' o := by
  subst hpc
  obtain ⟨hmarked, hvisiting⟩ := Prod.mk.inj hvisits
  obtain ⟨hvisiting', hworker⟩ := Prod.mk.inj hvisits'
  rcases h with h | h | h | ⟨rest, h, hseen⟩
  · exact .segment (hsegment h)
  · exact .worker (hworker ▸ h)
  · cases hmarked.symm.trans h
  · cases hvisiting.symm.trans h
    exact .visiting rest' hvisiting' fun c hc hcon => hrest c hcon (hseen c hc hcon)

theorem covers_visit : (t.visit H object).Covers H marks object :=
  .visiting _ rfl fun _ hc _ => .inr hc

end MarkingTask

/-- **The invariant**, with the mark bits at the beginning. -/
structure MarkingInv [Fintype ι] (H : MarkingHeap α) (roots : List α) (marks0 : α → Bool)
    (s : MarkingState ι α) : Prop where
  emptied : ∀ i, (s.tasks i).Emptied
  active : card ι ≠ 1 → s.nworkers = ∑ i, (s.tasks i).pc.active
  injector : s.injector ≠ [] → ∃ i, (s.tasks i).pc.Looks
  ends : ∀ i, (s.tasks i).pc.Ends → card ι = 1 ∨ s.nworkers = 0
  covered : ∀ o, s.marks o = true → marks0 o = true ∨ o ∈ s.injector ∨
    (∃ i, (s.tasks i).Covers H s.marks o) ∨ H.Scanned s.marks o
  kept : ∀ o, marks0 o = true → s.marks o = true
  roots : ∀ o ∈ roots, H.contains o = true → s.marks o = true

section Steps

variable [Fintype ι] [DecidableEq ι] {H : MarkingHeap α} {roots : List α} {marks0 : α → Bool}
  {s : MarkingState ι α} {i : ι}

section

variable (h : MarkingInv H roots marks0 s)
include h

variable {s' : MarkingState ι α}

/-- **A step**: the task `i` moves, and of the other tasks at most the queues change. -/
theorem MarkingInv.step
    (hpc : ∀ j, j ≠ i → (s'.tasks j).pc = (s.tasks j).pc) (hemptied : ∀ j, (s'.tasks j).Emptied)
    (hactive : card ι ≠ 1 →
      s'.nworkers + (s.tasks i).pc.active = s.nworkers + (s'.tasks i).pc.active)
    (hinjector : s'.injector ≠ [] → (s'.tasks i).pc.Looks ∨ s.injector ≠ [] ∧ ¬(s.tasks i).pc.Looks)
    (hends : (s'.tasks i).pc.Ends → card ι = 1 ∨ s'.nworkers = 0)
    (hzero : s.nworkers = 0 → s'.nworkers = 0) (hmarks : ∀ o, s.marks o = true → s'.marks o = true)
    (hnew : ∀ o, s'.marks o = true → s.marks o = true ∨ (s'.tasks i).Covers H s'.marks o)
    (hqueue : ∀ o ∈ s.injector, o ∈ s'.injector ∨ (s'.tasks i).Covers H s'.marks o)
    (hcovers : ∀ j o, (s.tasks j).Covers H s.marks o → o ∈ s'.injector ∨
      (∃ k, (s'.tasks k).Covers H s'.marks o) ∨ H.Scanned s'.marks o) :
    MarkingInv H roots marks0 s' := by
  refine ⟨hemptied, fun hcard => ?_, fun hne => ?_, fun j hj => ?_, fun o ho => ?_,
    fun o ho => hmarks o (h.kept o ho), fun o ho hcon => hmarks o (h.roots o ho hcon)⟩
  · have hsum := sum_change (g := fun j => (s'.tasks j).pc.active) fun j hj => by rw [hpc j hj]
    have hold := h.active hcard
    omega
  · rcases hinjector hne with hlooks | ⟨hold, hnot⟩
    · exact ⟨i, hlooks⟩
    · -- another task looks into the injector
      obtain ⟨j, hj⟩ := h.injector hold
      have hji : j ≠ i := by
        rintro rfl
        exact hnot hj
      exact ⟨j, by rw [hpc j hji]; exact hj⟩
  · by_cases hji : j = i
    · exact hends (hji ▸ hj)
    · rw [hpc j hji] at hj
      exact (h.ends j hj).imp_right hzero
  · rcases hnew o ho with hold | hcov
    · rcases h.covered o hold with h0 | hin | ⟨j, hj⟩ | hscanned
      · exact .inl h0
      · rcases hqueue o hin with hin' | hcov
        · exact .inr (.inl hin')
        · exact .inr (.inr (.inl ⟨i, hcov⟩))
      · exact .inr (hcovers j o hj)
      · exact .inr (.inr (.inr fun c hc hcon => hmarks c (hscanned c hc hcon)))
    · exact .inr (.inr (.inl ⟨i, hcov⟩))

variable {t : MarkingTask α}

theorem MarkingInv.update {marks : α → Bool} {injector : List α} {nworkers : ℕ}
    (hemptied : t.Emptied)
    (hactive : card ι ≠ 1 → nworkers + (s.tasks i).pc.active = s.nworkers + t.pc.active)
    (hinjector : injector ≠ [] → t.pc.Looks ∨ s.injector ≠ [] ∧ ¬(s.tasks i).pc.Looks)
    (hends : t.pc.Ends → card ι = 1 ∨ nworkers = 0) (hzero : s.nworkers = 0 → nworkers = 0)
    (hmarks : ∀ o, s.marks o = true → marks o = true)
    (hnew : ∀ o, marks o = true → s.marks o = true ∨ t.Covers H marks o)
    (hqueue : ∀ o ∈ s.injector, o ∈ injector ∨ t.Covers H marks o)
    (hcovers : ∀ o, (s.tasks i).Covers H s.marks o →
      o ∈ injector ∨ t.Covers H marks o ∨ H.Scanned marks o) :
    MarkingInv H roots marks0 ({ s with marks, injector, nworkers }.setTask i t) := by
  generalize hs' : { s with marks, injector, nworkers }.setTask i t = s'
  have hself : s'.tasks i = t := by
    subst hs'
    exact update_self ..
  have hother : ∀ j, j ≠ i → s'.tasks j = s.tasks j := by
    subst hs'
    exact fun j hj => update_of_ne hj ..
  obtain ⟨rfl, rfl, rfl⟩ : marks = s'.marks ∧ injector = s'.injector ∧ nworkers = s'.nworkers := by
    subst hs'
    exact ⟨rfl, rfl, rfl⟩
  refine h.step (fun j hj => by rw [hother j hj]) (fun j => ?_) (by rwa [hself])
    (by rwa [hself]) (by rwa [hself]) hzero hmarks (by rwa [hself]) (by rwa [hself])
    (fun j o hj => ?_)
  · by_cases hji : j = i
    · rw [hji, hself]
      exact hemptied
    · rw [hother j hji]
      exact h.emptied j
  · by_cases hji : j = i
    · subst hji
      exact (hcovers o hj).imp_right fun hcov => hcov.imp_left fun hcov => ⟨j, by rwa [hself]⟩
    · exact .inr (.inl ⟨j, by rw [hother j hji]; exact hj.mono hmarks⟩)

/-- A step that changes neither the mark bits nor the injector nor the counter. -/
theorem MarkingInv.setTask {pc : MarkingPc α} (hpc : (s.tasks i).pc = pc)
    (hmove : t.Emptied ∧ t.pc.active = pc.active ∧ (s.injector ≠ [] → pc.Looks → t.pc.Looks) ∧
      (t.pc.Ends → card ι = 1 ∨ s.nworkers = 0))
    (hcovers : ∀ o, (s.tasks i).Covers H s.marks o → t.Covers H s.marks o ∨ H.Scanned s.marks o) :
    MarkingInv H roots marks0 (s.setTask i t) := by
  subst hpc
  obtain ⟨hemptied, hactive, hlooks, hends⟩ := hmove
  refine h.update hemptied (fun _ => by rw [hactive]) (fun hne => ?_) hends id (fun _ => id)
    (fun _ => .inl) (fun _ => .inl) fun o ho => .inr (hcovers o ho)
  by_cases hl : (s.tasks i).pc.Looks
  · exact .inl (hlooks hne hl)
  · exact .inr ⟨hne, hl⟩

/-- A step of a task that has no object in its hands. -/
theorem MarkingInv.goto {pc pc' : MarkingPc α} (hpc : (s.tasks i).pc = pc)
    (hmove : ((s.tasks i).Emptied → ((s.tasks i).goto pc').Emptied) ∧ pc.Idle ∧
      pc'.active = pc.active ∧ (s.injector ≠ [] → pc.Looks → pc'.Looks))
    (hends : pc'.Ends → card ι = 1 ∨ s.nworkers = 0) :
    MarkingInv H roots marks0 (s.setTask i ((s.tasks i).goto pc')) := by
  obtain ⟨hemptied, hidle, hactive, hlooks⟩ := hmove
  exact h.setTask hpc ⟨hemptied (h.emptied i), hactive, hlooks, hends⟩
    fun _ ho => .inl (ho.goto (hpc ▸ hidle) pc')

/-- The task `i` takes objects from the deque of the task `v` and begins with one of them. -/
theorem MarkingInv.of_theft {v : ι} {object : α} {worker rest : List α}
    (hne : v ≠ i) (hsame : (s'.marks, s'.injector, s'.nworkers) = (s.marks, s.injector, s.nworkers))
    (hi : s'.tasks i = t) (hv : s'.tasks v = { s.tasks v with worker })
    (hother : ∀ j, j ≠ v → j ≠ i → s'.tasks j = s.tasks j) (hactive : (s.tasks i).pc.active = 1)
    (hpc : t.pc = .trace object rest) (hnonempty : (s.tasks v).worker ≠ [])
    (hcovers : ∀ o, (s.tasks i).Covers H s.marks o → t.Covers H s.marks o)
    (hstolen : ∀ o ∈ (s.tasks v).worker, t.Covers H s.marks o ∨ o ∈ worker) :
    MarkingInv H roots marks0 s' := by
  obtain ⟨hmarks, hinjector, hnworkers⟩ : s'.marks = s.marks ∧ s'.injector = s.injector ∧
      s'.nworkers = s.nworkers := by simpa using hsame
  refine h.step (i := i) (fun j hj => ?_) (fun j => ?_) (fun _ => ?_) (fun _ => .inl ?_)
    (fun hends => ?_) (by rw [hnworkers]; exact id) (by rw [hmarks]; exact fun _ => id)
    (by rw [hmarks]; exact fun o ho => .inl ho) (by rw [hinjector]; exact fun o ho => .inl ho)
    (fun j o hj => .inr (.inl ?_))
  · by_cases hjv : j = v
    · rw [hjv, hv]
    · rw [hother j hjv hj]
  · by_cases hji : j = i
    · rw [hji, hi]
      simp [hpc]
    · by_cases hjv : j = v
      · -- the place of a task whose deque is not empty does not say that it is
        have hemptied := h.emptied v
        cases hpcv : (s.tasks v).pc <;> simp_all
      · rw [hother j hjv hji]
        exact h.emptied j
  · rw [hnworkers, hactive, hi, hpc]
    rfl
  · rw [hi, hpc]
    trivial
  · rw [hi, hpc] at hends
    exact absurd hends id
  · rw [hmarks]
    by_cases hji : j = i
    · subst hji
      exact ⟨j, hi ▸ hcovers o hj⟩
    · by_cases hjv : j = v
      · subst hjv
        rcases hj with ho | ho | ho | ⟨rest, hvis, hrest⟩
        · exact ⟨j, hv ▸ .segment ho⟩
        · rcases hstolen o ho with hcov | hin
          · exact ⟨i, hi ▸ hcov⟩
          · exact ⟨j, hv ▸ .worker hin⟩
        · exact ⟨j, hv ▸ .marked ho⟩
        · exact ⟨j, hv ▸ .visiting rest hvis hrest⟩
      · exact ⟨j, hother j hjv hji ▸ hj⟩

end

/-! ### Queues -/

section Queues

variable [DecidableEq α] {a : MarkingAction ι}

theorem popLocal_keeps (h : MarkingInv H roots marks0 s) (hpc : (s.tasks a.task).pc = .popLocal) :
    (markingStep H (card ι) s a).Keeps (MarkingInv H roots marks0) := by
  simp only [markingStep, hpc]
  cases hseg : (s.tasks a.task).segment with
  | nil =>
    exact h.goto hpc (by simp [hseg]) (by simp)
  | cons object segment =>
    refine h.setTask hpc (by simp) fun o ho => .inl ?_
    rcases ho.mem (by simp [hpc]) with hin | hin
    · rw [hseg] at hin
      rcases mem_cons.mp hin with rfl | hin
      · exact MarkingTask.covers_visit
      · exact .segment hin
    · exact .worker hin

theorem popWorker_keeps (h : MarkingInv H roots marks0 s) (hpc : (s.tasks a.task).pc = .popWorker) :
    (markingStep H (card ι) s a).Keeps (MarkingInv H roots marks0) := by
  have hseg : (s.tasks a.task).segment = [] := by simpa [hpc] using h.emptied a.task
  simp only [markingStep, hpc]
  cases hworker : (s.tasks a.task).worker with
  | nil =>
    exact h.goto hpc (by simp [hpc, hworker]) (by simp)
  | cons object worker =>
    refine h.setTask hpc (by simp) fun o ho => .inl ?_
    rcases ho.mem (by simp [hpc]) with hin | hin
    · exact .segment hin
    · rw [hworker] at hin
      rcases mem_cons.mp hin with rfl | hin
      · exact MarkingTask.covers_visit
      · exact .worker hin

omit [Fintype ι] [DecidableEq ι] [DecidableEq α] in
theorem covers_batch {t : MarkingTask α} {object o : α} {rest : List α} {n : ℕ}
    (ho : o ∈ object :: rest.take n ∨ o ∈ t.segment ∨ o ∈ t.worker) :
    ({ t with worker := rest.take n ++ t.worker }.visit H object).Covers H s.marks o := by
  rcases ho with ho | ho | ho
  · rcases mem_cons.mp ho with rfl | ho
    · exact MarkingTask.covers_visit
    · exact .worker (mem_append_left _ ho)
  · exact .segment ho
  · exact .worker (mem_append_right _ ho)

omit [DecidableEq α] in
theorem mem_take_or_drop {object o : α} {rest : List α} (n : ℕ) (ho : o ∈ object :: rest) :
    o ∈ object :: rest.take n ∨ o ∈ rest.drop n := by
  rw [← take_append_drop n rest] at ho
  rcases mem_cons.mp ho with rfl | ho
  · exact .inl mem_cons_self
  · exact (mem_append.mp ho).imp_left (mem_cons_of_mem _)

theorem popGlobal_keeps (h : MarkingInv H roots marks0 s) (hpc : (s.tasks a.task).pc = .popGlobal) :
    (markingStep H (card ι) s a).Keeps (MarkingInv H roots marks0) := by
  simp only [markingStep, hpc]
  by_cases hretry : a.retry = true
  · rw [if_pos hretry]
    exact h
  rw [if_neg hretry]
  cases hinj : s.injector with
  | nil =>
    -- the task has seen the injector empty, and need not look again
    exact h.goto hpc (by simp [hpc, hinj]) (by simp)
  | cons object rest =>
    refine h.update trivial (fun _ => by rw [hpc]; rfl) (fun _ => .inl trivial)
      (by simp) id (fun _ => id) (fun _ => .inl) (fun o ho => ?_) fun o ho => ?_
    · rw [hinj] at ho
      rcases mem_take_or_drop a.batch ho with ho | ho
      · exact .inr (covers_batch (.inl ho))
      · exact .inl ho
    · exact .inr (.inl (covers_batch (.inr (ho.mem (by simp [hpc])))))

theorem steal_keeps {rounds : ℕ} (h : MarkingInv H roots marks0 s)
    (hpc : (s.tasks a.task).pc = .steal rounds) :
    (markingStep H (card ι) s a).Keeps (MarkingInv H roots marks0) := by
  simp only [markingStep, hpc]
  by_cases hgive : card ι = 1 ∨ rounds = 0
  · rw [if_pos hgive]
    exact h.goto hpc (by simp [hpc]) (by simp)
  rw [if_neg hgive]
  by_cases hagain : a.victim = a.task ∨ a.retry = true
  · rw [if_pos hagain]
    exact h
  rw [if_neg hagain]
  cases hvictim : (s.tasks a.victim).worker.reverse with
  | nil =>
    exact h.goto hpc (by simp [hpc]) (by simp)
  | cons object rest =>
    have hne : a.victim ≠ a.task := fun he => hagain (.inl he)
    have hbatch : ∀ o ∈ (s.tasks a.victim).worker,
        o ∈ object :: rest.take a.batch ∨ o ∈ (rest.drop a.batch).reverse := by
      intro o ho
      rw [← mem_reverse, hvictim] at ho
      exact (mem_take_or_drop a.batch ho).imp_right mem_reverse.mpr
    have hnonempty : (s.tasks a.victim).worker ≠ [] := by
      intro hnil
      simp [hnil] at hvictim
    refine h.of_theft hne rfl (update_self ..)
      ((update_of_ne hne ..).trans (update_self ..)) (fun j hj hji => ?_)
      (by simp [hpc]) rfl hnonempty (fun o ho => ?_) fun o ho => ?_
    · exact (update_of_ne hji ..).trans (update_of_ne hj ..)
    · exact covers_batch (.inr (ho.mem (by simp [hpc])))
    · exact (hbatch o ho).imp_left fun hin => covers_batch (.inl hin)

/-! ### Objects -/

section

variable (h : MarkingInv H roots marks0 s)
include h

variable {rest : List α} {object : α}

theorem trace_keeps (hpc : (s.tasks a.task).pc = .trace object rest) :
    (markingStep H (card ι) s a).Keeps (MarkingInv H roots marks0) := by
  cases rest with
  | nil =>
    -- all references of the object have been seen
    simp only [markingStep, hpc]
    refine h.setTask hpc (by simp) fun o ho => ?_
    rcases ho with ho | ho | ho | ⟨rest, hvis, hrest⟩
    · exact .inl (.segment ho)
    · exact .inl (.worker ho)
    · simp [hpc] at ho
    · obtain ⟨rfl, rfl⟩ : object = o ∧ [] = rest := by simpa [hpc] using hvis
      exact .inr fun c hc hcon => (hrest c hc hcon).resolve_right (by simp)
  | cons field rest =>
    simp only [markingStep, hpc]
    by_cases hmark : H.contains field = true ∧ s.marks field = false
    · rw [if_pos hmark]
      refine h.setTask hpc (by simp) fun o ho => .inl ?_
      exact ho.visits hpc rfl rfl id fun _ _ => id
    · rw [if_neg hmark]
      refine h.setTask hpc (by simp) fun o ho => .inl ?_
      refine ho.visits hpc rfl rfl id fun c hcon hc => ?_
      rcases hc with hc | hc
      · exact .inl hc
      · rcases mem_cons.mp hc with rfl | hc
        · exact .inl (by simpa [hcon] using hmark)
        · exact .inr hc

theorem mark_keeps {field : α} (hpc : (s.tasks a.task).pc = .mark object field rest) :
    (markingStep H (card ι) s a).Keeps (MarkingInv H roots marks0) := by
  have hmarks : ∀ o, s.marks o = true → update s.marks field true o = true := by
    intro o ho
    by_cases hof : o = field
    · rw [hof, update_self]
    · rwa [update_of_ne hof]
  simp only [markingStep, hpc]
  refine h.update trivial (fun _ => by rw [hpc]; rfl) (fun _ => .inl trivial)
    (by simp) id hmarks (fun o ho => ?_) (fun _ => .inl) fun o ho => .inr (.inl ?_)
  · by_cases hof : o = field
    · exact .inr (.marked (by rw [hof]; rfl))
    · rw [update_of_ne hof] at ho
      exact .inl ho
  · refine ho.visits hpc rfl rfl id fun c _ hc => ?_
    rcases hc with hc | hc
    · exact .inl (hmarks c hc)
    · rcases mem_cons.mp hc with rfl | hc
      · exact .inl (update_self ..)
      · exact .inr hc

omit [Fintype ι] [DecidableEq ι] [DecidableEq α] h in
/-- What a push leaves: the object is in a queue, and the task goes on with its references. -/
theorem push_spec (t : MarkingTask α) (object field : α) (rest : List α) :
    (t.push object field rest).pc.visiting = some (object, rest) ∧
      (t.push object field rest).Emptied ∧ (t.push object field rest).pc.active = 1 ∧
      (t.push object field rest).pc.Looks ∧ ¬(t.push object field rest).pc.Ends ∧
      ∀ o, o = field ∨ o ∈ t.segment ∨ o ∈ t.worker →
        o ∈ (t.push object field rest).segment ∨ o ∈ (t.push object field rest).worker := by
  unfold MarkingTask.push
  split
  · refine ⟨?_, ?_, ?_, ?_, ?_, ?_⟩ <;> dsimp only <;> split
    all_goals try split
    all_goals simp
    all_goals tauto
  · simp
    tauto

theorem push_keeps {field : α} (hpc : (s.tasks a.task).pc = .push object field rest) :
    (markingStep H (card ι) s a).Keeps (MarkingInv H roots marks0) := by
  obtain ⟨hvis, hemptied, hactive, hlooks, hends, hmem⟩ :=
    push_spec (s.tasks a.task) object field rest
  simp only [markingStep, hpc]
  refine h.setTask hpc ⟨hemptied, hactive, fun _ _ => hlooks, fun he => absurd he hends⟩
    fun o ho => .inl ?_
  rcases ho with ho | ho | ho | ⟨rest', hvis', hrest⟩
  · exact (hmem o (.inr (.inl ho))).elim .segment .worker
  · exact (hmem o (.inr (.inr ho))).elim .segment .worker
  · have hof : o = field := by simpa [hpc, eq_comm] using ho
    exact (hmem o (.inl hof)).elim .segment .worker
  · obtain ⟨rfl, rfl⟩ : object = o ∧ rest = rest' := by simpa [hpc] using hvis'
    exact .visiting rest hvis hrest

theorem share_keeps {targetLen : ℕ} (hpc : (s.tasks a.task).pc = .share object targetLen rest) :
    (markingStep H (card ι) s a).Keeps (MarkingInv H roots marks0) := by
  have hend : MarkingInv H roots marks0 (s.setTask a.task
      ({ s.tasks a.task with marked := 0 }.goto (.trace object rest))) := by
    refine h.setTask hpc (by simp) fun o ho => .inl ?_
    exact ho.visits hpc rfl rfl id fun _ _ => id
  simp only [markingStep, hpc]
  split
  next value segment hseg =>
    split
    next =>
      refine h.update (by simp) (fun _ => by simp [hpc]) (fun _ => .inl (by simp)) (by simp) id
        (fun _ => id) (fun _ => .inl) (fun _ ho => .inl (mem_append_left _ ho)) fun o ho => ?_
      by_cases hvalue : o = value
      · exact .inl (List.mem_append_right _ (List.mem_singleton.mpr hvalue))
      · refine .inr (.inl (ho.visits hpc rfl rfl (fun hin => ?_) fun _ _ => id))
        rw [hseg] at hin
        exact (List.mem_cons.mp hin).resolve_left hvalue
    next => exact hend
  next => exact hend

end

/-! ### Giving up -/

section

variable (h : MarkingInv H roots marks0 s)
include h

omit [DecidableEq ι] [DecidableEq α] in
theorem MarkingInv.active_pos (hcard : card ι ≠ 1) (hactive : (s.tasks i).pc.active = 1) :
    0 < s.nworkers := by
  rw [h.active hcard]
  have hle := single_le_sum (f := fun j => (s.tasks j).pc.active) (fun j _ => Nat.zero_le _)
    (mem_univ i)
  simp only [hactive] at hle
  exact hle

theorem tryTerminate_keeps (hpc : (s.tasks a.task).pc = .tryTerminate) :
    (markingStep H (card ι) s a).Keeps (MarkingInv H roots marks0) := by
  have hempty := h.emptied a.task
  simp only [MarkingTask.Emptied, hpc] at hempty
  have hcovers := fun o (ho : (s.tasks a.task).Covers H s.marks o) pc =>
    ho.goto (by simp [hpc]) pc
  simp only [markingStep, hpc]
  by_cases hcard : card ι = 1
  · rw [if_pos hcard]
    exact h.update hempty (fun hne => absurd hcard hne) (fun hne => .inr ⟨hne, by simp [hpc]⟩)
      (fun _ => .inl hcard) id (fun _ => id) (fun _ => .inl) (fun _ => .inl)
      fun o ho => .inr (.inl (hcovers o ho _))
  · rw [if_neg hcard]
    have hpos := h.active_pos hcard (i := a.task) (by simp [hpc])
    refine h.update ?_ (fun _ => ?_) (fun hne => .inr ⟨hne, by simp [hpc]⟩) (fun hends => .inr ?_)
      (by omega) (fun _ => id) (fun _ => .inl) (fun _ => .inl)
      fun o ho => .inr (.inl (hcovers o ho _))
    · split <;> exact hempty
    · rw [hpc]
      split
      · change s.nworkers - 1 + 1 = s.nworkers + 0
        omega
      · change s.nworkers - 1 + 1 = s.nworkers + 0
        omega
    · split at hends
      next hone => omega
      next => exact absurd hends id

theorem load_keeps (hpc : (s.tasks a.task).pc = .load) :
    (markingStep H (card ι) s a).Keeps (MarkingInv H roots marks0) := by
  simp only [markingStep, hpc]
  exact h.goto hpc (by simp [hpc]) fun hends => .inr (MarkingPc.eq_zero_of_ends hends)

theorem increase_keeps {nworkers : ℕ} (hpc : (s.tasks a.task).pc = .increase nworkers) :
    (markingStep H (card ι) s a).Keeps (MarkingInv H roots marks0) := by
  simp only [markingStep, hpc]
  by_cases hzero : nworkers = 0
  · rw [if_pos hzero]
    subst hzero
    exact h.goto hpc (by simp [hpc]) fun _ => h.ends a.task (by simp [hpc])
  rw [if_neg hzero]
  by_cases heq : s.nworkers = nworkers
  · rw [if_pos heq]
    exact h.update trivial (fun _ => by rw [hpc, heq]; rfl) (fun _ => .inl trivial)
      (by simp) (fun hz => absurd (heq.symm.trans hz) hzero) (fun _ => id) (fun _ => .inl)
      (fun _ => .inl) fun o ho => .inr (.inl (ho.goto (by simp [hpc]) _))
  · rw [if_neg heq]
    exact h.goto hpc (by simp [hpc]) fun hends => .inr (MarkingPc.eq_zero_of_ends hends)

end

/-- **The step lemma**. -/
theorem markingStep_keeps (s : MarkingState ι α) (a : MarkingAction ι)
    (h : MarkingInv H roots marks0 s) :
    (markingStep H (card ι) s a).Keeps (MarkingInv H roots marks0) := by
  cases hpc : (s.tasks a.task).pc with
  | popLocal => exact popLocal_keeps h hpc
  | popWorker => exact popWorker_keeps h hpc
  | popGlobal => exact popGlobal_keeps h hpc
  | steal rounds => exact steal_keeps h hpc
  | trace object rest => exact trace_keeps h hpc
  | mark object field rest => exact mark_keeps h hpc
  | push object field rest => exact push_keeps h hpc
  | share object targetLen rest => exact share_keeps h hpc
  | tryTerminate => exact tryTerminate_keeps h hpc
  | load => exact load_keeps h hpc
  | increase nworkers => exact increase_keeps h hpc
  | returned =>
    simp only [markingStep, hpc]
    trivial

omit [Fintype ι] [DecidableEq ι] in
theorem pushRoots_spec (H : MarkingHeap α) (roots : List α) (marks : α → Bool) (injector : List α) :
    (∀ o, marks o = true → (pushRoots H roots marks injector).1 o = true) ∧
      (∀ o ∈ roots, H.contains o = true → (pushRoots H roots marks injector).1 o = true) ∧
      (∀ o ∈ injector, o ∈ (pushRoots H roots marks injector).2) ∧
      ∀ o, (pushRoots H roots marks injector).1 o = true →
        marks o = true ∨ o ∈ (pushRoots H roots marks injector).2 := by
  induction roots generalizing marks injector with
  | nil => exact ⟨fun _ => id, by simp, fun _ => id, fun _ => .inl⟩
  | cons root roots ih =>
    unfold pushRoots
    by_cases hmark : H.contains root = true ∧ marks root = false
    · rw [if_pos hmark]
      obtain ⟨hkept, hroots, hqueue, hnew⟩ := ih (update marks root true) (injector ++ [root])
      have hroot := hqueue root (List.mem_append_right _ (List.mem_singleton.mpr rfl))
      refine ⟨fun o ho => hkept o ?_, fun o ho hcon => ?_,
        fun o ho => hqueue o (List.mem_append_left _ ho), fun o ho => ?_⟩
      · by_cases hor : o = root
        · rw [hor, update_self]
        · rwa [update_of_ne hor]
      · rcases List.mem_cons.mp ho with rfl | ho
        · exact hkept o (update_self ..)
        · exact hroots o ho hcon
      · rcases hnew o ho with hold | hin
        · by_cases hor : o = root
          · exact .inr (hor ▸ hroot)
          · rw [update_of_ne hor] at hold
            exact .inl hold
        · exact .inr hin
    · rw [if_neg hmark]
      obtain ⟨hkept, hroots, hqueue, hnew⟩ := ih marks injector
      refine ⟨hkept, fun o ho hcon => ?_, hqueue, hnew⟩
      rcases List.mem_cons.mp ho with rfl | ho
      · exact hkept o (by simpa [hcon] using hmark)
      · exact hroots o ho hcon

theorem markingInv_start [Nonempty ι] (H : MarkingHeap α) (roots : List α) (marks : α → Bool) :
    MarkingInv H roots marks (markingSystem (ι := ι) H roots marks).start := by
  obtain ⟨hkept, hroots, -, hnew⟩ := pushRoots_spec H roots marks []
  refine ⟨fun _ => trivial, fun _ => ?_, fun _ => ⟨Classical.arbitrary ι, trivial⟩,
    fun i hi => absurd hi id, fun o ho => ?_, hkept, hroots⟩
  · simp [markingSystem]
  · exact (hnew o ho).imp_right .inl

/-- **The run lemma**. -/
theorem markingInv_of_reachable [Nonempty ι]
    (h : (markingSystem (ι := ι) H roots marks0).Reachable s) : MarkingInv H roots marks0 s :=
  h.invariant (markingInv_start H roots marks0) markingStep_keeps

end Queues

omit [DecidableEq ι] in
theorem MarkingInv.given_up (h : MarkingInv H roots marks0 s)
    (hi : (s.tasks i).pc = .returned) (j : ι) :
    (s.tasks j).pc.active = 0 ∨ (s.tasks j).pc = .returned := by
  by_cases hcard : card ι = 1
  · have hji : j = i := card_le_one_iff.mp hcard.le j i
    exact .inr (hji ▸ hi)
  · have hzero := (h.ends i (by simp [hi])).resolve_left hcard
    rw [h.active hcard] at hzero
    exact .inl (sum_eq_zero_iff.mp hzero j (mem_univ j))

end Steps

/-- The objects in the heap that can be reached from the roots. -/
inductive MarkingHeap.Reaches (H : MarkingHeap α) (roots : List α) : α → Prop
  | root {o : α} (h : o ∈ roots) (hcon : H.contains o = true) : Reaches H roots o
  | field {o c : α} (h : Reaches H roots o) (hc : c ∈ H.fields o) (hcon : H.contains c = true) :
      Reaches H roots c

/-- **Termination of marking**: in every state of every run in which a task has returned, the
injector and the queues of all tasks are empty and no task has an object in its hands; and every
object that is reachable from the roots is marked if at the beginning no object is marked, or at
least the references of marked objects are marked. -/
theorem marking_terminates_soundly [Fintype ι] [DecidableEq ι] [DecidableEq α] (H : MarkingHeap α)
    (roots : List α) (marks : α → Bool) {s : MarkingState ι α}
    (h : (markingSystem H roots marks).Reachable s)
    {i : ι} (hi : (s.tasks i).pc = .returned) :
    (s.injector = [] ∧ ∀ j, (s.tasks j).segment = [] ∧ (s.tasks j).worker = [] ∧
      (s.tasks j).pc.visiting = none) ∧
      ((∀ o, marks o = true → H.Scanned marks o) → ∀ o, H.Reaches roots o → s.marks o = true) := by
  have : Nonempty ι := ⟨i⟩
  have hinv := markingInv_of_reachable h
  have hup := hinv.given_up hi
  have hempty : ∀ j, (s.tasks j).segment = [] ∧ (s.tasks j).worker = [] ∧
      (s.tasks j).pc.visiting = none ∧ (s.tasks j).pc.marked = none := by
    intro j
    have hemptied := hinv.emptied j
    have hj := hup j
    cases hpc : (s.tasks j).pc <;> simp_all
  have hinjector : s.injector = [] := by
    by_contra hne
    obtain ⟨j, hj⟩ := hinv.injector hne
    have hj' := hup j
    cases hpc : (s.tasks j).pc <;> simp_all
  refine ⟨⟨hinjector, fun j => ⟨(hempty j).1, (hempty j).2.1, (hempty j).2.2.1⟩⟩, ?_⟩
  intro hmarks o ho
  -- no marked object is with a task or in a queue
  have hscanned : ∀ o, s.marks o = true → H.Scanned s.marks o := by
    intro o ho
    rcases hinv.covered o ho with h0 | hin | ⟨j, hcov⟩ | hscanned
    · exact fun c hc hcon => hinv.kept c (hmarks o h0 c hc hcon)
    · simp [hinjector] at hin
    · obtain ⟨hseg, hworker, hvis, hmk⟩ := hempty j
      rcases hcov.mem ⟨hmk, hvis⟩ with hin | hin
      · simp [hseg] at hin
      · simp [hworker] at hin
    · exact hscanned
  induction ho with
  | root hroot hcon => exact hinv.roots _ hroot hcon
  | field _ hc hcon ih => exact hscanned _ ih _ hc hcon

/-- Two tasks mark two objects, the second of which is only reachable through the first. -/
theorem marking_terminates_soundly_two :
    let H : MarkingHeap Bool := ⟨fun _ => true, fun o => if o then [] else [true]⟩
    ∃ s : MarkingState Bool Bool, (markingSystem H [false] fun _ => false).Reachable s ∧
      (s.tasks true).pc = .returned ∧
      (s.injector = [] ∧ ∀ j, (s.tasks j).segment = [] ∧ (s.tasks j).worker = [] ∧
        (s.tasks j).pc.visiting = none) ∧
      ∀ o, H.Reaches [false] o → s.marks o = true := by
  intro H
  let first : MarkingAction Bool := ⟨false, true, 0, false⟩
  let second : MarkingAction Bool := ⟨true, false, 0, false⟩
  have hrun : ((markingSystem H [false] fun _ => false).run
      (markingSystem H [false] fun _ => false).start
      (List.replicate 18 first ++ List.replicate 9 second)).map
        (fun s => (s.tasks true).pc) = some .returned := by decide
  obtain ⟨s, hs, hpc⟩ := Option.map_eq_some_iff.mp hrun
  have hreach := System.Reachable.start.run hs
  obtain ⟨hempty, hmarked⟩ := marking_terminates_soundly H [false] (fun _ => false) hreach hpc
  exact ⟨s, hreach, hpc, hempty, hmarked (by simp)⟩

end Dora.Gc
