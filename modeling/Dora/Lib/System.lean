import Mathlib.Algebra.BigOperators.Group.Finset.Basic
import Mathlib.Data.Fintype.Basic

/-!
# Systems of steps

An action leads to a next state, has to wait, or fails. Threads that run side by side are a system
whose actions say which thread is scheduled, so that the runs are all interleavings.

## Main definitions

* `System`, `System.Reachable`, `System.run`: a system, its states and its runs
* `Owned`: who owns a resource, by the places of the threads

## Main results

* `System.Reachable.invariant`: what every step keeps holds in every reachable state
-/

/-- What an action leads to. -/
inductive Outcome (σ : Type)
  | next (s : σ)
  | waits
  | fails
deriving DecidableEq

/-- The action does not fail, and `I` holds where it leads to. -/
def Outcome.Keeps {σ : Type} (I : σ → Prop) : Outcome σ → Prop
  | next s => I s
  | waits => True
  | fails => False

theorem Outcome.Keeps.exists_next {σ : Type} {I : σ → Prop} {o : Outcome σ} (h : o.Keeps I)
    (hwaits : o ≠ .waits) : ∃ s, o = .next s := by
  cases o with
  | next s => exact ⟨s, rfl⟩
  | waits => exact absurd rfl hwaits
  | fails => cases h

/-- A start and the steps. -/
structure System (σ α : Type) where
  start : σ
  step : σ → α → Outcome σ

namespace System

variable {σ α : Type} {S : System σ α} {s : σ}

variable {s' : σ} {as : List α} {I : σ → Prop}

/-- The states of the runs. -/
inductive Reachable (S : System σ α) : σ → Prop
  | start : Reachable S S.start
  | next {s s' : σ} (h : Reachable S s) (a : α) (hstep : S.step s a = .next s') : Reachable S s'

/-- The state after the given actions, if none of them has to wait or fails. -/
def run (S : System σ α) (s : σ) : List α → Option σ
  | [] => some s
  | a :: as =>
    match S.step s a with
    | .next s' => S.run s' as
    | _ => none

theorem Reachable.run (h : S.Reachable s) (hrun : S.run s as = some s') : S.Reachable s' := by
  induction as generalizing s with
  | nil => exact Option.some.inj hrun ▸ h
  | cons a as ih =>
    unfold System.run at hrun
    cases hs : S.step s a with
    | next s1 =>
      rw [hs] at hrun
      exact ih (h.next a hs) hrun
    | waits | fails => simp [hs] at hrun

/-- **Invariants**: what holds at the start and is kept by every step holds in every reachable
state. -/
theorem Reachable.invariant (hstart : I S.start)
    (hstep : ∀ s a, I s → (S.step s a).Keeps I) (h : S.Reachable s) : I s := by
  induction h with
  | start => exact hstart
  | @next s s' _ a hs ih =>
    have hkeeps := hstep s a ih
    rwa [hs] at hkeeps

/-- The states of the runs whose steps all meet the condition `P` on the state before the step. -/
inductive ReachableUnder (S : System σ α) (P : σ → α → Prop) : σ → Prop
  | start : ReachableUnder S P S.start
  | next {s s' : σ} (h : ReachableUnder S P s) (a : α) (hP : P s a)
    (hstep : S.step s a = .next s') : ReachableUnder S P s'

/-- The same for the given actions. -/
def runUnder (S : System σ α) (P : σ → α → Prop) [∀ s a, Decidable (P s a)] (s : σ) :
    List α → Option σ
  | [] => some s
  | a :: as =>
    if P s a then
      match S.step s a with
      | .next s' => S.runUnder P s' as
      | _ => none
    else none

variable {P : σ → α → Prop}

theorem ReachableUnder.run [∀ s a, Decidable (P s a)]
    (h : S.ReachableUnder P s) (hrun : S.runUnder P s as = some s') : S.ReachableUnder P s' := by
  induction as generalizing s with
  | nil => exact Option.some.inj hrun ▸ h
  | cons a as ih =>
    unfold runUnder at hrun
    by_cases hP : P s a
    · rw [if_pos hP] at hrun
      cases hs : S.step s a with
      | next s1 =>
        rw [hs] at hrun
        exact ih (h.next a hP hs) hrun
      | waits | fails => simp [hs] at hrun
    · simp [hP] at hrun

theorem ReachableUnder.reachable (h : S.ReachableUnder P s) : S.Reachable s := by
  induction h with
  | start => exact .start
  | next _ a _ hstep ih => exact ih.next a hstep

theorem Reachable.under (h : S.Reachable s) : S.ReachableUnder (fun _ _ => True) s := by
  induction h with
  | start => exact .start
  | next _ a hstep ih => exact ih.next a trivial hstep

/-- **Invariants under a condition**: what every step that meets the condition keeps. -/
theorem ReachableUnder.invariant (hstart : I S.start)
    (hstep : ∀ s a, I s → P s a → (S.step s a).Keeps I) (h : S.ReachableUnder P s) :
    I s := by
  induction h with
  | start => exact hstart
  | @next s s' _ a hP hs ih =>
    have hkeeps := hstep s a ih hP
    rwa [hs] at hkeeps

end System

/-! ## Places of threads -/

section Places

open Function (update update_of_ne update_self)

variable {τ β : Type} [DecidableEq τ] {pc : τ → β} {t : τ} {p : β}

/-- The resource `r` is with the thread whose place `pc t` satisfies `P`. -/
def Owned (r : Option τ) (pc : τ → β) (P : β → Prop) : Prop := ∀ t, r = some t ↔ P (pc t)

variable {r : Option τ} {P : β → Prop}

theorem Owned.keep (h : Owned r pc P) (hp : P p ↔ P (pc t)) : Owned r (update pc t p) P := by
  intro u
  by_cases hu : u = t
  · subst hu
    rw [update_self, hp]
    exact h u
  · rw [update_of_ne hu]
    exact h u

theorem Owned.take (h : Owned none pc P) (hp : P p) : Owned (some t) (update pc t p) P := by
  intro u
  by_cases hu : u = t
  · subst hu
    rw [update_self]
    exact ⟨fun _ => hp, fun _ => rfl⟩
  · rw [update_of_ne hu]
    refine ⟨fun he => absurd (Option.some.inj he).symm hu, fun hP => ?_⟩
    exact absurd ((h u).mpr hP) (by simp)

theorem Owned.drop (h : Owned (some t) pc P) (hp : ¬P p) : Owned none (update pc t p) P := by
  intro u
  refine ⟨fun he => absurd he (by simp), fun hP => ?_⟩
  by_cases hu : u = t
  · subst hu
    rw [update_self] at hP
    exact absurd hP hp
  · rw [update_of_ne hu] at hP
    exact absurd (Option.some.inj ((h u).mpr hP)).symm hu

/-- How a resource passes when the thread `t` goes from `p` to `p'`: it stays where it is, or the
thread takes it while it is free, or gives it back. -/
@[simp]
def Passes (P : β → Prop) (r r' : Option τ) (t : τ) (p p' : β) : Prop :=
  (P p' ↔ P p) ∧ r' = r ∨ P p' ∧ r = none ∧ r' = some t ∨ P p ∧ ¬P p' ∧ r' = none

theorem Owned.pass {r' : Option τ} (h : Owned r pc P) (hpass : Passes P r r' t (pc t) p) :
    Owned r' (update pc t p) P := by
  rcases hpass with ⟨hiff, rfl⟩ | ⟨hp, rfl, rfl⟩ | ⟨hpc, hp, rfl⟩
  · exact h.keep hiff
  · exact h.take hp
  · exact ((h t).mpr hpc ▸ h).drop hp

omit [DecidableEq τ] in
theorem Owned.unique (h : Owned r pc P) {u : τ} (ht : P (pc t)) (hu : P (pc u)) : t = u :=
  Option.some.inj (((h t).mpr ht).symm.trans ((h u).mpr hu))

/-- A thread somewhere stays there, or the thread that moves goes there. -/
theorem exists_update {P : τ → β → Prop} (h : ∃ u, P u (pc u)) (hp : P t (pc t) → P t p) :
    ∃ u, P u (update pc t p u) := by
  obtain ⟨u, hu⟩ := h
  by_cases hut : u = t
  · subst hut
    exact ⟨u, by rw [update_self]; exact hp hu⟩
  · exact ⟨u, by rw [update_of_ne hut]; exact hu⟩

theorem exists_update_self {P : τ → β → Prop} (hp : P t p) : ∃ u, P u (update pc t p u) :=
  ⟨t, by rwa [update_self]⟩

end Places

/-! ## Sums over threads -/

section Sums

open Finset

variable {ι M : Type} [Fintype ι] [DecidableEq ι] {i : ι}

theorem sum_change [AddCommMonoid M] {f g : ι → M} (h : ∀ j, j ≠ i → g j = f j) :
    ∑ j, g j + f i = ∑ j, f j + g i := by
  have hf : f i + ∑ j ∈ univ.erase i, f j = ∑ j, f j := add_sum_erase _ f (mem_univ i)
  have hg : g i + ∑ j ∈ univ.erase i, g j = ∑ j, g j := add_sum_erase _ g (mem_univ i)
  have hrest : ∑ j ∈ univ.erase i, g j = ∑ j ∈ univ.erase i, f j :=
    sum_congr rfl fun j hj => h j (ne_of_mem_erase hj)
  rw [← hf, ← hg, hrest, add_right_comm, add_comm (g i), add_right_comm]

/-- A total stays the same if what the thread gives is what remains outside. -/
theorem sum_balance [AddCancelCommMonoid M] {f g : ι → M} {x y m : M}
    (h : ∀ j, j ≠ i → g j = f j) (hi : y + g i = x + f i) (hm : m = x + ∑ j, f j) :
    m = y + ∑ j, g j := by
  refine add_right_cancel (b := f i) ?_
  rw [add_assoc, sum_change h, hm, add_right_comm, ← hi, add_right_comm, add_assoc]

end Sums
