import Mathlib.Algebra.Order.BigOperators.Group.List
import Mathlib.Tactic.Linarith
import Dora.Sync.Safepoint

/-!
# The protocol of safepoints

What `stop_the_world` needs to know of the other threads does not depend on where exactly they are.
The number of threads that the stopper has counted and the number that the barrier has counted
differ by the threads that still owe the barrier a notification, and by those that were faster than
the stopper.

## Main definitions

* `Phase`: threads are claimed one by one, all of them are stopped, and released one by one
* `Place`: the kinds of places of a thread, each of which allows some states
* `Consistent`: the threads fit the phase
-/

namespace Dora.Sync

open Function (update update_eq_self update_of_ne update_self)
open List

variable {τ : Type}

/-- How far a stop is: which threads have still to be claimed and how many of the others were
running, or which have still to be released. -/
inductive Phase (τ : Type)
  | idle
  | claiming (rest : List τ) (running : ℕ)
  | stopped
  | releasing (rest : List τ)

namespace Phase

/-- The stop has claimed the thread and not yet released it. -/
def Claims (u : τ) : Phase τ → Prop
  | idle => False
  | claiming rest _ => u ∉ rest
  | stopped => True
  | releasing rest => u ∈ rest

@[simp]
def IsClaiming : Phase τ → Prop
  | claiming _ _ => True
  | _ => False

/-- The threads that the current loop still has before it. -/
@[simp]
def rest : Phase τ → List τ
  | claiming rest _ | releasing rest => rest
  | _ => []

variable {u : τ} {l : List τ} {running : ℕ}

@[simp]
theorem claims_claiming : (claiming l running).Claims u ↔ u ∉ l := Iff.rfl

@[simp]
theorem claims_releasing : (releasing l).Claims u ↔ u ∈ l := Iff.rfl

instance [DecidableEq τ] (u : τ) (ph : Phase τ) : Decidable (ph.Claims u) := by
  cases ph <;> unfold Claims <;> infer_instance

end Phase

/-- The kinds of places. -/
inductive Place
  /-- not in the list -/
  | unregistered
  /-- runs -/
  | running
  /-- has seen its flag and will swap its state -/
  | swapping
  /-- has failed to park and will park for the stop -/
  | parking
  /-- has parked for the stop and will notify the barrier -/
  | notifying
  /-- has swapped its state and will notify the barrier -/
  | entering
  /-- sleeps in a safepoint -/
  | asleep
  /-- has been woken in a safepoint -/
  | woken
  /-- is parked or will unpark -/
  | parked
  /-- sleeps in `unpark` -/
  | dozing
deriving DecidableEq

namespace Place

/-- The states that go with a place. -/
@[simp]
def Allows : Place → ThreadState → Prop
  | unregistered, _ => False
  | running, state | swapping, state => state = .running ∨ state = .safepointRequested
  | parking, state => state = .safepointRequested
  | notifying, state => state = .parkedSafepoint
  | entering, state => state = .safepoint
  | asleep, state | woken, state =>
    state = .safepoint ∨ state = .parked ∨ state = .parkedSafepoint
  | parked, state | dozing, state => state = .parked ∨ state = .parkedSafepoint

/-- The stop cannot get ahead of such a thread. -/
@[simp]
def Delays : Place → Prop
  | swapping | notifying | entering => True
  | _ => False

end Place

/-- **What holds of a registered thread**, with its flag, its state and its place. -/
structure Fits (ph : Phase τ) (u : τ) (requested : Bool) (state : ThreadState) (place : Place) :
    Prop where
  allows : place.Allows state
  claimed : ph.Claims u → state ≠ .running ∧ state ≠ .parked
  unclaimed : ¬ph.Claims u → state = .running ∨ state = .parked ∨ state = .safepoint ∧ ph.IsClaiming
  claiming : state = .safepointRequested ∨ place.Delays → ph.IsClaiming
  flag : requested = true → ph.IsClaiming ∨ ph = .stopped
  sleeps : place = .asleep ∨ place = .dozing → ph ≠ .idle

/-- A claimed thread that has not yet notified the barrier counts 1, a thread that is not yet
claimed and has notified it counts -1. -/
@[simp]
def balance [DecidableEq τ] (ph : Phase τ) (u : τ) (state : ThreadState) (place : Place) : ℤ :=
  if ph.Claims u then
    if state = .safepointRequested ∨ place = .notifying ∨ place = .entering then 1 else 0
  else if state = .safepoint ∧ (place = .asleep ∨ place = .woken) then -1 else 0

/-- **What holds of all threads**. -/
structure Consistent [DecidableEq τ] (ph : Phase τ) (registered : List τ) (stopped : ℕ)
    (requested : τ → Bool) (state : τ → ThreadState) (place : τ → Place) : Prop where
  nodup : registered.Nodup
  registered_iff : ∀ u, u ∈ registered ↔ place u ≠ .unregistered
  rest_nodup : ph.rest.Nodup
  rest_subset : ph.rest ⊆ registered
  fits : ∀ u ∈ registered, Fits ph u (requested u) (state u) (place u)
  counts : ∀ rest running, ph = .claiming rest running →
    (stopped : ℤ) + (registered.map fun u => balance ph u (state u) (place u)).sum = running

variable [DecidableEq τ]

theorem sum_map_change {l : List τ} {f g : τ → ℤ} {a : τ} (hl : l.Nodup) (ha : a ∈ l)
    (h : ∀ b ∈ l, b ≠ a → g b = f b) : (l.map g).sum = (l.map f).sum + (g a - f a) := by
  have hrest : (l.erase a).map g = (l.erase a).map f := by
    refine map_congr_left fun b hb => ?_
    obtain ⟨hne, hmem⟩ := (List.Nodup.mem_erase_iff hl).mp hb
    exact h b hmem hne
  rw [← sum_map_erase g ha, ← sum_map_erase f ha, hrest]
  linarith

section Moves

variable {ph : Phase τ} {registered : List τ} {stopped stopped' running : ℕ} {requested : τ → Bool}
  {state : τ → ThreadState} {place : τ → Place} {u : τ} {st : ThreadState} {pl : Place}

/-- **A thread moves**, and fits again. -/
theorem Consistent.move (h : Consistent ph registered stopped requested state place)
    (hu : u ∈ registered) (hfits : Fits ph u (requested u) st pl)
    (hbalance : ph.IsClaiming → (stopped' : ℤ) + balance ph u st pl =
      stopped + balance ph u (state u) (place u)) :
    Consistent ph registered stopped' requested (update state u st) (update place u pl) := by
  have hpl : pl ≠ .unregistered := by
    rintro rfl
    exact hfits.allows
  refine ⟨h.nodup, fun v => ?_, h.rest_nodup, h.rest_subset, fun v hv => ?_,
    fun rest running hph => ?_⟩
  · by_cases hvu : v = u
    · subst hvu
      rw [update_self]
      exact ⟨fun _ => hpl, fun _ => hu⟩
    · rw [update_of_ne hvu]
      exact h.registered_iff v
  · by_cases hvu : v = u
    · subst hvu
      rwa [update_self, update_self]
    · rw [update_of_ne hvu, update_of_ne hvu]
      exact h.fits v hv
  · have hsum := h.counts rest running hph
    have hbal := hbalance (hph ▸ trivial)
    rw [sum_map_change h.nodup hu, update_self, update_self]
    · linarith
    · intro v _ hvu
      rw [update_of_ne hvu, update_of_ne hvu]

/-- **The stop enters another phase**, in which all threads fit again. -/
theorem Consistent.turn {ph' : Phase τ} {requested' : τ → Bool} {state' : τ → ThreadState}
    {place' : τ → Place} (h : Consistent ph registered stopped requested state place)
    (hplace : ∀ u, place' u = .unregistered ↔ place u = .unregistered)
    (hnodup : ph'.rest.Nodup) (hsubset : ph'.rest ⊆ registered)
    (hfits : ∀ u ∈ registered, Fits ph' u (requested' u) (state' u) (place' u))
    (hcounts : ∀ rest running, ph' = .claiming rest running →
      (stopped' : ℤ) + (registered.map fun u => balance ph' u (state' u) (place' u)).sum =
        running) :
    Consistent ph' registered stopped' requested' state' place' := by
  refine ⟨h.nodup, fun u => ?_, hnodup, hsubset, hfits, hcounts⟩
  rw [h.registered_iff, ne_eq, ne_eq, hplace]

theorem balance_nonneg :
    ∀ x ∈ registered.map fun v => balance (.claiming [] running) v (state v) (place v), 0 ≤ x := by
  intro x hx
  obtain ⟨v, _, rfl⟩ := mem_map.mp hx
  unfold balance
  rw [if_pos (by simp)]
  split <;> decide

theorem Consistent.stopped_le
    (h : Consistent (.claiming [] running) registered stopped requested state place) :
    stopped ≤ running := by
  have hsum := h.counts [] running rfl
  have hnonneg : 0 ≤ (registered.map fun v =>
      balance (.claiming [] running) v (state v) (place v)).sum := sum_nonneg balance_nonneg
  omega

/-- **Equal counts**: once all threads are claimed and as many have notified the barrier as were
running, nobody owes a notification. -/
theorem Consistent.stopped_of_eq
    (h : Consistent (.claiming [] running) registered running requested state place)
    (hu : u ∈ registered) : state u ≠ .safepointRequested ∧ ¬(place u).Delays := by
  have hsum := h.counts [] running rfl
  have hzero : balance (.claiming [] running) u (state u) (place u) = 0 := by
    refine all_zero_of_le_zero_le_of_sum_eq_zero balance_nonneg (by linarith) ?_
    exact mem_map.mpr ⟨u, hu, rfl⟩
  have hfits := h.fits u hu
  unfold balance at hzero
  rw [if_pos (by simp)] at hzero
  split at hzero
  · exact absurd hzero (by decide)
  next hno =>
    push Not at hno
    refine ⟨hno.1, fun hdelays => ?_⟩
    -- a claimed thread that is about to swap its state is one whose stop is requested
    have hclaimed := hfits.claimed (by simp)
    have hallows := hfits.allows
    cases hpl : place u <;> simp_all

end Moves

/-! ## The phases of a stop -/

section Phases

variable {registered rest : List τ} {stopped running : ℕ} {requested : τ → Bool}
  {state : τ → ThreadState} {place : τ → Place} {u : τ}

omit [DecidableEq τ] in
theorem Fits.idle {requested : Bool} {state : ThreadState} {place : Place}
    (h : Fits .idle u requested state place) : state = .running ∨ state = .parked := by
  rcases h.unclaimed id with hst | hst | ⟨_, hph⟩
  · exact .inl hst
  · exact .inr hst
  · exact absurd hph id

theorem Consistent.begin (h : Consistent .idle registered stopped requested state place) :
    Consistent (.claiming registered 0) registered 0 requested state place := by
  refine h.turn (fun _ => Iff.rfl) h.nodup (List.Subset.refl _) (fun u hu => ?_) ?_
  · have hfits := h.fits u hu
    refine ⟨hfits.allows, fun hc => absurd hu hc, fun _ => ?_, fun _ => trivial,
      fun _ => .inl trivial, fun _ => by simp⟩
    exact hfits.idle.imp_right .inl
  · rintro rest running ⟨⟩
    have hzero : ∀ x ∈ registered.map fun u =>
        balance (.claiming registered 0) u (state u) (place u), x = 0 := by
      intro x hx
      obtain ⟨u, hu, rfl⟩ := mem_map.mp hx
      have hst : state u ≠ .safepoint := by rcases (h.fits u hu).idle with hst | hst <;> simp [hst]
      simp [hu, hst]
    rw [sum_eq_zero hzero]
    rfl

theorem Consistent.request {ph : Phase τ} {requested' : τ → Bool}
    (h : Consistent ph registered stopped requested state place)
    (hph : ph.IsClaiming ∨ ph = .stopped) :
    Consistent ph registered stopped requested' state place := by
  refine h.turn (fun _ => Iff.rfl) h.rest_nodup h.rest_subset (fun u hu => ?_) h.counts
  exact { h.fits u hu with flag := fun _ => hph }

section

variable (h : Consistent (.claiming (u :: rest) running) registered stopped requested state place)
include h

/-- **The next thread is claimed**: if it fits its new state and is counted as its balance says. -/
theorem Consistent.claim {running' : ℕ} {st : ThreadState} (hallows : (place u).Allows st)
    (hclaimed : st ≠ .running ∧ st ≠ .parked)
    (hbalance : balance (.claiming rest running') u st (place u) + running =
      balance (.claiming (u :: rest) running) u (state u) (place u) + running') :
    Consistent (.claiming rest running') registered stopped requested (update state u st)
      place := by
  have hu : u ∈ registered := h.rest_subset mem_cons_self
  have hnodup := nodup_cons.mp h.rest_nodup
  refine h.turn (fun _ => Iff.rfl) hnodup.2
    (fun v hv => h.rest_subset (mem_cons_of_mem _ hv)) (fun v hv => ?_) ?_
  · have hfits := h.fits v hv
    by_cases hvu : v = u
    · subst hvu
      rw [update_self]
      exact ⟨hallows, fun _ => hclaimed, fun hno => absurd hnodup.1 hno, fun _ => trivial,
        fun _ => .inl trivial, fun _ => by simp⟩
    · rw [update_of_ne hvu]
      have hclaims : (Phase.claiming rest running').Claims v ↔
          (Phase.claiming (u :: rest) running).Claims v := by simp [hvu]
      exact ⟨hfits.allows, fun hc => hfits.claimed (hclaims.mp hc),
        fun hc => hfits.unclaimed fun hc' => hc (hclaims.mpr hc'), fun _ => trivial,
        fun _ => .inl trivial, fun _ => by simp⟩
  · rintro _ _ ⟨⟩
    have hsum := h.counts _ _ rfl
    rw [sum_map_change h.nodup hu, update_self]
    · linarith
    · intro v _ hvu
      simp [hvu]

theorem Consistent.claim_running (hst : state u = .running) :
    Consistent (.claiming rest (running + 1)) registered stopped requested
      (update state u .safepointRequested) place := by
  have hallows := (h.fits u (h.rest_subset mem_cons_self)).allows
  have hrest := (nodup_cons.mp h.rest_nodup).1
  refine h.claim ?_ (by simp) ?_
  · cases hpl : place u <;> simp_all
  · simp [hst, hrest, add_comm]

theorem Consistent.claim_parked (hst : state u = .parked) :
    Consistent (.claiming rest running) registered stopped requested
      (update state u .parkedSafepoint) place := by
  have hallows := (h.fits u (h.rest_subset mem_cons_self)).allows
  refine h.claim ?_ (by simp) ?_
  · cases hpl : place u <;> simp_all
  · cases hpl : place u <;> simp_all

theorem Consistent.claim_safepoint (hst : state u = .safepoint) :
    Consistent (.claiming rest (running + 1)) registered stopped requested state place := by
  have hallows := (h.fits u (h.rest_subset mem_cons_self)).allows
  have hrest := (nodup_cons.mp h.rest_nodup).1
  have hclaim : Consistent (.claiming rest (running + 1)) registered stopped requested
      (update state u .safepoint) place := by
    refine h.claim (hst ▸ hallows) (by simp) ?_
    cases hpl : place u <;> simp_all [add_comm]
  rwa [← hst, update_eq_self] at hclaim

end

theorem Consistent.stop
    (h : Consistent (.claiming [] running) registered running requested state place) :
    Consistent .stopped registered running requested state place := by
  refine h.turn (fun _ => Iff.rfl) nodup_nil (by simp) (fun u hu => ?_) (by simp)
  have hfits := h.fits u hu
  have hno := h.stopped_of_eq hu
  refine ⟨hfits.allows, fun _ => hfits.claimed (by simp), fun hc => absurd trivial hc, ?_,
    fun _ => .inr rfl, fun _ => by simp⟩
  rintro (hst | hdelays)
  · exact absurd hst hno.1
  · exact absurd hdelays hno.2

omit [DecidableEq τ] in
theorem Fits.waits {ph : Phase τ} {requested : Bool} {state : ThreadState} {place : Place}
    (h : Fits ph u requested state place) (hph : ¬ph.IsClaiming) (hc : ph.Claims u) :
    state = .safepoint ∨ state = .parkedSafepoint := by
  have hclaimed := h.claimed hc
  have hno : state ≠ .safepointRequested := fun hst => hph (h.claiming (.inl hst))
  cases state <;> simp_all

theorem Consistent.waits (h : Consistent .stopped registered stopped requested state place)
    (hu : u ∈ registered) : state u = .safepoint ∨ state u = .parkedSafepoint :=
  (h.fits u hu).waits id trivial

theorem Consistent.beginRelease (h : Consistent .stopped registered stopped requested state place)
    (hflags : ∀ u ∈ registered, requested u = false) :
    Consistent (.releasing registered) registered stopped requested state place := by
  refine h.turn (fun _ => Iff.rfl) h.nodup (List.Subset.refl _) (fun u hu => ?_) (by simp)
  have hfits := h.fits u hu
  refine ⟨hfits.allows, fun _ => hfits.claimed trivial, fun hc => absurd hu hc, hfits.claiming,
    fun hf => ?_, fun _ => by simp⟩
  rw [hflags u hu] at hf
  exact Bool.noConfusion hf

theorem Consistent.releasing_waits
    (h : Consistent (.releasing (u :: rest)) registered stopped requested state place) :
    state u = .safepoint ∨ state u = .parkedSafepoint :=
  (h.fits u (h.rest_subset mem_cons_self)).waits id mem_cons_self

theorem Consistent.release
    (h : Consistent (.releasing (u :: rest)) registered stopped requested state place) :
    Consistent (.releasing rest) registered stopped requested (update state u .parked)
      place := by
  have hnodup := nodup_cons.mp h.rest_nodup
  refine h.turn (fun _ => Iff.rfl) hnodup.2
    (fun v hv => h.rest_subset (mem_cons_of_mem _ hv)) (fun v hv => ?_) (by simp)
  · have hfits := h.fits v hv
    have hflag : requested v = true → False := fun hf => by simpa using hfits.flag hf
    by_cases hvu : v = u
    · subst hvu
      rw [update_self]
      have hallows := hfits.allows
      have hdelays : ¬(place v).Delays := fun hd => hfits.claiming (.inr hd)
      refine ⟨?_, fun hc => absurd hc hnodup.1, fun _ => by simp, ?_, fun hf => (hflag hf).elim,
        fun _ => by simp⟩
      · rcases h.releasing_waits with hst | hst <;> cases hpl : place v <;> simp_all
      · rintro (hst | hd)
        · exact ThreadState.noConfusion hst
        · exact hdelays hd
    · rw [update_of_ne hvu]
      refine ⟨hfits.allows, fun hc => hfits.claimed (mem_cons_of_mem _ hc), fun hc => ?_,
        hfits.claiming, fun hf => (hflag hf).elim, fun _ => by simp⟩
      exact hfits.unclaimed (by simpa [hvu] using hc)

/-- The place of a thread that has been woken up. -/
@[simp]
def Place.wokenUp : Place → Place
  | asleep => woken
  | dozing => parked
  | place => place

theorem Consistent.finish
    (h : Consistent (.releasing []) registered stopped requested state place) :
    Consistent .idle registered stopped requested state fun u => (place u).wokenUp := by
  refine h.turn (fun u => ?_) nodup_nil (by simp) (fun u hu => ?_) (by simp)
  · cases place u <;> simp
  · have hfits := h.fits u hu
    refine ⟨?_, fun hc => absurd hc id, fun _ => ?_, ?_, fun hf => ?_, ?_⟩
    · have hallows := hfits.allows
      cases hpl : place u <;> simp_all
    · exact (hfits.unclaimed (by simp)).imp_right fun hst => hst.imp_right fun hc => hc
    · rintro (hst | hd)
      · exact hfits.claiming (.inl hst)
      · refine hfits.claiming (.inr ?_)
        cases hpl : place u <;> simp_all
    · simpa using hfits.flag hf
    · cases place u <;> simp

theorem Consistent.register (h : Consistent .idle registered stopped requested state place)
    (hu : u ∉ registered) :
    Consistent .idle (registered ++ [u]) stopped (update requested u false)
      (update state u .parked) (update place u .parked) := by
  refine ⟨?_, fun v => ?_, nodup_nil, by simp, fun v hv => ?_, by simp⟩
  · refine nodup_append.mpr ⟨h.nodup, nodup_singleton u, ?_⟩
    rintro v hv w hw rfl
    obtain rfl := mem_singleton.mp hw
    exact hu hv
  · rw [mem_append, mem_singleton]
    by_cases hvu : v = u
    · simp [hvu]
    · rw [update_of_ne hvu, ← h.registered_iff]
      simp [hvu]
  · by_cases hvu : v = u
    · subst hvu
      rw [update_self, update_self, update_self]
      exact ⟨.inl rfl, fun hc => absurd hc id, fun _ => by simp, by simp, by simp, by simp⟩
    · rw [update_of_ne hvu, update_of_ne hvu, update_of_ne hvu]
      have hmem := (mem_append.mp hv).resolve_right fun hv' => hvu (mem_singleton.mp hv')
      exact h.fits v hmem

theorem Consistent.leave (h : Consistent .idle registered stopped requested state place) (u : τ) :
    Consistent .idle (registered.filter (· ≠ u)) stopped requested state
      (update place u .unregistered) := by
  refine ⟨h.nodup.filter _, fun v => ?_, nodup_nil, by simp, fun v hv => ?_, by simp⟩
  · rw [mem_filter]
    by_cases hvu : v = u
    · simp [hvu]
    · rw [update_of_ne hvu, ← h.registered_iff]
      simp [hvu]
  · obtain ⟨hmem, hne⟩ := mem_filter.mp hv
    have hvu : v ≠ u := by simpa using hne
    rw [update_of_ne hvu]
    exact h.fits v hmem

end Phases

end Dora.Sync
