import Dora.Sync.SafepointProtocol

/-!
# Stopping the world

The place of the thread that holds the lock of the threads says which phase a stop is in, and the
places of the other threads are of the kinds that the protocol knows.

## Main results

* `safepointStep_keeps`: every step keeps to the protocol
* `safepoint_safe`, `safepoint_progress`: what this means in every run, and no deadlock
-/

namespace Dora.Sync

open Function (update update_eq_iff update_eq_self update_of_ne update_self)
open List SafepointPc SafepointState

attribute [local simp] balance

variable {τ : Type}

namespace SafepointPc

/-- The kind of a place. -/
@[simp]
def place : SafepointPc τ → Place
  | absent | gone => .unregistered
  | mutator | park _ => .running
  | safepointSwap => .swapping
  | parkSlow _ => .parking
  | notifyPark _ => .notifying
  | safepointEnter => .entering
  | safepointAsleep => .asleep
  | safepointCheck => .woken
  | unparkAsleep => .dozing
  | _ => .parked

/-- The thread holds the lock of the threads. -/
@[simp]
def HoldsLock : SafepointPc τ → Prop
  | stopLen | arm | setRequested _ | load _ _ | cas _ _ _ _ | waitStopped _ | stoppedAsleep _
  | stoppedCheck _ | operation _ | clearRequested _ | swapStates _ | disarm | unlock => True
  | _ => False

/-- The phase of the stop of a thread that holds the lock of the threads. -/
@[simp]
def phase (registered : List τ) : SafepointPc τ → Phase τ
  | setRequested _ => .claiming registered 0
  | load rest running => .claiming rest running
  | cas u _ rest running => .claiming (u :: rest) running
  | waitStopped running | stoppedAsleep running | stoppedCheck running => .claiming [] running
  | operation false | clearRequested _ => .stopped
  | swapStates rest => .releasing rest
  | disarm => .releasing []
  | _ => .idle

/-- What the thread `t` that holds the lock of the threads knows beyond the phase. -/
@[simp]
def Knows (registered : List τ) (stopped : ℕ) (requested : τ → Bool) (state : τ → ThreadState)
    (t : τ) : SafepointPc τ → Prop
  | operation true => registered = [t]
  | clearRequested rest => ∀ u ∈ registered, requested u = true → u ∈ rest
  | stoppedAsleep running => stopped < running
  | cas u current _ _ =>
    current = .running ∨ current = .parked ∨ current = .safepoint ∧ state u = .safepoint
  | _ => True

/-- The thread runs mutator code. -/
@[simp]
def IsMutator : SafepointPc τ → Prop
  | mutator => True
  | _ => False

/-- The thread sleeps at the barrier until the end of a stop. -/
@[simp]
def Sleeps : SafepointPc τ → Prop
  | safepointAsleep | unparkAsleep => True
  | _ => False

/-- The thread has armed the barrier and not yet disarmed it. -/
@[simp]
def Stops : SafepointPc τ → Prop
  | setRequested _ | load _ _ | cas _ _ _ _ | waitStopped _ | stoppedAsleep _ | stoppedCheck _
  | operation false | clearRequested _ | swapStates _ | disarm => True
  | _ => False

variable {pc : SafepointPc τ} {registered : List τ} {requested : τ → Bool} {state : τ → ThreadState}
  {stopped : ℕ} {t : τ}

theorem HoldsLock.place_eq (h : pc.HoldsLock) : pc.place = .parked := by
  cases pc <;> simp_all

theorem Knows.of_not_holdsLock (h : ¬pc.HoldsLock) :
    pc.Knows registered stopped requested state t := by
  cases pc <;> simp_all

theorem place_notified : pc.notified.place = pc.place := by cases pc <;> rfl

theorem holdsLock_notified : pc.notified.HoldsLock ↔ pc.HoldsLock := by
  cases pc <;> simp [notified]

theorem phase_notified : pc.notified.phase registered = pc.phase registered := by cases pc <;> rfl

theorem Knows.notified {stopped' : ℕ} (h : pc.Knows registered stopped requested state t) :
    pc.notified.Knows registered stopped' requested state t := by
  cases pc with
  | operation alone => cases alone <;> exact h
  | stoppedAsleep running => trivial
  | _ => exact h

theorem Knows.of_state {state' : τ → ThreadState}
    (h : pc.Knows registered stopped requested state t)
    (hstate : ∀ u, state u = .safepoint → state' u = .safepoint) :
    pc.Knows registered stopped requested state' t := by
  cases pc with
  | operation alone => cases alone <;> exact h
  | cas u current rest running => exact h.imp_right (Or.imp_right (And.imp_right (hstate u)))
  | _ => exact h

theorem place_wokenUp : pc.wokenUp.place = pc.place.wokenUp := by
  cases pc <;> simp [wokenUp]

theorem holdsLock_wokenUp : pc.wokenUp.HoldsLock ↔ pc.HoldsLock := by
  cases pc <;> simp [wokenUp]

end SafepointPc

variable [DecidableEq τ]

/-- **The invariant**, with the phase of the stop. -/
structure SafepointInv (s : SafepointState τ) (ph : Phase τ) : Prop where
  lock : Owned s.lock s.pc HoldsLock
  idle : s.lock = none → ph = .idle
  phase : ∀ t, (s.pc t).HoldsLock → (s.pc t).phase s.registered = ph
  armed : s.armed = true ↔ ph ≠ .idle
  knows : ∀ t, (s.pc t).Knows s.registered s.stopped s.requested s.state t
  threads : Consistent ph s.registered s.stopped s.requested s.state fun u => (s.pc u).place

/-- What the steps keep. -/
def SafepointSafe (s : SafepointState τ) : Prop := ∃ ph, SafepointInv s ph

section Frames

variable {s : SafepointState τ} {ph ph' : Phase τ} {t : τ} {p p' : SafepointPc τ} {st : ThreadState}

theorem place_update (pc : τ → SafepointPc τ) (t : τ) (p : SafepointPc τ) :
    (fun u => (update pc t p u).place) = update (fun u => (pc u).place) t p.place :=
  Function.comp_update place pc t p

section

variable (h : SafepointInv s ph) (hpc : s.pc t = p)
include h hpc

theorem SafepointInv.fits (hp : p.place ≠ .unregistered) :
    t ∈ s.registered ∧ Fits ph t (s.requested t) (s.state t) p.place := by
  subst hpc
  have ht := (h.threads.registered_iff t).mpr hp
  exact ⟨ht, h.threads.fits t ht⟩

omit h hpc in
/-- The thread `t` goes to `p`: what is to be shown for it, and for another thread only if that one
holds the lock of the threads. -/
theorem SafepointInv.of_goto (hlock : Owned s.lock (update s.pc t p) HoldsLock)
    (hidle : s.lock = none → ph = .idle) (harmed : s.armed = true ↔ ph ≠ .idle)
    (hphase : p.HoldsLock → p.phase s.registered = ph)
    (hknows : p.Knows s.registered s.stopped s.requested s.state t)
    (hother : ∀ u, u ≠ t → (s.pc u).HoldsLock → (s.pc u).phase s.registered = ph ∧
      (s.pc u).Knows s.registered s.stopped s.requested s.state u)
    (hthreads : Consistent ph s.registered s.stopped s.requested s.state
      (update (fun u => (s.pc u).place) t p.place)) : SafepointSafe (s.goto t p) := by
  refine ⟨ph, hlock, hidle, ?_, harmed, ?_, by rwa [← place_update] at hthreads⟩
  · exact (Function.forall_update_iff s.pc fun _ q => q.HoldsLock → q.phase s.registered = ph).mpr
      ⟨hphase, fun u hut hu => (hother u hut hu).1⟩
  · refine (Function.forall_update_iff s.pc fun u q =>
      q.Knows s.registered s.stopped s.requested s.state u).mpr ⟨hknows, fun u hut => ?_⟩
    by_cases hu : (s.pc u).HoldsLock
    · exact (hother u hut hu).2
    · exact .of_not_holdsLock hu

/-- A thread that does not hold the lock of the threads moves and gets a new state. -/
theorem SafepointInv.move_state (hp : p.place ≠ .unregistered) (hfrom : ¬p.HoldsLock)
    (hto : ¬p'.HoldsLock) (hst : s.state t ≠ .safepoint ∨ st = .safepoint)
    (hfits : Fits ph t (s.requested t) st p'.place)
    (hbalance : ph.IsClaiming → balance ph t st p'.place = balance ph t (s.state t) p.place) :
    SafepointSafe ((s.setState t st).goto t p') := by
  have hmem := (h.fits hpc hp).1
  subst hpc
  refine SafepointInv.of_goto (h.lock.keep (iff_of_false hto hfrom)) h.idle
    h.armed (fun hp' => absurd hp' hto) (.of_not_holdsLock hto)
    (fun u _ hu => ⟨h.phase u hu, (h.knows u).of_state ?_⟩)
    (h.threads.move hmem hfits fun hph => by rw [hbalance hph]; rfl)
  exact (Function.forall_update_iff s.state
    fun v st' => s.state v = .safepoint → st' = .safepoint).mpr
    ⟨fun hv => hst.resolve_left fun hne => hne hv, fun _ _ hv => hv⟩

theorem SafepointInv.move (hp : p.place ≠ .unregistered) (hfrom : ¬p.HoldsLock)
    (hto : ¬p'.HoldsLock) (hfits : Fits ph t (s.requested t) (s.state t) p'.place)
    (hbalance : ph.IsClaiming →
      balance ph t (s.state t) p'.place = balance ph t (s.state t) p.place) :
    SafepointSafe (s.goto t p') := by
  have hmove := h.move_state hpc hp hfrom hto (em (s.state t = .safepoint)).symm hfits hbalance
  have hsame : s.setState t (s.state t) = s := by
    unfold setState
    rw [update_eq_self]
  rwa [hsame] at hmove

theorem SafepointInv.move_parked (hfrom : ¬p.HoldsLock) (hto : ¬p'.HoldsLock)
    (hp : p.place = .parked) (hp' : p'.place = .parked) : SafepointSafe (s.goto t p') := by
  have hreg : p.place ≠ .unregistered := by rw [hp]; decide
  have hfits := (h.fits hpc hreg).2
  rw [hp] at hfits
  exact h.move hpc hreg hfrom hto (hp' ▸ hfits) fun _ => by rw [hp, hp']

theorem SafepointInv.move_notify (hp : p.place ≠ .unregistered) (hfrom : ¬p.HoldsLock)
    (hto : ¬p'.HoldsLock) (hfits : Fits ph t (s.requested t) (s.state t) p'.place)
    (hbalance : balance ph t (s.state t) p'.place + 1 = balance ph t (s.state t) p.place) :
    SafepointSafe (s.notifyStopped.goto t p') := by
  have hmem := (h.fits hpc hp).1
  subst hpc
  have hlock : Owned s.lock (fun u => (s.pc u).notified) HoldsLock := by
    intro u
    rw [holdsLock_notified]
    exact h.lock u
  have hfrom' : ¬(s.pc t).notified.HoldsLock := fun hn =>
    hfrom (holdsLock_notified.mp hn)
  refine SafepointInv.of_goto (hlock.keep (iff_of_false hto hfrom')) h.idle
    h.armed (fun hp' => absurd hp' hto) (.of_not_holdsLock hto) (fun u _ hu => ⟨?_, ?_⟩) ?_
  · exact phase_notified.trans (h.phase u (holdsLock_notified.mp hu))
  · exact (h.knows u).notified
  · have hmove : Consistent ph s.registered (s.stopped + 1) s.requested
        (update s.state t (s.state t))
        (update (fun u => (s.pc u).place) t p'.place) := by
      refine h.threads.move hmem hfits fun _ => ?_
      push_cast
      linarith
    rw [update_eq_self] at hmove
    simpa only [notifyStopped, place_notified] using hmove

/-- The thread that holds the lock of the threads goes on with its stop. -/
theorem SafepointInv.hold {armed : Bool} {stopped : ℕ} {requested : τ → Bool}
    {state : τ → ThreadState} (hp : p.HoldsLock) (hp' : p'.HoldsLock)
    (hphase : p'.phase s.registered = ph') (harmed : armed = true ↔ ph' ≠ .idle)
    (hknows : p'.Knows s.registered stopped requested state t)
    (hthreads : Consistent ph' s.registered stopped requested state fun u => (s.pc u).place) :
    SafepointSafe ({ s with armed, stopped, requested, state }.goto t p') := by
  subst hpc
  refine SafepointInv.of_goto
    (h.lock.keep (iff_of_true hp' hp)) (fun hnone => ?_) harmed (fun _ => hphase) hknows
    (fun u hut hu => absurd (h.lock.unique hu hp) hut) ?_
  · have hsome := (h.lock t).mpr hp
    exact absurd (hsome.symm.trans hnone) (by simp)
  · rw [hp'.place_eq, ← hp.place_eq, update_eq_self]
    exact hthreads

end

end Frames

/-! ## Steps of any thread -/

section Steps

variable {s : SafepointState τ} {ph : Phase τ} {a : SafepointAction τ} {k : Purpose}

omit [DecidableEq τ] in
theorem Purpose.place_pc : (k.pc : SafepointPc τ).place = .parked := by cases k <;> rfl

omit [DecidableEq τ] in
theorem Purpose.not_holdsLock_pc : ¬(k.pc : SafepointPc τ).HoldsLock := by
  cases k <;> exact id

variable (h : SafepointInv s ph)

include h

theorem mutator_keeps (hpc : s.pc a.thread = .mutator) :
    (safepointStep s a).Keeps SafepointSafe := by
  obtain ⟨_, hfits⟩ := h.fits hpc (by simp)
  simp only [safepointStep, hpc]
  by_cases hseen : a.call = .poll ∧ s.requested a.thread = true
  · -- the stop whose flag the thread has seen cannot have stopped it already
    obtain ⟨hcall, hflag⟩ := hseen
    have hclaiming : ph.IsClaiming := by
      rcases hfits.flag hflag with hph | rfl
      · exact hph
      · have hclaimed := hfits.claimed trivial
        exact hfits.claiming (.inl (hfits.allows.resolve_left hclaimed.1))
    have hswap : (a.call.pc (s.requested a.thread) : SafepointPc τ) = .safepointSwap := by
      rw [hcall, hflag]
      rfl
    rw [hswap]
    exact h.move hpc (by simp) id id { hfits with
      claiming := fun _ => hclaiming, sleeps := by simp } fun _ => by simp
  · have hplace : (a.call.pc (s.requested a.thread) : SafepointPc τ).place = .running := by
      cases hcall : a.call <;> simp_all [SafepointCall.pc]
    have hlock : ¬(a.call.pc (s.requested a.thread) : SafepointPc τ).HoldsLock := by
      cases hcall : a.call <;> simp_all [SafepointCall.pc]
    exact h.move hpc (by simp) id hlock (hplace ▸ hfits) fun _ => by rw [hplace]; rfl

theorem safepointSwap_keeps (hpc : s.pc a.thread = .safepointSwap) :
    (safepointStep s a).Keeps SafepointSafe := by
  obtain ⟨_, hfits⟩ := h.fits hpc (by simp)
  have hclaiming := hfits.claiming (.inr trivial)
  simp only [safepointStep, hpc]
  rw [if_pos hfits.allows.symm]
  refine h.move_state hpc (by simp) id id (.inr rfl) ⟨rfl, fun _ => by simp,
    fun _ => .inr (.inr ⟨rfl, hclaiming⟩), fun _ => hclaiming, hfits.flag, by simp⟩ fun _ => ?_
  -- a claimed thread owes its notification before and after
  by_cases hc : ph.Claims a.thread
  · have hst := hfits.allows.resolve_left (hfits.claimed hc).1
    simp [hst]
  · simp only [balance, if_neg hc]
    rcases hfits.unclaimed hc with hst | hst | ⟨hst, _⟩ <;> simp

theorem safepointEnter_keeps (hpc : s.pc a.thread = .safepointEnter) :
    (safepointStep s a).Keeps SafepointSafe := by
  obtain ⟨_, hfits⟩ := h.fits hpc (by simp)
  have hclaiming := hfits.claiming (.inr trivial)
  have hidle : ph ≠ .idle := by rintro rfl; exact hclaiming
  have hst : s.state a.thread = .safepoint := hfits.allows
  simp only [safepointStep, hpc]
  rw [if_pos (h.armed.mpr hidle)]
  refine h.move_notify hpc (by simp) id id { hfits with
    allows := .inl hst, claiming := fun _ => hclaiming, sleeps := fun _ => hidle } ?_
  by_cases hc : ph.Claims a.thread <;> simp [hc, hst]

theorem safepointCheck_keeps (hpc : s.pc a.thread = .safepointCheck) :
    (safepointStep s a).Keeps SafepointSafe := by
  obtain ⟨_, hfits⟩ := h.fits hpc (by simp)
  simp only [safepointStep, hpc]
  by_cases harmed : s.armed = true
  · rw [if_pos harmed]
    exact h.move hpc (by simp) id id { hfits with
      sleeps := fun _ => h.armed.mp harmed } fun _ => by simp
  · -- the stop has ended, so that the thread is parked
    rw [if_neg harmed]
    obtain rfl : ph = .idle := by
      by_contra hidle
      exact harmed (h.armed.mpr hidle)
    have hallows := hfits.allows
    have hst : s.state a.thread = .parked := by
      rcases hfits.idle with hst | hst <;> simp_all
    exact h.move hpc (by simp) id id { hfits with
      allows := .inl hst, sleeps := by simp } fun hph => absurd hph id

theorem park_keeps (hpc : s.pc a.thread = .park k) : (safepointStep s a).Keeps SafepointSafe := by
  obtain ⟨_, hfits⟩ := h.fits hpc (by simp)
  simp only [safepointStep, hpc]
  rcases hfits.allows with hst | hst
  · have hc : ¬ph.Claims a.thread := fun hc => (hfits.claimed hc).1 hst
    rw [if_pos hst]
    refine h.move_state hpc (by simp) id Purpose.not_holdsLock_pc (by simp [hst]) ?_ fun _ => ?_
    · rw [Purpose.place_pc]
      exact ⟨.inl rfl, fun hc' => absurd hc' hc, fun _ => by simp, by simp, hfits.flag, by simp⟩
    · rw [Purpose.place_pc]
      simp [hc]
  · rw [if_neg (by simp [hst])]
    exact h.move hpc (by simp) id id { hfits with
      allows := hst, claiming := fun _ => hfits.claiming (.inl hst), sleeps := by simp }
      fun _ => by simp

theorem parkSlow_keeps (hpc : s.pc a.thread = .parkSlow k) :
    (safepointStep s a).Keeps SafepointSafe := by
  obtain ⟨_, hfits⟩ := h.fits hpc (by simp)
  have hst : s.state a.thread = .safepointRequested := hfits.allows
  have hclaiming := hfits.claiming (.inl hst)
  have hc : ph.Claims a.thread := by
    by_contra hc
    simpa [hst] using hfits.unclaimed hc
  simp only [safepointStep, hpc]
  rw [if_pos hst]
  exact h.move_state hpc (by simp) id id (by simp [hst]) ⟨rfl, fun _ => by simp,
    fun hc' => absurd hc hc', fun _ => hclaiming, hfits.flag, by simp⟩
    fun _ => by simp [hst]

theorem notifyPark_keeps (hpc : s.pc a.thread = .notifyPark k) :
    (safepointStep s a).Keeps SafepointSafe := by
  obtain ⟨_, hfits⟩ := h.fits hpc (by simp)
  have hst : s.state a.thread = .parkedSafepoint := hfits.allows
  have hclaiming := hfits.claiming (.inr trivial)
  have hidle : ph ≠ .idle := by rintro rfl; exact hclaiming
  have hc : ph.Claims a.thread := by
    by_contra hc
    simpa [hst] using hfits.unclaimed hc
  simp only [safepointStep, hpc]
  rw [if_pos (h.armed.mpr hidle)]
  refine h.move_notify hpc (by simp) id Purpose.not_holdsLock_pc ?_ ?_
  · rw [Purpose.place_pc]
    exact { hfits with allows := .inr hst, claiming := fun _ => hclaiming, sleeps := by simp }
  · rw [Purpose.place_pc]
    simp [hc, hst]

theorem SafepointInv.unpark {t : τ} {p : SafepointPc τ} (hpc : s.pc t = p)
    (hp : p.place = .parked) (hlock : ¬p.HoldsLock) (hst : s.state t = .parked) :
    SafepointSafe ((s.setState t .running).goto t .mutator) := by
  have hreg : p.place ≠ .unregistered := by rw [hp]; decide
  obtain ⟨_, hfits⟩ := h.fits hpc hreg
  have hc : ¬ph.Claims t := fun hc => (hfits.claimed hc).2 hst
  refine h.move_state hpc hreg hlock id (by simp [hst]) ⟨.inl rfl, fun hc' => absurd hc' hc,
    fun _ => by simp, by simp, hfits.flag, by simp⟩ fun _ => ?_
  simp [hc, hst]

theorem unpark_keeps (hpc : s.pc a.thread = .unpark) : (safepointStep s a).Keeps SafepointSafe := by
  simp only [safepointStep, hpc]
  by_cases hst : s.state a.thread = .parked
  · rw [if_pos hst]
    exact h.unpark hpc rfl id hst
  · rw [if_neg hst]
    exact h.move_parked hpc id id rfl rfl

theorem unparkSlow_keeps (hpc : s.pc a.thread = .unparkSlow) :
    (safepointStep s a).Keeps SafepointSafe := by
  obtain ⟨_, hfits⟩ := h.fits hpc (by simp)
  simp only [safepointStep, hpc]
  rcases hfits.allows with hst | hst
  · rw [if_pos hst]
    exact h.unpark hpc rfl id hst
  · rw [if_neg (by simp [hst]), if_pos hst]
    exact h.move_parked hpc id id rfl rfl

theorem unparkWait_keeps (hpc : s.pc a.thread = .unparkWait) :
    (safepointStep s a).Keeps SafepointSafe := by
  obtain ⟨_, hfits⟩ := h.fits hpc (by simp)
  simp only [safepointStep, hpc]
  by_cases harmed : s.armed = true
  · rw [if_pos harmed]
    exact h.move hpc (by simp) id id { hfits with
      sleeps := fun _ => h.armed.mp harmed } fun _ => by simp
  · rw [if_neg harmed]
    exact h.move_parked hpc id id rfl rfl

end Steps

/-! ## Steps under the lock of the threads -/

section Locked

variable {s : SafepointState τ} {ph : Phase τ} {a : SafepointAction τ} {t u : τ}
  {rest : List τ} {running : ℕ}

theorem SafepointInv.of_free (hlock : s.lock = none) (hfree : ∀ u, ¬(s.pc u).HoldsLock)
    (harmed : s.armed = false)
    (hthreads : Consistent .idle s.registered s.stopped s.requested s.state
      fun u => (s.pc u).place) : SafepointSafe s := by
  refine ⟨.idle, fun u => ?_, fun _ => rfl, fun u hu => absurd hu (hfree u), by simp [harmed],
    fun u => .of_not_holdsLock (hfree u), hthreads⟩
  rw [hlock]
  exact iff_of_false (by simp) (hfree u)

theorem SafepointInv.armed_of_idle (h : SafepointInv s .idle) : s.armed = false := by
  rw [← Bool.not_eq_true, h.armed]
  simp

theorem update_not_holdsLock {pc : τ → SafepointPc τ} {p : SafepointPc τ} (hp : ¬p.HoldsLock)
    (h : ∀ v, v ≠ t → ¬(pc v).HoldsLock) (u : τ) : ¬(update pc t p u).HoldsLock := by
  by_cases hut : u = t
  · rwa [hut, update_self]
  · rw [update_of_ne hut]
    exact h u hut

theorem SafepointInv.knows_cas (h : SafepointInv s (.claiming (u :: rest) running)) :
    (cas u (s.state u) rest running).Knows s.registered s.stopped s.requested s.state
      t := by
  have hfits := h.threads.fits u (h.threads.rest_subset mem_cons_self)
  rcases hfits.unclaimed (by simp) with hst | hst | ⟨hst, _⟩
  · exact .inl hst
  · exact .inr (.inl hst)
  · exact .inr (.inr ⟨hst, hst⟩)

section

variable (h : SafepointInv s ph)

include h

theorem SafepointInv.not_holdsLock (hlock : s.lock = none) (u : τ) : ¬(s.pc u).HoldsLock := by
  intro hu
  exact absurd (hlock.symm.trans ((h.lock u).mpr hu)) (by simp)

variable {p : SafepointPc τ}

/-- The phase that the place of the thread with the lock of the threads stands for. -/
theorem SafepointInv.phase_eq (hpc : s.pc t = p) (hp : p.HoldsLock) :
    ph = p.phase s.registered := by
  subst hpc
  exact (h.phase t hp).symm

theorem SafepointInv.knows_at (hpc : s.pc t = p) :
    p.Knows s.registered s.stopped s.requested s.state t := hpc ▸ h.knows t

/-- The thread with the lock of the threads goes on in the same phase. -/
theorem SafepointInv.hold_same {p' : SafepointPc τ} (hpc : s.pc t = p) (hp : p.HoldsLock)
    (hp' : p'.HoldsLock) (hphase : p'.phase s.registered = p.phase s.registered)
    (hknows : p'.Knows s.registered s.stopped s.requested s.state t) :
    SafepointSafe (s.goto t p') :=
  h.hold hpc hp hp' (hphase.trans (h.phase_eq hpc hp).symm) h.armed hknows h.threads

theorem addLock_keeps (hpc : s.pc a.thread = .addLock) :
    (safepointStep s a).Keeps SafepointSafe := by
  simp only [safepointStep, hpc]
  cases hlock : s.lock with
  | some u => trivial
  | none =>
    obtain rfl := h.idle hlock
    have hfree := h.not_holdsLock hlock
    by_cases habsent : s.pc a.fresh = .absent
    · have hne : a.thread ≠ a.fresh := by
        intro he
        rw [← he, hpc] at habsent
        exact absurd habsent (by simp)
      have hnot : a.fresh ∉ s.registered := by
        rw [h.threads.registered_iff, habsent]
        simp
      have hparked : ((s.create a.fresh).state a.fresh).isParked = true := by
        simp [create, ThreadState.isParked]
      simp only [habsent, hparked]
      refine SafepointInv.of_free hlock ?_ h.armed_of_idle ?_
      · exact update_not_holdsLock id fun v _ => update_not_holdsLock id (fun v _ => hfree v) v
      · have hplaces : (fun u => (update (update s.pc a.fresh .unpark) a.thread
            .unpark u).place) = update (fun u => (s.pc u).place) a.fresh .parked := by
          rw [place_update, place_update]
          refine update_eq_iff.mpr ⟨?_, fun _ _ => rfl⟩
          rw [update_of_ne hne, hpc]
          rfl
        have hthreads := h.threads.register hnot
        rw [← hplaces] at hthreads
        exact hthreads
    · simp [habsent, Outcome.Keeps]

theorem removeLock_keeps (hpc : s.pc a.thread = .removeLock) :
    (safepointStep s a).Keeps SafepointSafe := by
  simp only [safepointStep, hpc]
  cases hlock : s.lock with
  | some u => trivial
  | none =>
    obtain rfl := h.idle hlock
    have hfree := h.not_holdsLock hlock
    refine SafepointInv.of_free rfl (update_not_holdsLock id fun v _ => hfree v) h.armed_of_idle ?_
    change Consistent .idle _ _ _ _ fun u => (update s.pc a.thread .gone u).place
    rw [place_update]
    exact h.threads.leave a.thread

theorem stopLock_keeps (hpc : s.pc a.thread = .stopLock) :
    (safepointStep s a).Keeps SafepointSafe := by
  simp only [safepointStep, hpc]
  cases hlock : s.lock with
  | some u => trivial
  | none =>
    obtain rfl := h.idle hlock
    have hfree := h.not_holdsLock hlock
    have howned := h.lock
    rw [hlock] at howned
    refine SafepointInv.of_goto (howned.take trivial)
      (fun _ => rfl) h.armed (fun _ => rfl) trivial (fun u _ hu => absurd hu (hfree u)) ?_
    have hsame : (stopLen : SafepointPc τ).place = (s.pc a.thread).place := by
      rw [hpc]
      rfl
    rw [hsame, update_eq_self]
    exact h.threads

theorem cas_keeps {current : ThreadState} (hpc : s.pc a.thread = .cas u current rest running) :
    (safepointStep s a).Keeps SafepointSafe := by
  obtain rfl := h.phase_eq hpc trivial
  simp only [safepointStep, hpc]
  rcases h.knows_at hpc with rfl | rfl | ⟨rfl, hst⟩
  · unfold claim
    by_cases hst : s.state u = .running
    · rw [if_pos hst]
      exact h.hold hpc trivial trivial rfl (by simpa using h.armed) trivial
        (h.threads.claim_running hst)
    · rw [if_neg hst]
      exact h.hold_same hpc trivial trivial rfl h.knows_cas
  · unfold claim
    by_cases hst : s.state u = .parked
    · rw [if_pos hst]
      exact h.hold hpc trivial trivial rfl (by simpa using h.armed) trivial
        (h.threads.claim_parked hst)
    · rw [if_neg hst]
      exact h.hold_same hpc trivial trivial rfl h.knows_cas
  · exact h.hold hpc trivial trivial rfl (by simpa using h.armed) trivial
      (h.threads.claim_safepoint hst)

theorem clearRequested_keeps (hpc : s.pc a.thread = .clearRequested rest) :
    (safepointStep s a).Keeps SafepointSafe := by
  obtain rfl := h.phase_eq hpc trivial
  have hknows := h.knows_at hpc
  cases rest with
  | nil =>
    simp only [safepointStep, hpc]
    refine h.hold hpc trivial trivial rfl (by simpa using h.armed) trivial
      (h.threads.beginRelease fun u hu => ?_)
    by_contra hflag
    simpa using hknows u hu (by simpa using hflag)
  | cons u rest =>
    simp only [safepointStep, hpc]
    refine h.hold hpc trivial trivial rfl h.armed (fun v hv hflag => ?_)
      (h.threads.request (.inr rfl))
    by_cases hvu : v = u
    · rw [hvu, update_self] at hflag
      exact absurd hflag (by simp)
    · rw [update_of_ne hvu] at hflag
      exact (mem_cons.mp (hknows v hv hflag)).resolve_left hvu

theorem disarm_keeps (hpc : s.pc a.thread = .disarm) : (safepointStep s a).Keeps SafepointSafe := by
  obtain rfl := h.phase_eq hpc trivial
  have hlock : Owned s.lock (fun u => (s.pc u).wokenUp) HoldsLock := by
    intro u
    rw [holdsLock_wokenUp]
    exact h.lock u
  simp only [safepointStep, hpc]
  rw [if_pos (h.armed.mpr (by simp))]
  refine SafepointInv.of_goto (hlock.keep (by simp [hpc, wokenUp]))
    (fun _ => rfl) (by simp) (fun _ => rfl) trivial (fun u hut hu => absurd ?_ hut) ?_
  · exact h.lock.unique (holdsLock_wokenUp.mp hu) (by rw [hpc]; trivial)
  · have hsame : (unlock : SafepointPc τ).place = (s.pc a.thread).place.wokenUp := by
      rw [hpc]
      rfl
    simp only [place_wokenUp]
    rw [hsame, update_eq_self]
    exact h.threads.finish

theorem unlock_keeps (hpc : s.pc a.thread = .unlock) : (safepointStep s a).Keeps SafepointSafe := by
  obtain rfl := h.phase_eq hpc trivial
  simp only [safepointStep, hpc]
  refine SafepointInv.of_free rfl (update_not_holdsLock id fun v hv hlock => ?_) h.armed_of_idle ?_
  · exact hv (h.lock.unique hlock (by rw [hpc]; trivial))
  · change Consistent .idle _ _ _ _ fun u => (update s.pc a.thread .unpark u).place
    have hsame : (unpark : SafepointPc τ).place = (s.pc a.thread).place := by
      rw [hpc]
      rfl
    rw [place_update, hsame, update_eq_self]
    exact h.threads

omit h in
theorem SafepointInv.checkStopped (h : SafepointInv s (.claiming [] running)) (hpc : s.pc t = p)
    (hp : p.HoldsLock)
    (hphase : p.phase s.registered = .claiming [] running) :
    (s.checkStopped t running).Keeps SafepointSafe := by
  unfold SafepointState.checkStopped
  by_cases hlt : s.stopped < running
  · rw [if_pos hlt]
    exact h.hold_same hpc hp trivial hphase.symm hlt
  · have heq : s.stopped = running := le_antisymm h.threads.stopped_le (not_lt.mp hlt)
    rw [if_neg hlt, if_pos heq]
    have hthreads := h.threads
    rw [heq] at hthreads
    exact h.hold hpc hp trivial rfl (by simpa using h.armed) trivial (heq ▸ hthreads.stop)

/-- **A step of the thread that holds the lock of the threads.** -/
theorem holdsLock_keeps (hp : (s.pc a.thread).HoldsLock) :
    (safepointStep s a).Keeps SafepointSafe := by
  cases hpc : s.pc a.thread with
  | stopLen =>
    have hmem := (h.fits hpc (by simp)).1
    simp only [safepointStep, hpc]
    by_cases hlen : s.registered.length = 1
    · rw [if_pos hlen]
      obtain ⟨u, hu⟩ := length_eq_one_iff.mp hlen
      rw [hu] at hmem
      obtain rfl := mem_singleton.mp hmem
      exact h.hold_same hpc trivial trivial rfl hu
    · rw [if_neg hlen]
      exact h.hold_same hpc trivial trivial rfl trivial
  | arm =>
    obtain rfl := h.phase_eq hpc trivial
    simp only [safepointStep, hpc]
    rw [if_neg (by simp [h.armed_of_idle])]
    exact h.hold hpc trivial trivial rfl (by simp) trivial h.threads.begin
  | setRequested rest =>
    obtain rfl := h.phase_eq hpc trivial
    cases rest with
    | nil =>
      simp only [safepointStep, hpc]
      exact h.hold_same hpc trivial trivial rfl trivial
    | cons u rest =>
      simp only [safepointStep, hpc]
      exact h.hold hpc trivial trivial rfl h.armed trivial (h.threads.request (.inl trivial))
  | load rest running =>
    obtain rfl := h.phase_eq hpc trivial
    cases rest with
    | nil =>
      simp only [safepointStep, hpc]
      exact h.hold_same hpc trivial trivial rfl trivial
    | cons u rest =>
      simp only [safepointStep, hpc]
      exact h.hold_same hpc trivial trivial rfl h.knows_cas
  | cas u current rest running => exact cas_keeps h hpc
  | waitStopped running =>
    obtain rfl := h.phase_eq hpc trivial
    simp only [safepointStep, hpc]
    rw [if_pos (h.armed.mpr (by simp))]
    exact h.checkStopped hpc trivial rfl
  | stoppedAsleep running =>
    simp only [safepointStep, hpc]
    trivial
  | stoppedCheck running =>
    obtain rfl := h.phase_eq hpc trivial
    simp only [safepointStep, hpc]
    exact h.checkStopped hpc trivial rfl
  | operation alone =>
    simp only [safepointStep, hpc]
    cases alone with
    | true => exact h.hold_same hpc trivial trivial rfl trivial
    | false => exact h.hold_same hpc trivial trivial rfl fun u hu _ => hu
  | clearRequested rest => exact clearRequested_keeps h hpc
  | swapStates rest =>
    obtain rfl := h.phase_eq hpc trivial
    cases rest with
    | nil =>
      simp only [safepointStep, hpc]
      exact h.hold_same hpc trivial trivial rfl trivial
    | cons u rest =>
      simp only [safepointStep, hpc]
      rw [if_pos h.threads.releasing_waits]
      exact h.hold hpc trivial trivial rfl (by simpa using h.armed) trivial h.threads.release
  | disarm => exact disarm_keeps h hpc
  | unlock => exact unlock_keeps h hpc
  | _ => simp [hpc] at hp

end

/-- **The step lemma**: from the invariant no step fails, and each one keeps it. -/
theorem safepointStep_keeps (s : SafepointState τ) (a : SafepointAction τ)
    (h : SafepointSafe s) : (safepointStep s a).Keeps SafepointSafe := by
  obtain ⟨ph, h⟩ := h
  cases hpc : s.pc a.thread with
  | absent | gone | safepointAsleep | unparkAsleep =>
    simp only [safepointStep, hpc]
    trivial
  | mutator => exact mutator_keeps h hpc
  | safepointSwap => exact safepointSwap_keeps h hpc
  | safepointEnter => exact safepointEnter_keeps h hpc
  | safepointCheck => exact safepointCheck_keeps h hpc
  | park k => exact park_keeps h hpc
  | parkSlow k => exact parkSlow_keeps h hpc
  | notifyPark k => exact notifyPark_keeps h hpc
  | parked =>
    simp only [safepointStep, hpc]
    exact h.move_parked hpc id id rfl rfl
  | addLock => exact addLock_keeps h hpc
  | removeLock => exact removeLock_keeps h hpc
  | stopLock => exact stopLock_keeps h hpc
  | unpark => exact unpark_keeps h hpc
  | unparkSlow => exact unparkSlow_keeps h hpc
  | unparkWait => exact unparkWait_keeps h hpc
  | _ => exact holdsLock_keeps h (by simp [hpc])

theorem safepointSafe_start [Inhabited τ] : SafepointSafe (safepointSystem (τ := τ)).start := by
  refine SafepointInv.of_free rfl (fun u => ?_) rfl ⟨nodup_singleton _, fun u => ?_,
    nodup_nil, by simp, fun u hu => ?_, by simp⟩
  · by_cases hu : u = default <;> simp [safepointSystem, hu]
  · by_cases hu : u = default <;> simp [safepointSystem, hu]
  · obtain rfl := mem_singleton.mp hu
    simp only [safepointSystem]
    exact ⟨.inl rfl, fun hc => absurd hc id, fun _ => .inl rfl, by simp, by simp, by simp⟩

/-- **The run lemma**. -/
theorem safepointSafe_of_reachable [Inhabited τ] (h : safepointSystem.Reachable s) :
    SafepointSafe s :=
  h.invariant safepointSafe_start safepointStep_keeps

theorem SafepointInv.stopped_of_operation {alone : Bool} (h : SafepointInv s ph)
    (hpc : s.pc t = .operation alone) (hu : u ∈ s.registered) (hut : u ≠ t) :
    (s.state u = .safepoint ∨ s.state u = .parkedSafepoint) ∧ ¬(s.pc u).IsMutator := by
  cases alone with
  | true =>
    have hknows : s.registered = [t] := h.knows_at hpc
    rw [hknows] at hu
    exact absurd (mem_singleton.mp hu) hut
  | false =>
    obtain rfl := h.phase_eq hpc trivial
    have hst := h.threads.waits hu
    refine ⟨hst, fun hmut => ?_⟩
    have hallows := (h.threads.fits u hu).allows
    cases hu' : s.pc u with
    | mutator => rcases hst with hst | hst <;> simp [hu', hst] at hallows
    | _ => simp [hu'] at hmut

/-- At the end of a stop every thread runs or is parked, and none sleeps at the barrier. -/
theorem SafepointInv.idle_of_disarm {s' : SafepointState τ} (h : SafepointInv s ph)
    (hpc : s.pc a.thread = .disarm) (hstep : safepointStep s a = .next s')
    (hu : u ∈ s'.registered) :
    (s'.state u = .running ∨ s'.state u = .parked) ∧ ¬(s'.pc u).Sleeps := by
  obtain rfl := h.phase_eq hpc trivial
  simp only [safepointStep, hpc] at hstep
  rw [if_pos (h.armed.mpr (by simp))] at hstep
  obtain rfl := Outcome.next.inj hstep
  refine ⟨(h.threads.finish.fits u hu).idle, ?_⟩
  change ¬(update (fun u => (s.pc u).wokenUp) a.thread .unlock u).Sleeps
  by_cases hut : u = a.thread
  · rw [hut, update_self]
    exact id
  · rw [update_of_ne hut]
    cases s.pc u <;> exact id

theorem SafepointInv.stops_of_sleeps (h : SafepointInv s ph) (hu : (s.pc u).Sleeps) :
    ∃ t, (s.pc t).Stops := by
  have hplace : (s.pc u).place = .asleep ∨ (s.pc u).place = .dozing := by
    cases hpc : s.pc u <;> simp_all
  have hreg : (s.pc u).place ≠ .unregistered := by rcases hplace with hp | hp <;> rw [hp] <;> decide
  have hidle := (h.fits rfl hreg).2.sleeps hplace
  cases hlock : s.lock with
  | none => exact absurd (h.idle hlock) hidle
  | some t =>
    have hholds := (h.lock t).mp hlock
    refine ⟨t, ?_⟩
    rw [← h.phase t hholds] at hidle
    cases hpc : s.pc t with
    | operation alone => cases alone <;> simp_all
    | _ => simp_all

end Locked

/-- **Safepoints**: in every state of every run, while the operation of a `stop_the_world` runs
every other registered thread is in a safepoint or parked for one and runs no mutator code; no
assertion on the states and on the barrier fails; at the end of `resume_threads` every registered
thread runs or is parked, and none sleeps at the barrier; and a thread sleeps there only while a
stop is on. -/
theorem safepoint_safe [Inhabited τ] {s : SafepointState τ} (h : safepointSystem.Reachable s) :
    (∀ t alone, s.pc t = .operation alone → ∀ u ∈ s.registered, u ≠ t →
      (s.state u = .safepoint ∨ s.state u = .parkedSafepoint) ∧ ¬(s.pc u).IsMutator) ∧
    (∀ a, safepointStep s a ≠ .fails) ∧
    (∀ a s', s.pc a.thread = .disarm → safepointStep s a = .next s' → ∀ u ∈ s'.registered,
      (s'.state u = .running ∨ s'.state u = .parked) ∧ ¬(s'.pc u).Sleeps) ∧
    ∀ u, (s.pc u).Sleeps → ∃ t, (s.pc t).Stops := by
  obtain ⟨ph, hinv⟩ := safepointSafe_of_reachable h
  refine ⟨fun t alone hpc u hu hut => hinv.stopped_of_operation hpc hu hut, fun a hfails => ?_,
    fun a s' hpc hstep u hu => hinv.idle_of_disarm hpc hstep hu, fun u => hinv.stops_of_sleeps⟩
  have hkeeps := safepointStep_keeps s a ⟨ph, hinv⟩
  rw [hfails] at hkeeps
  exact hkeeps

/-- The main thread registers a second one and stops the world while that one runs. -/
theorem safepoint_safe_operation :
    ∃ s : SafepointState Bool, safepointSystem.Reachable s ∧ s.pc false = .operation false ∧
      s.registered = [false, true] ∧
      (∀ t alone, s.pc t = .operation alone → ∀ u ∈ s.registered, u ≠ t →
        (s.state u = .safepoint ∨ s.state u = .parkedSafepoint) ∧ ¬(s.pc u).IsMutator) ∧
      (∀ a, safepointStep s a ≠ .fails) ∧
      (∀ a s', s.pc a.thread = .disarm → safepointStep s a = .next s' → ∀ u ∈ s'.registered,
        (s'.state u = .running ∨ s'.state u = .parked) ∧ ¬(s'.pc u).Sleeps) ∧
      ∀ u, (s.pc u).Sleeps → ∃ t, (s.pc t).Stops := by
  let add : SafepointAction Bool := ⟨false, .addThread, true⟩
  let stop : SafepointAction Bool := ⟨false, .stopTheWorld, false⟩
  let poll : SafepointAction Bool := ⟨true, .poll, false⟩
  have hrun : ((safepointSystem).run (safepointSystem).start
      (List.replicate 4 add ++ [poll] ++ List.replicate 14 stop ++ List.replicate 3 poll ++
        [stop])).map (fun s => (s.pc false, s.registered)) =
      some (.operation false, [false, true]) := by decide
  obtain ⟨s, hs, heq⟩ := Option.map_eq_some_iff.mp hrun
  obtain ⟨hpc, hregistered⟩ := Prod.mk.inj heq
  have hreach := System.Reachable.start.run hs
  exact ⟨s, hreach, hpc, hregistered, safepoint_safe hreach⟩

/-- What a thread waits for. -/
theorem safepointStep_waits {s : SafepointState τ} {t v : τ}
    (h : safepointStep s ⟨t, .poll, v⟩ = .waits) (hv : s.pc v = .absent) :
    (s.pc t).place = .unregistered ∨ (s.pc t).Sleeps ∨ (s.pc t).place = .parked ∧
      ((∃ running, s.pc t = .stoppedAsleep running) ∨ ¬(s.pc t).HoldsLock ∧ s.lock ≠ none) := by
  cases hpc : s.pc t with
  | absent | gone => exact .inl rfl
  | safepointAsleep | unparkAsleep => exact .inr (.inl trivial)
  | stoppedAsleep running => exact .inr (.inr ⟨rfl, .inl ⟨running, rfl⟩⟩)
  | addLock | removeLock | stopLock =>
    refine .inr (.inr ⟨rfl, .inr ⟨id, fun hlock => ?_⟩⟩)
    simp [safepointStep, hpc, hlock, hv, create, ThreadState.isParked] at h
  | cas _ k | operation k | setRequested k | load k | clearRequested k | swapStates k =>
    cases k <;> simp [safepointStep, hpc, claim, ite_eq_iff] at h
  | _ => simp [safepointStep, hpc, checkStopped, ite_eq_iff] at h

/-- **No deadlock**, if a thread can be created: while a thread has the lock of the threads, it can
go on, or one whose stop it waits for; otherwise every thread can. -/
theorem safepoint_progress [Inhabited τ] {s : SafepointState τ} (h : safepointSystem.Reachable s)
    {v : τ} (hv : s.pc v = .absent) :
    (∀ t, s.lock = some t → ∃ w, (w = t ∨ s.state w = .safepointRequested ∨
      (s.pc w).place = .notifying ∨ (s.pc w).place = .entering) ∧
        ∃ s', safepointStep s ⟨w, .poll, v⟩ = .next s') ∧
    (s.lock = none → ∀ t ∈ s.registered, ∃ s', safepointStep s ⟨t, .poll, v⟩ = .next s') := by
  have hsafe := safepointSafe_of_reachable h
  have hgo (t : τ) := (safepointStep_keeps s ⟨t, .poll, v⟩ hsafe).exists_next
  obtain ⟨ph, hinv⟩ := hsafe
  refine ⟨fun t hlock => ?_, fun hlock t ht => hgo _ fun hwaits => ?_⟩
  · have hholds := (hinv.lock t).mp hlock
    by_cases hwaits : safepointStep s ⟨t, .poll, v⟩ = .waits
    swap
    · exact ⟨t, .inl rfl, hgo t hwaits⟩
    rcases safepointStep_waits hwaits hv with hplace | hsleeps | ⟨-, ⟨running, hpc⟩ | ⟨hnot, -⟩⟩
    · exact absurd (hholds.place_eq.symm.trans hplace) (by decide)
    · revert hholds hsleeps
      cases s.pc t <;> simp
    · -- not all threads that have been claimed have notified the barrier
      obtain rfl : .claiming [] running = ph := by simpa [hpc] using hinv.phase t hholds
      have hlt : s.stopped < running := by simpa [hpc] using hinv.knows t
      obtain ⟨w, hw, howes⟩ : ∃ w ∈ s.registered, s.state w = .safepointRequested ∨
          (s.pc w).place = .notifying ∨ (s.pc w).place = .entering := by
        by_contra hnone
        have hsum := hinv.threads.counts [] running rfl
        rw [sum_eq_zero] at hsum
        · omega
        · rintro _ hx
          obtain ⟨w, hw, rfl⟩ := mem_map.mp hx
          exact (if_pos (by simp)).trans (if_neg fun howes => hnone ⟨w, hw, howes⟩)
      refine ⟨w, .inr howes, hgo _ fun hwaits => ?_⟩
      have hallows := (hinv.threads.fits w hw).allows
      rcases safepointStep_waits hwaits hv with hplace | hsleeps | ⟨hplace, -⟩
      · exact (hinv.threads.registered_iff w).mp hw hplace
      · revert hsleeps hallows howes
        cases s.pc w <;> simp +contextual
      · simp only [hplace] at hallows howes
        rcases hallows with hst | hst <;> simp [hst] at howes
    · exact absurd hholds hnot
  · -- nobody stops the world, so nobody sleeps
    have hfree := hinv.not_holdsLock hlock
    rcases safepointStep_waits hwaits hv with hplace | hsleeps | ⟨-, ⟨running, hpc⟩ | ⟨-, hheld⟩⟩
    · exact (hinv.threads.registered_iff t).mp ht hplace
    · obtain ⟨u, hu⟩ := hinv.stops_of_sleeps hsleeps
      have hno := hfree u
      revert hno hu
      cases s.pc u <;> simp
    · exact hfree t (by simp [hpc])
    · exact hheld hlock

/-- The main thread has registered a second one and sleeps until that one has stopped. -/
theorem safepoint_progress_asleep :
    ∃ s : SafepointState ℕ, safepointSystem.Reachable s ∧ s.pc 0 = .stoppedAsleep 1 ∧
      ∃ w s', safepointStep s ⟨w, .poll, 2⟩ = .next s' := by
  have hrun : ((safepointSystem).run (safepointSystem).start
      (replicate 4 ⟨0, .addThread, 1⟩ ++ [⟨1, .poll, 2⟩] ++ replicate 14 ⟨0, .stopTheWorld, 2⟩)).map
        (fun s => (s.lock, s.pc 0, s.pc 2)) = some (some 0, .stoppedAsleep 1, .absent) := by decide
  obtain ⟨s, hs, heq⟩ := Option.map_eq_some_iff.mp hrun
  simp only [Prod.mk.injEq] at heq
  have hreach : safepointSystem.Reachable s := .run .start hs
  obtain ⟨w, -, hgoes⟩ := (safepoint_progress hreach heq.2.2).1 0 heq.1
  exact ⟨s, hreach, heq.2.1, w, hgoes⟩

end Dora.Sync
