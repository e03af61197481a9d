import Dora.Sync.Mutex

/-!
# Mutexes exclude and lose no wakeup

## Main definitions

* `MutexInv`: word, owner and lock belong to the threads whose places say so; the blocking data are
  those of one queue of threads in `block`; and whenever the queue is not empty, the word says so,
  or a thread notifies, or a thread in `lockSlow` will try the word again

## Main results

* `mutexStep_keeps`: every step keeps it
* `mutex_safe`, `mutex_progress`: mutual exclusion without lost wakeups, and no deadlock
-/

namespace Dora.Sync

open List Function

attribute [local simp] mutexSystem MutexState.goto lockedContended

variable {τ : Type} [DecidableEq τ]

namespace MutexPc

/-- The thread has taken the mutex and not yet given it back. -/
@[simp]
def Holds : MutexPc τ → Prop
  | takeOwner | inside | dropOwner | exchange => True
  | _ => False

/-- The thread is the owner. -/
@[simp]
def HasOwner : MutexPc τ → Prop
  | inside | dropOwner => True
  | _ => False

/-- The thread holds the lock of the wait lists. -/
@[simp]
def HoldsWaitLock : MutexPc τ → Prop
  | waitCheck | waitAppend | notifyRemove | notifyUpdate _ _ => True
  | _ => False

/-- The thread has set the word to `unlocked` and has not yet woken a thread. -/
@[simp]
def Notifies : MutexPc τ → Prop
  | notifyLock | notifyRemove => True
  | _ => False

/-- The thread is in `lockSlow` before a compare-and-exchange. -/
@[simp]
def Tries : MutexPc τ → Prop
  | transition | retry => True
  | _ => False

/-- The thread is about to update the entry. -/
@[simp]
def Updates : MutexPc τ → Prop
  | notifyUpdate _ _ => True
  | _ => False

end MutexPc

/-- **The queue of the mutex**: `q` are the threads in `block` that have not been woken, the entry
is that of `q` unless a thread is about to write it, and the threads have been woken in the order
in which they were queued. -/
structure QueueOf (s : MutexState τ) (q : List τ) : Prop where
  links : Links s.threads fun _ : Unit => q
  queued : ∀ t ∈ q, s.pc t = .blocked
  entry : (∀ t, ¬(s.pc t).Updates) → s.entry = entryOf q
  update : ∀ t entry next, s.pc t = .notifyUpdate entry next →
    next.map (fun next => (⟨next, entry.tail⟩ : HeadAndTail τ)) = entryOf q
  history : s.arrivals = s.wakeups ++ q

/-- The thread `t` at the place `pc` will look after the threads of the queue: it notifies, or it
will try the word again, possibly after it has been woken. -/
@[simp]
def LooksAfter (q : List τ) (t : τ) (pc : MutexPc τ) : Prop :=
  pc.Notifies ∨ pc.Tries ∨ pc = .blocked ∧ t ∉ q

/-- **No lost wakeup**: the word says that threads may be queued, or somebody looks after them; the
same for a thread that is about to be queued. -/
structure Attended (data : Int32) (pc : τ → MutexPc τ) (q : List τ) : Prop where
  append : ∀ t, pc t = .waitAppend → data = lockedContended ∨ ∃ u, pc u = .notifyLock
  queue : q ≠ [] → data = lockedContended ∨ ∃ u, LooksAfter q u (pc u)

/-- **The invariant**, with the queue and the thread that has the mutex. -/
structure MutexInv (s : MutexState τ) (q : List τ) (holder : Option τ) : Prop where
  range : s.data = unlocked ∨ s.data = locked ∨ s.data = lockedContended
  unlocked_iff : s.data = unlocked ↔ holder = none
  holds : Owned holder s.pc MutexPc.Holds
  hasOwner : Owned s.owner s.pc MutexPc.HasOwner
  waitLock : Owned s.waitLock s.pc MutexPc.HoldsWaitLock
  queue : QueueOf s q
  attended : Attended s.data s.pc q

section Frames

variable {s : MutexState τ} {q : List τ} {t : τ} {p : MutexPc τ} {data : Int32}

theorem QueueOf.goto (h : QueueOf s q) (ht : t ∉ q) (hfrom : ¬(s.pc t).Updates)
    (hto : ¬p.Updates) (owner waitLock : Option τ) (data : Int32) :
    QueueOf ({ s with data, owner, waitLock }.goto t p) q := by
  have hpc : ∀ u, ¬(Function.update s.pc t p u).Updates ↔ ¬(s.pc u).Updates := by
    intro u
    by_cases hu : u = t
    · subst hu
      rw [update_self]
      tauto
    · rw [update_of_ne hu]
  refine ⟨h.links, ?_, ?_, ?_, h.history⟩
  · intro u hu
    have hne : u ≠ t := fun he => ht (he ▸ hu)
    exact (update_of_ne hne ..).trans (h.queued u hu)
  · intro hno
    exact h.entry fun u => (hpc u).mp (hno u)
  · intro u entry next hu
    have hu' : Function.update s.pc t p u = .notifyUpdate entry next := hu
    by_cases hut : u = t
    · subst hut
      rw [update_self] at hu'
      exact absurd (hu' ▸ trivial) hto
    · rw [update_of_ne hut] at hu'
      exact h.update u entry next hu'

omit [DecidableEq τ] in
theorem Attended.of_contended {pc : τ → MutexPc τ} : Attended lockedContended pc q :=
  ⟨fun _ _ => .inl rfl, fun _ => .inl rfl⟩

/-- Somebody looks after the queue when a thread moves that looks after it afterwards if it has
done so before. -/
theorem Attended.goto {pc : τ → MutexPc τ} {p' : MutexPc τ} {data' : Int32}
    (h : Attended data pc q) (hpc : pc t = p)
    (hdata : data = lockedContended → data' = lockedContended)
    (hmove : (q ≠ [] → LooksAfter q t p → LooksAfter q t p') ∧
      (∀ u, pc u = .waitAppend → p ≠ .notifyLock) ∧ p' ≠ .waitAppend) :
    Attended data' (update pc t p') q := by
  subst hpc
  obtain ⟨hlooks, hfrom, hto⟩ := hmove
  refine ⟨?_, ?_⟩
  · intro u hu
    have hne : u ≠ t := by
      rintro rfl
      rw [update_self] at hu
      exact hto hu
    rw [update_of_ne hne] at hu
    refine (h.append u hu).imp hdata fun hex => ?_
    exact exists_update (P := fun _ (p : MutexPc τ) => p = .notifyLock) hex
      fun ht => absurd ht (hfrom u hu)
  · intro hq
    exact (h.queue hq).imp hdata fun hex => exists_update hex (hlooks hq)

end Frames

/-! ## The steps -/

section Steps

variable {s : MutexState τ} {q : List τ} {holder : Option τ} {t : τ}

/-- What the steps keep. -/
def MutexSafe (s : MutexState τ) : Prop := ∃ q holder, MutexInv s q holder

omit [DecidableEq τ] in
/-- A thread that is not in `block` is not in the queue. -/
theorem QueueOf.not_mem (h : QueueOf s q) (ht : s.pc t ≠ .blocked) : t ∉ q :=
  fun hmem => ht (h.queued t hmem)

section

variable (h : MutexInv s q holder)
include h

omit [DecidableEq τ] in
/-- Nobody is about to be queued while another thread holds the lock of the wait lists. -/
theorem MutexInv.not_append (ht : (s.pc t).HoldsWaitLock) (hne : s.pc t ≠ .waitAppend) (u : τ) :
    s.pc u ≠ .waitAppend := by
  intro hu
  have hut : u = t := h.waitLock.unique (by rw [hu]; trivial) ht
  exact hne (hut ▸ hu)

omit [DecidableEq τ] in
/-- Nobody is about to update the entry while another thread holds the lock of the wait lists. -/
theorem MutexInv.not_updates (ht : (s.pc t).HoldsWaitLock) (hne : ¬(s.pc t).Updates) (u : τ) :
    ¬(s.pc u).Updates := by
  intro hu
  have hholds : (s.pc u).HoldsWaitLock := by
    cases hpc : s.pc u <;> simp_all
  exact hne (h.waitLock.unique hholds ht ▸ hu)

omit [DecidableEq τ] in
/-- The thread that has the mutex is the only one that can be its owner. -/
theorem MutexInv.owner_eq_none (ht : (s.pc t).Holds) (hne : ¬(s.pc t).HasOwner) :
    s.owner = none := by
  refine Option.eq_none_iff_forall_ne_some.mpr fun u hu => ?_
  have hown := (h.hasOwner u).mp hu
  have hholds : (s.pc u).Holds := by
    cases hpc : s.pc u <;> simp_all
  exact hne (h.holds.unique hholds ht ▸ hown)

/-- A thread that is neither in the queue nor updates the entry moves: what is left are the word,
the resources, and that somebody looks after the queue. -/
theorem MutexInv.goto {p p' : MutexPc τ} {data : Int32} {holder' owner waitLock : Option τ}
    (hpc : s.pc t = p)
    (hrange : data = unlocked ∧ holder' = none ∨
      (data = locked ∨ data = lockedContended) ∧ holder' ≠ none)
    (hattended : Attended data (update s.pc t p') q)
    (hmove : Passes MutexPc.HoldsWaitLock s.waitLock waitLock t p p' ∧
      Passes MutexPc.HasOwner s.owner owner t p p' ∧ Passes MutexPc.Holds holder holder' t p p' ∧
      (p = .blocked → t ∉ q) ∧ ¬p.Updates ∧ ¬p'.Updates) :
    MutexSafe ({ s with data, owner, waitLock }.goto t p') := by
  subst hpc
  obtain ⟨hwait, howner, hholds, ht, hfrom, hto⟩ := hmove
  have hmem : t ∉ q := fun hmem => ht (h.queue.queued t hmem) hmem
  refine ⟨q, holder', ?_, ?_, h.holds.pass hholds, h.hasOwner.pass howner, h.waitLock.pass hwait,
    h.queue.goto hmem hfrom hto .., hattended⟩
  · exact hrange.imp And.left And.left
  · change data = unlocked ↔ holder' = none
    rcases hrange with ⟨hd, hh⟩ | ⟨hd | hd, hh⟩
    · exact ⟨fun _ => hh, fun _ => hd⟩
    · exact ⟨fun hd' => absurd (hd.symm.trans hd') (by decide), fun hh' => absurd hh' hh⟩
    · exact ⟨fun hd' => absurd (hd.symm.trans hd') (by decide), fun hh' => absurd hh' hh⟩

omit [DecidableEq τ] in
theorem MutexInv.range_holder :
    s.data = unlocked ∧ holder = none ∨
      (s.data = locked ∨ s.data = lockedContended) ∧ holder ≠ none := by
  rcases h.range with hd | hd
  · exact .inl ⟨hd, h.unlocked_iff.mp hd⟩
  · refine .inr ⟨hd, fun hh => ?_⟩
    rw [h.unlocked_iff.mpr hh] at hd
    exact absurd hd (by decide)

/-- Entering `lock`, and leaving the function it was called with. -/
theorem MutexInv.enter {p p' : MutexPc τ} (hpc : s.pc t = p)
    (hmove : p = .outside ∧ p' = .lockOp ∨ p = .inside ∧ p' = .dropOwner) :
    MutexSafe (s.goto t p') := by
  rcases hmove with ⟨rfl, rfl⟩ | ⟨rfl, rfl⟩
  all_goals exact h.goto hpc h.range_holder (h.attended.goto hpc id (by simp)) (by simp)

omit [DecidableEq τ] h in
theorem update_unit (q q' : List τ) : update (fun _ : Unit => q) () q' = fun _ => q' := by
  funext k
  exact update_self ..

theorem lockOp_keeps (hpc : s.pc t = .lockOp) : (mutexStep s t).Keeps MutexSafe := by
  simp only [mutexStep, hpc]
  rcases h.range_holder with ⟨hdata, rfl⟩ | ⟨hdata, hholder⟩
  · rw [if_pos hdata]
    refine h.goto hpc (.inr ⟨.inl rfl, Option.some_ne_none t⟩)
      (h.attended.goto hpc (fun hc => ?_) (by simp)) (by simp)
    exact absurd (hdata.symm.trans hc) (by decide)
  · -- `lockSlow` begins with an attempt to change the word
    have hne : s.data ≠ unlocked := fun he => hholder (h.unlocked_iff.mp he)
    rw [if_neg hne, if_pos hdata]
    exact h.goto hpc h.range_holder (h.attended.goto hpc id (by simp)) (by simp)

theorem transition_keeps (hpc : s.pc t = .transition) : (mutexStep s t).Keeps MutexSafe := by
  simp only [mutexStep, hpc]
  rcases h.range_holder with ⟨hdata, rfl⟩ | ⟨hdata | hdata, hholder⟩
  · rw [if_neg (by simp [hdata, unlocked, locked]), if_neg (by simp [hdata])]
    exact h.goto hpc h.range_holder (h.attended.goto hpc id (by simp)) (by simp)
  · rw [if_pos hdata]
    exact h.goto hpc (.inr ⟨.inr rfl, hholder⟩) .of_contended (by simp)
  · rw [if_neg (by simp [hdata, locked]), if_pos (by simp [hdata, unlocked])]
    exact h.goto hpc h.range_holder (hdata ▸ .of_contended) (by simp)

/-- Taking the lock of the wait lists. While it is free nobody is about to be queued. -/
theorem MutexInv.acquire {p p' : MutexPc τ} (hpc : s.pc t = p)
    (hmove : p = .waitLock ∧ p' = .waitCheck ∨ p = .notifyLock ∧ p' = .notifyRemove) :
    (s.acquire t p').Keeps MutexSafe := by
  unfold MutexState.acquire
  cases hlock : s.waitLock with
  | some u => trivial
  | none =>
    have hnone : ∀ u, s.pc u ≠ .waitAppend := by
      intro u hu
      have hown := (h.waitLock u).mpr (by rw [hu]; trivial)
      exact absurd (hlock.symm.trans hown) (by simp)
    rcases hmove with ⟨rfl, rfl⟩ | ⟨rfl, rfl⟩
    all_goals
      refine h.goto hpc h.range_holder (h.attended.goto hpc id ?_) (by simp [hlock])
      simp [hnone]

theorem waitCheck_keeps (hpc : s.pc t = .waitCheck) : (mutexStep s t).Keeps MutexSafe := by
  simp only [mutexStep, hpc]
  by_cases hdata : s.data = lockedContended
  · rw [if_pos hdata]
    exact h.goto hpc h.range_holder (hdata ▸ .of_contended) (by simp)
  · rw [if_neg hdata]
    exact h.goto hpc h.range_holder (h.attended.goto hpc id (by simp)) (by simp)

/-- A thread enters the queue. -/
theorem waitAppend_keeps (hpc : s.pc t = .waitAppend) : (mutexStep s t).Keeps MutexSafe := by
  have ht := h.queue.not_mem (t := t) (by simp [hpc])
  have hup := h.not_updates (t := t) (by simp [hpc]) (by simp [hpc])
  obtain ⟨entry, threads, happend, hentry, hlinks⟩ := h.queue.links.append (fun _ => ht) ()
  simp only [mutexStep, hpc]
  rw [h.queue.entry hup, happend]
  -- the places of the threads in the queue and of those that look after it
  have hother : ∀ u p, s.pc u = p → p ≠ .waitAppend → update s.pc t .blocked u = p := by
    intro u p hu hp
    have hne : u ≠ t := fun he => hp (by rw [← hu, he, hpc])
    exact (update_of_ne hne ..).trans hu
  have hno : ∀ u, ¬(update s.pc t .blocked u).Updates := by
    intro u
    by_cases hu : u = t
    · subst hu
      rw [update_self]
      exact id
    · rw [update_of_ne hu]
      exact hup u
  refine ⟨q ++ [t], holder, h.range, h.unlocked_iff, h.holds.keep (by simp [hpc]),
    h.hasOwner.keep (by simp [hpc]), h.waitLock.pass (.inr (.inr ⟨by simp [hpc], id, rfl⟩)), ?_, ?_⟩
  · refine ⟨?_, ?_, fun _ => hentry.symm, ?_, ?_⟩
    · rwa [update_unit] at hlinks
    · intro u hu
      rcases mem_append.mp hu with hu | hu
      · exact hother u .blocked (h.queue.queued u hu) (by simp)
      · obtain rfl := mem_singleton.mp hu
        exact update_self ..
    · intro u entry next hu
      have hu' : update s.pc t .blocked u = .notifyUpdate entry next := hu
      exact absurd (by rw [hu']; trivial) (hno u)
    · simp [h.queue.history]
  · have hlast : s.data = lockedContended ∨ ∃ u, update s.pc t .blocked u = .notifyLock := by
      refine (h.attended.append t hpc).imp_right ?_
      rintro ⟨u, hu⟩
      exact ⟨u, hother u .notifyLock hu (by simp)⟩
    refine ⟨fun _ _ => hlast, fun _ => hlast.imp_right ?_⟩
    rintro ⟨u, hu⟩
    exact ⟨u, .inl (by change MutexPc.Notifies (update s.pc t .blocked u); simp [hu])⟩

theorem blocked_keeps (hpc : s.pc t = .blocked) : (mutexStep s t).Keeps MutexSafe := by
  simp only [mutexStep, hpc]
  by_cases hb : (s.threads t).blocking = true
  · rw [if_pos hb]
    trivial
  · -- a thread of the queue would be blocking
    have ht : t ∉ q := fun hmem => hb (h.queue.links.blocking_iff.mpr ⟨(), hmem⟩)
    rw [if_neg hb]
    exact h.goto hpc h.range_holder (h.attended.goto hpc id (by simp)) (by simp [ht])

theorem retry_keeps (hpc : s.pc t = .retry) : (mutexStep s t).Keeps MutexSafe := by
  simp only [mutexStep, hpc]
  by_cases hdata : s.data = unlocked
  · rw [if_pos hdata]
    obtain rfl := h.unlocked_iff.mp hdata
    exact h.goto hpc (.inr ⟨.inr rfl, Option.some_ne_none t⟩) .of_contended (by simp)
  · rw [if_neg hdata]
    exact h.goto hpc h.range_holder (h.attended.goto hpc id (by simp)) (by simp)

theorem takeOwner_keeps (hpc : s.pc t = .takeOwner) : (mutexStep s t).Keeps MutexSafe := by
  have hnone := h.owner_eq_none (t := t) (by simp [hpc]) (by simp [hpc])
  simp only [mutexStep, hpc, if_pos hnone]
  exact h.goto hpc h.range_holder (h.attended.goto hpc id (by simp)) (by simp [hnone])

theorem dropOwner_keeps (hpc : s.pc t = .dropOwner) : (mutexStep s t).Keeps MutexSafe := by
  have hsome : s.owner = some t := (h.hasOwner t).mpr (by simp [hpc])
  simp only [mutexStep, hpc, if_pos hsome]
  exact h.goto hpc h.range_holder (h.attended.goto hpc id (by simp)) (by simp)

theorem exchange_keeps (hpc : s.pc t = .exchange) : (mutexStep s t).Keeps MutexSafe := by
  obtain rfl : holder = some t := (h.holds t).mpr (by simp [hpc])
  simp only [mutexStep, hpc]
  rcases h.range_holder with ⟨_, hnone⟩ | ⟨hdata | hdata, _⟩
  · exact absurd hnone (by simp)
  · rw [if_pos hdata]
    refine h.goto hpc (.inl ⟨rfl, rfl⟩) (h.attended.goto hpc (fun hc => ?_) (by simp)) (by simp)
    exact absurd (hdata.symm.trans hc) (by decide)
  · -- from now on the thread itself looks after the queue
    rw [if_neg (by simp [hdata, locked]), if_pos hdata]
    refine h.goto hpc (.inl ⟨rfl, rfl⟩) ⟨?_, ?_⟩ (by simp)
    · exact fun _ _ => .inr ⟨t, update_self ..⟩
    · exact fun _ => .inr (exists_update_self (.inl trivial))

/-- The first thread leaves the queue. -/
theorem notifyRemove_keeps (hpc : s.pc t = .notifyRemove) : (mutexStep s t).Keeps MutexSafe := by
  have ht := h.queue.not_mem (t := t) (by simp [hpc])
  have hup := h.not_updates (t := t) (by simp [hpc]) (by simp [hpc])
  have happ := h.not_append (t := t) (by simp [hpc]) (by simp [hpc])
  cases q with
  | nil =>
    have hnone : s.entry = none := h.queue.entry hup
    have hstep : mutexStep s t = .next ({ s with waitLock := none }.goto t .outside) := by
      simp only [mutexStep, hpc]
      rw [hnone]
    rw [hstep]
    exact h.goto hpc h.range_holder (h.attended.goto hpc id (by simp)) (by simp)
  | cons v q =>
    obtain ⟨hremove, hlinks⟩ := h.queue.links.remove rfl
    have hentry : s.entry = some ⟨v, (v :: q).getLast (cons_ne_nil v q)⟩ := h.queue.entry hup
    have hnodup := nodup_cons.mp (h.queue.links.nodup ())
    simp only [mutexStep, hpc, hentry, hremove]
    generalize hp : MutexPc.notifyUpdate ⟨v, (v :: q).getLast (cons_ne_nil v q)⟩ q.head? = p
    have hother : ∀ u, u ≠ t → update s.pc t p u = s.pc u :=
      fun u hne => update_of_ne hne ..
    have hqueued : ∀ u ∈ v :: q, update s.pc t p u = .blocked := fun u hu =>
      (hother u fun he => ht (he ▸ hu)).trans (h.queue.queued u hu)
    refine ⟨q, holder, h.range, h.unlocked_iff, h.holds.keep (by simp [hpc, ← hp]),
      h.hasOwner.keep (by simp [hpc, ← hp]), h.waitLock.keep (by simp [hpc, ← hp]), ?_, ?_⟩
    · refine ⟨?_, fun u hu => hqueued u (mem_cons_of_mem v hu), ?_, ?_, ?_⟩
      · rwa [update_unit] at hlinks
      · intro hno
        exact absurd (by simp [← hp]) (hno t)
      · intro u entry next hu
        have hu' : update s.pc t p u = .notifyUpdate entry next := hu
        have hut : u = t := by
          by_contra hne
          rw [hother u hne] at hu'
          exact hup u (by rw [hu']; trivial)
        rw [hut, update_self, ← hp, MutexPc.notifyUpdate.injEq] at hu'
        obtain ⟨rfl, rfl⟩ := hu'
        exact entryOf_tail v q
      · simp [h.queue.history]
    · -- the thread that has been woken looks after the rest of the queue
      refine ⟨fun u hu => ?_, fun _ => .inr ⟨v, .inr (.inr ⟨?_, hnodup.1⟩)⟩⟩
      · by_cases hut : u = t
        · rw [hut, ← hp] at hu
          simp at hu
        · exact absurd ((hother u hut).symm.trans hu) (happ u)
      · exact hqueued v mem_cons_self

theorem notifyUpdate_keeps {entry : HeadAndTail τ} {next : Option τ}
    (hpc : s.pc t = .notifyUpdate entry next) : (mutexStep s t).Keeps MutexSafe := by
  have ht := h.queue.not_mem (t := t) (by simp [hpc])
  simp only [mutexStep, hpc]
  have hup : ∀ u, ¬(update s.pc t .outside u).Updates := by
    intro u hu
    by_cases hut : u = t
    · rw [hut, update_self] at hu
      exact hu
    · rw [update_of_ne hut] at hu
      have hholds : (s.pc u).HoldsWaitLock := by
        cases hpc : s.pc u <;> simp_all
      exact hut (h.waitLock.unique hholds (by simp [hpc]))
  refine ⟨q, holder, h.range, h.unlocked_iff, h.holds.keep (by simp [hpc]),
    h.hasOwner.keep (by simp [hpc]), h.waitLock.pass (.inr (.inr ⟨by simp [hpc], id, rfl⟩)), ?_, ?_⟩
  · refine ⟨h.queue.links, fun u hu => ?_, fun _ => h.queue.update t entry next hpc, ?_,
      h.queue.history⟩
    · have hne : u ≠ t := fun he => ht (he ▸ hu)
      exact (update_of_ne hne ..).trans (h.queue.queued u hu)
    · intro u entry next hu
      have hu' : update s.pc t .outside u = .notifyUpdate entry next := hu
      exact absurd (by rw [hu']; trivial) (hup u)
  · exact h.attended.goto hpc id (by simp)

end

/-- **The step lemma**: from the invariant no step fails, and each one keeps it. -/
theorem mutexStep_keeps (s : MutexState τ) (t : τ) (h : MutexSafe s) :
    (mutexStep s t).Keeps MutexSafe := by
  obtain ⟨q, holder, h⟩ := h
  cases hpc : s.pc t with
  | outside =>
    simp only [mutexStep, hpc]
    exact h.enter hpc (.inl ⟨rfl, rfl⟩)
  | lockOp => exact lockOp_keeps h hpc
  | transition => exact transition_keeps h hpc
  | waitLock =>
    simp only [mutexStep, hpc]
    exact h.acquire hpc (.inl ⟨rfl, rfl⟩)
  | waitCheck => exact waitCheck_keeps h hpc
  | waitAppend => exact waitAppend_keeps h hpc
  | blocked => exact blocked_keeps h hpc
  | retry => exact retry_keeps h hpc
  | takeOwner => exact takeOwner_keeps h hpc
  | inside =>
    simp only [mutexStep, hpc]
    exact h.enter hpc (.inr ⟨rfl, rfl⟩)
  | dropOwner => exact dropOwner_keeps h hpc
  | exchange => exact exchange_keeps h hpc
  | notifyLock =>
    simp only [mutexStep, hpc]
    exact h.acquire hpc (.inr ⟨rfl, rfl⟩)
  | notifyRemove => exact notifyRemove_keeps h hpc
  | notifyUpdate entry next => exact notifyUpdate_keeps h hpc

theorem mutexSafe_start : MutexSafe (mutexSystem τ).start := by
  refine ⟨[], none, .inl rfl, by simp, ?_, ?_, ?_, ?_, ?_⟩
  · simp [Owned]
  · simp [Owned]
  · simp [Owned]
  · refine ⟨⟨fun _ => trivial, fun _ => nodup_nil, by simp, fun _ _ => rfl⟩, by simp,
      fun _ => rfl, by simp, rfl⟩
  · exact ⟨by simp, by simp⟩

/-- **The run lemma**. -/
theorem mutexSafe_of_reachable (h : (mutexSystem τ).Reachable s) : MutexSafe s :=
  h.invariant mutexSafe_start mutexStep_keeps

end Steps

/-- **Mutexes**: in every state of every run at most one thread is between `lockOp` and
`unlockOp`, no assertion fails, threads are woken in the order in which they were queued, and when
the queue is not empty the word says so, or a thread has set it to `unlocked` and has not yet woken
one, or a thread in `lockSlow` will try the word again. -/
theorem mutex_safe {s : MutexState τ} (h : (mutexSystem τ).Reachable s) :
    (∀ t u, (s.pc t).Holds → (s.pc u).Holds → t = u) ∧ (∀ t, mutexStep s t ≠ .fails) ∧
      ∃ q, QueueOf s q ∧ (q ≠ [] → s.data = lockedContended ∨ (∃ t, (s.pc t).Notifies) ∨
        ∃ t, (s.pc t).Tries ∨ s.pc t = .blocked ∧ t ∉ q) := by
  have hsafe := mutexSafe_of_reachable h
  refine ⟨?_, ?_, ?_⟩
  · obtain ⟨q, holder, hinv⟩ := hsafe
    exact fun t u ht hu => hinv.holds.unique ht hu
  · intro t hfails
    have hkeeps := mutexStep_keeps s t hsafe
    rw [hfails] at hkeeps
    exact hkeeps
  · obtain ⟨q, holder, hinv⟩ := hsafe
    refine ⟨q, hinv.queue, fun hq => (hinv.attended.queue hq).imp_right ?_⟩
    rintro ⟨u, hu | hu⟩
    · exact .inl ⟨u, hu⟩
    · exact .inr ⟨u, hu⟩

/-- One thread is in the function it called `lock` with, and a second one stands in the queue. -/
theorem mutex_safe_contended :
    ∃ s, (mutexSystem Bool).Reachable s ∧ s.entry = some ⟨true, true⟩ ∧
      (∀ t u, (s.pc t).Holds → (s.pc u).Holds → t = u) ∧
      (∀ t, mutexStep s t ≠ .fails) ∧
      ∃ q, QueueOf s q ∧ (q ≠ [] → s.data = lockedContended ∨ (∃ t, (s.pc t).Notifies) ∨
        ∃ t, (s.pc t).Tries ∨ s.pc t = .blocked ∧ t ∉ q) := by
  have hrun : ((mutexSystem Bool).run (mutexSystem Bool).start
      [false, false, false, true, true, true, true, true, true]).map (·.entry) =
      some (some ⟨true, true⟩) := by decide
  obtain ⟨s, hs, hentry⟩ := Option.map_eq_some_iff.mp hrun
  have hreach := System.Reachable.start.run hs
  exact ⟨s, hreach, hentry, mutex_safe hreach⟩

/-- What a thread waits for: to be woken, or for the lock of the wait lists. -/
theorem mutexStep_waits {s : MutexState τ} {t : τ} (h : mutexStep s t = .waits) :
    s.pc t = .blocked ∧ (s.threads t).blocking = true ∨
      (s.pc t = .waitLock ∨ s.pc t = .notifyLock) ∧ s.waitLock ≠ none := by
  unfold mutexStep MutexState.acquire at h
  cases hpc : s.pc t <;> simp only [hpc] at h <;> grind

/-- **No deadlock**: as long as a thread is in `lock`, one of those that are can go on. -/
theorem mutex_progress {s : MutexState τ} (h : (mutexSystem τ).Reachable s) {t : τ}
    (ht : s.pc t ≠ .outside) : ∃ u s', s.pc u ≠ .outside ∧ mutexStep s u = .next s' := by
  have hsafe := mutexSafe_of_reachable h
  by_contra hnone
  have hwaits {u : τ} (hu : s.pc u ≠ .outside) : mutexStep s u = .waits := by
    by_contra hgoes
    obtain ⟨s', hs'⟩ := (mutexStep_keeps s u hsafe).exists_next hgoes
    exact hnone ⟨u, s', hu, hs'⟩
  obtain ⟨q, holder, hinv⟩ := hsafe
  -- a thread that has the lock of the wait lists does not wait, so it is free
  have hfree : s.waitLock = none := by
    by_contra hlock
    obtain ⟨u, hu⟩ := Option.ne_none_iff_exists'.mp hlock
    have hholds := (hinv.waitLock u).mp hu
    have hin : s.pc u ≠ .outside := fun hpc => by simp [hpc] at hholds
    rcases mutexStep_waits (hwaits hin) with ⟨hpc, -⟩ | ⟨hpc | hpc, -⟩ <;> simp [hpc] at hholds
  -- and the threads in `lock` all stand in the queue
  have hqueued (u : τ) : s.pc u = .outside ∨ s.pc u = .blocked ∧ u ∈ q := by
    refine or_iff_not_imp_left.mpr fun hin => ?_
    rcases mutexStep_waits (hwaits hin) with ⟨hpc, hblocking⟩ | ⟨-, hlock⟩
    · refine ⟨hpc, by_contra fun hq => ?_⟩
      rw [hinv.queue.links.free u fun _ => hq] at hblocking
      cases hblocking
    · exact absurd hfree hlock
  have hmem : t ∈ q := ((hqueued t).resolve_left ht).2
  rcases hinv.attended.queue (ne_nil_of_mem hmem) with hdata | ⟨u, hu⟩
  · have hholder : holder ≠ none := by
      rw [ne_eq, ← hinv.unlocked_iff, hdata]
      decide
    obtain ⟨u, hu⟩ := Option.ne_none_iff_exists'.mp hholder
    have hholds := (hinv.holds u).mp hu
    rcases hqueued u with hpc | ⟨hpc, -⟩ <;> simp [hpc] at hholds
  · rcases hqueued u with hpc | ⟨hpc, hq⟩
    · simp [hpc] at hu
    · simp [hpc, hq] at hu

/-- The second thread waits for the first one. -/
theorem mutex_progress_contended :
    ∃ s, (mutexSystem Bool).Reachable s ∧ s.pc true = .blocked ∧
      ∃ u s', s.pc u ≠ .outside ∧ mutexStep s u = .next s' := by
  have hrun : ((mutexSystem Bool).run (mutexSystem Bool).start
      [false, false, false, true, true, true, true, true, true]).map (·.pc true) =
      some .blocked := by decide
  obtain ⟨s, hs, hpc⟩ := Option.map_eq_some_iff.mp hrun
  have hreach : (mutexSystem Bool).Reachable s := .run .start hs
  exact ⟨s, hreach, hpc, mutex_progress hreach (t := true) (by simp [hpc])⟩

end Dora.Sync
