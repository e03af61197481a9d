import Dora.Sync.Condition

/-!
# Conditions lose no wakeup

While threads are queued for the condition, `waiters` is 1 or a `notifyAll` is past its `set(0)` and
will wake them.

## Main definitions

* `ConditionInv`: this, with the owner of the lock of the wait lists, the blocking data of the
  queues, and where the threads in a queue wait

## Main results

* `conditionStep_keeps`: every step keeps the invariant
* `condition_safe`: what this means in every state of every run
-/

namespace Dora.Sync

open Function (forall_update_iff update update_of_ne update_self)
open List

attribute [local simp] ConditionState.goto conditionSystem

variable {μ τ : Type}

namespace ConditionPc

/-- The thread holds the lock of the wait lists. -/
@[simp]
def HoldsWaitLock : ConditionPc μ τ → Prop
  | enqueueStore _ | enqueueAppend _ | waitCheck _ | waitAppend _ | wakeupRemove _ _
  | wakeupUpdate _ _ _ _ | wakeupAllRemove | wakeupAllLoop _ => True
  | _ => False

/-- The thread may stand in the queue of `k`. -/
@[simp]
def WaitsFor (k : WaitKey μ) : ConditionPc μ τ → Prop
  | unlockOp _ | block _ | wakeupLock _ (some _) | wakeupRemove _ (some _)
  | wakeupUpdate _ (some _) _ _ => k = .condition
  | waitBlocked m => k = .mutex m
  | _ => False

/-- The thread has woken a thread of the queue of `k`, and the entry does not say so yet. -/
@[simp]
def Changes (k : WaitKey μ) : ConditionPc μ τ → Prop
  | wakeupUpdate k' _ _ _ => k = k'
  | wakeupAllLoop _ => k = .condition
  | _ => False

/-- What the thread knows of the queue while it changes the entry. -/
@[simp]
def Knows (w : WaitLists (WaitKey μ) τ) (queues : WaitKey μ → List τ) : ConditionPc μ τ → Prop
  | wakeupUpdate k _ entry next =>
    next.map (fun next => (⟨next, entry.tail⟩ : HeadAndTail τ)) = entryOf (queues k)
  | wakeupAllLoop next => next = (queues .condition).head? ∧ w.entries .condition = none
  | _ => True

/-- The thread is in a `notifyAll` that has set `waiters` to 0. -/
@[simp]
def PastClear : ConditionPc μ τ → Prop
  | wakeupAllLock | wakeupAllRemove | wakeupAllLoop _ => True
  | _ => False

/-- The thread is in `notifyAll`. -/
@[simp]
def InNotifyAll : ConditionPc μ τ → Prop
  | notifyAll | clear | wakeupAllLock | wakeupAllRemove | wakeupAllLoop _ => True
  | _ => False

variable {pc : ConditionPc μ τ} {queues : WaitKey μ → List τ} {k : WaitKey μ}

theorem Changes.holdsWaitLock (h : pc.Changes k) : pc.HoldsWaitLock := by
  cases pc <;> simp_all

theorem Knows.of_not_changes {w : WaitLists (WaitKey μ) τ} (h : ∀ k, ¬pc.Changes k) :
    pc.Knows w queues := by
  cases pc <;> simp_all

end ConditionPc

/-- **No lost wakeup**: `waiters` is 1, or a `notifyAll` is past its `set(0)`. A thread that is
about to be queued holds the lock of the wait lists, so that such a `notifyAll` still waits for
it. -/
structure Announced (waiters : Int32) (pc : τ → ConditionPc μ τ) (q : List τ) : Prop where
  append : ∀ t m, pc t = .enqueueAppend m → waiters = 1 ∨ ∃ u, pc u = .wakeupAllLock
  queue : q ≠ [] → waiters = 1 ∨ ∃ u, (pc u).PastClear

/-- **The invariant**, with the queues. -/
structure ConditionInv (s : ConditionState μ τ) (queues : WaitKey μ → List τ) : Prop where
  waitLock : Owned s.waitLock s.pc ConditionPc.HoldsWaitLock
  lists : s.lists.Describes queues
  queued : ∀ k, ∀ t ∈ queues k, (s.pc t).WaitsFor k
  entries : ∀ k, (∀ t, ¬(s.pc t).Changes k) → s.lists.entries k = entryOf (queues k)
  knows : ∀ t, (s.pc t).Knows s.lists queues
  announced : Announced s.waiters s.pc (queues .condition)

variable [DecidableEq τ]

section Frames

variable {s : ConditionState μ τ} {queues : WaitKey μ → List τ} {t : τ} {p p' : ConditionPc μ τ}
  {waiters : Int32}

variable {pc : τ → ConditionPc μ τ} {waitLock : Option τ}

/-- A thread moves that does not leave a `notifyAll` while threads are queued. -/
theorem Announced.goto {q : List τ} (h : Announced waiters pc q)
    (hpc : pc t = p) (hmove : (q ≠ [] → p.PastClear → p'.PastClear) ∧
      (∀ u m, pc u = .enqueueAppend m → p ≠ .wakeupAllLock) ∧ ∀ m, p' ≠ .enqueueAppend m) :
    Announced waiters (update pc t p') q := by
  subst hpc
  obtain ⟨hpast, hfrom, hto⟩ := hmove
  refine ⟨?_, ?_⟩
  · intro u m hu
    have hne : u ≠ t := by
      rintro rfl
      rw [update_self] at hu
      exact hto m hu
    rw [update_of_ne hne] at hu
    refine (h.append u m hu).imp_right fun hex => ?_
    exact exists_update (P := fun _ (p : ConditionPc μ τ) => p = .wakeupAllLock) hex
      fun ht => absurd ht (hfrom u m hu)
  · intro hq
    refine (h.queue hq).imp_right fun hex => ?_
    exact exists_update hex (hpast hq)

omit [DecidableEq τ] in
theorem Announced.mono {q q' : List τ} (h : Announced waiters pc q)
    (hq : q' ≠ [] → q ≠ []) : Announced waiters pc q' :=
  ⟨h.append, fun hne => h.queue (hq hne)⟩

/-- What the steps keep. -/
def ConditionSafe (s : ConditionState μ τ) : Prop := ∃ queues, ConditionInv s queues

theorem ConditionInv.goto (h : ConditionInv s queues) (hpc : s.pc t = p)
    (hann : Announced waiters (update s.pc t p') (queues .condition))
    (hmove : Passes ConditionPc.HoldsWaitLock s.waitLock waitLock t p p' ∧
      (∀ k, t ∈ queues k → p.WaitsFor k → p'.WaitsFor k) ∧ (∀ k, ¬p.Changes k) ∧
      ∀ k, ¬p'.Changes k) : ConditionSafe ({ s with waiters, waitLock }.goto t p') := by
  subst hpc
  obtain ⟨hlock, hwaits, hfrom, hto⟩ := hmove
  refine ⟨queues, h.waitLock.pass hlock, h.lists, fun k => ?_,
    fun k hno => h.entries k fun u => ?_, ?_, hann⟩
  · exact (forall_update_iff s.pc fun u p => u ∈ queues k → p.WaitsFor k).mpr
      ⟨fun hk => hwaits k hk (h.queued k t hk), fun u _ => h.queued k u⟩
  · by_cases hut : u = t
    · exact hut ▸ hfrom k
    · exact ((forall_update_iff s.pc fun _ p => ¬p.Changes k).mp hno).2 u hut
  · exact (forall_update_iff s.pc fun _ p => p.Knows s.lists queues).mpr
      ⟨.of_not_changes hto, fun u _ => h.knows u⟩

/-- A thread that holds the lock of the wait lists moves and changes them: nobody else is in the
middle of a wakeup. -/
theorem ConditionInv.change {lists : WaitLists (WaitKey μ) τ} {queues' : WaitKey μ → List τ}
    (h : ConditionInv s queues) (ht : (s.pc t).HoldsWaitLock)
    (hlists : lists.Describes queues') (hqueued : ∀ k, ∀ u ∈ queues' k, u ≠ t → u ∈ queues k)
    (hwaits : ∀ k, t ∈ queues' k → p.WaitsFor k)
    (hentries : ∀ k, ¬p.Changes k → lists.entries k = entryOf (queues' k))
    (hknows : p.Knows lists queues')
    (hlock : Passes ConditionPc.HoldsWaitLock s.waitLock waitLock t (s.pc t) p)
    (hann : Announced s.waiters (update s.pc t p) (queues' .condition)) :
    ConditionSafe ({ s with lists, waitLock }.goto t p) := by
  refine ⟨queues', h.waitLock.pass hlock, hlists, fun k => ?_, fun k hno => hentries k ?_, ?_, hann⟩
  · exact (forall_update_iff s.pc fun u p => u ∈ queues' k → p.WaitsFor k).mpr
      ⟨hwaits k, fun u hut hu => h.queued k u (hqueued k u hu hut)⟩
  · exact ((forall_update_iff s.pc fun _ p => ¬p.Changes k).mp hno).1
  · refine (forall_update_iff s.pc fun _ p => p.Knows lists queues').mpr ⟨hknows, fun u hut => ?_⟩
    exact .of_not_changes fun k hk => hut (h.waitLock.unique hk.holdsWaitLock ht)

end Frames

/-! ## The steps -/

section Steps

variable [DecidableEq μ] {s : ConditionState μ τ} {queues : WaitKey μ → List τ}
  {a : ConditionAction μ τ} {t : τ} {p p' : ConditionPc μ τ} {m : μ}

variable {s' : ConditionState μ τ}

section

variable (h : ConditionInv s queues)
include h

variable {k' : WaitKey μ} {q : List τ} {after : Option μ} {next : Option τ}

omit [DecidableEq τ] [DecidableEq μ] in
theorem ConditionInv.waits_of (hpc : s.pc t = p) (hwaits : ∀ k, p.WaitsFor k → p'.WaitsFor k)
    (k : WaitKey μ) (hk : t ∈ queues k) :
    p'.WaitsFor k :=
  hwaits k (hpc ▸ h.queued k t hk)

variable {k : WaitKey μ}

omit [DecidableEq τ] [DecidableEq μ] in
/-- The entry is that of the queue unless the thread with the lock of the wait lists is in the
middle of a wakeup. -/
theorem ConditionInv.entry_eq (ht : (s.pc t).HoldsWaitLock) (hno : ¬(s.pc t).Changes k) :
    s.lists.entries k = entryOf (queues k) := by
  refine h.entries k fun u hu => ?_
  have hut : u = t := h.waitLock.unique hu.holdsWaitLock ht
  exact hno (hut ▸ hu)

omit [DecidableEq μ] in
/-- Taking the lock of the wait lists. While it is free nobody is about to be queued. -/
theorem ConditionInv.acquire (hpc : s.pc t = p)
    (hmove : p'.HoldsWaitLock ∧ (∀ k, p.WaitsFor k → p'.WaitsFor k) ∧ (∀ k, ¬p.Changes k) ∧
      (∀ k, ¬p'.Changes k) ∧ (p.PastClear → p'.PastClear) ∧ ∀ m, p' ≠ .enqueueAppend m) :
    (s.acquire t p').Keeps ConditionSafe := by
  obtain ⟨hlock, hwaits, hfrom, hto, hpast, happ⟩ := hmove
  unfold ConditionState.acquire
  cases hfree : s.waitLock with
  | some u => trivial
  | none =>
    refine h.goto hpc (h.announced.goto hpc ⟨fun _ => hpast, fun u m hu _ => ?_, happ⟩)
      ⟨.inr (.inl ⟨hlock, hfree, rfl⟩), fun k _ => hwaits k, hfrom, hto⟩
    exact absurd (hfree.symm.trans ((h.waitLock u).mpr (by rw [hu]; trivial))) (by simp)

/-- A thread enters the queue of the condition or of a mutex. -/
theorem ConditionInv.append (hpc : s.pc t = p)
    (hmove : p = .enqueueAppend m ∧ k = .condition ∧ p' = .unlockOp m ∨
      p = .waitAppend m ∧ k = .mutex m ∧ p' = .waitBlocked m) :
    (s.append t k p').Keeps ConditionSafe := by
  subst hpc
  have hlock : (s.pc t).HoldsWaitLock := by rcases hmove with ⟨hp, -⟩ | ⟨hp, -⟩ <;> simp [hp]
  have hno : ∀ k, ¬(s.pc t).Changes k := by rcases hmove with ⟨hp, -⟩ | ⟨hp, -⟩ <;> simp [hp]
  have hfree : ∀ k, t ∉ queues k := by
    intro k hk
    have hwaits := h.queued k t hk
    rcases hmove with ⟨hp, -⟩ | ⟨hp, -⟩ <;> simp [hp] at hwaits
  obtain ⟨lists, happend, hlists, hentries⟩ := h.lists.append hfree (h.entry_eq hlock (hno k))
  have hmem : ∀ k', ∀ u ∈ update queues k (queues k ++ [t]) k', u ∈ queues k' ∨ k' = k ∧ u = t := by
    intro k' u hu
    by_cases hk : k' = k
    · subst hk
      rw [update_self, mem_append, mem_singleton] at hu
      exact hu.imp_right fun he => ⟨rfl, he⟩
    · rw [update_of_ne hk] at hu
      exact .inl hu
  unfold ConditionState.append
  rw [happend]
  refine h.change hlock hlists (fun k' u hu hut => ?_) (fun k' hk' => ?_) (fun k' _ => ?_) ?_
    (.inr (.inr ⟨hlock, ?_, rfl⟩)) ?_
  · exact (hmem k' u hu).resolve_right fun he => hut he.2
  · rcases hmem k' t hk' with hold | ⟨rfl, -⟩
    · exact absurd hold (hfree k')
    · rcases hmove with ⟨-, rfl, rfl⟩ | ⟨-, rfl, rfl⟩ <;> rfl
  · rw [hentries]
    by_cases hk : k' = k
    · subst hk
      rw [update_self, update_self]
    · rw [update_of_ne hk, update_of_ne hk]
      exact h.entry_eq hlock (hno k')
  · rcases hmove with ⟨-, -, rfl⟩ | ⟨-, -, rfl⟩ <;> trivial
  · rcases hmove with ⟨-, -, rfl⟩ | ⟨-, -, rfl⟩ <;> exact id
  · rcases hmove with ⟨hp, rfl, rfl⟩ | ⟨hp, rfl, rfl⟩
    · -- the thread has stored 1, and a `notifyAll` that has overwritten it waits for the lock
      have hlast : s.waiters = 1 ∨ ∃ u, update s.pc t (.unlockOp m) u = .wakeupAllLock := by
        refine (h.announced.append t m hp).imp_right fun hex => ?_
        exact exists_update (P := fun _ p => p = .wakeupAllLock) hex
          fun ht => absurd (hp.symm.trans ht) (by simp)
      refine ⟨fun _ _ _ => hlast, fun _ => hlast.imp_right ?_⟩
      rintro ⟨u, hu⟩
      exact ⟨u, by simp [hu]⟩
    · rw [update_of_ne (by simp)]
      exact h.announced.goto hp (by simp)

omit [DecidableEq μ] in
/-- Returning from `DoraThread::block`: the thread is in no queue. -/
theorem ConditionInv.block (hpc : s.pc t = p) (hp : p = .block m ∨ p = .waitBlocked m) :
    (s.block t (.lockOp m)).Keeps ConditionSafe := by
  subst hpc
  unfold ConditionState.block
  by_cases hb : (s.lists.threads t).blocking = true
  · rw [if_pos hb]
    trivial
  · rw [if_neg hb]
    have hfree : ∀ k, t ∉ queues k := fun k hk => hb (h.lists.links.blocking_iff.mpr ⟨k, hk⟩)
    rcases hp with hp | hp
    all_goals exact h.goto hp (h.announced.goto hp (by simp)) (by simp [hfree])

theorem enqueueStore_keeps (hpc : s.pc a.thread = .enqueueStore m) :
    (conditionStep s a).Keeps ConditionSafe := by
  simp only [conditionStep, hpc]
  exact h.goto hpc ⟨fun _ _ _ => .inl rfl, fun _ => .inl rfl⟩ (by simp)

theorem clear_keeps (hpc : s.pc a.thread = .clear) : (conditionStep s a).Keeps ConditionSafe := by
  simp only [conditionStep, hpc]
  refine h.goto hpc ⟨fun _ _ _ => .inr ?_, fun _ => .inr ?_⟩ (by simp)
  · exact ⟨a.thread, update_self ..⟩
  · exact exists_update_self trivial

omit [DecidableEq τ] h in
theorem mem_update_tail {u v : τ} (hq : queues k = v :: q)
    (hu : u ∈ update queues k q k') : u ∈ queues k' := by
  by_cases hk : k' = k
  · subst hk
    rw [update_self] at hu
    exact hq ▸ mem_cons_of_mem v hu
  · rwa [update_of_ne hk] at hu

omit [DecidableEq τ] h in
theorem update_tail_ne_nil {v : τ} (hq : queues k = v :: q)
    (hne : update queues k q k' ≠ []) : queues k' ≠ [] := by
  obtain ⟨u, hu⟩ := exists_mem_of_ne_nil _ hne
  exact ne_nil_of_mem (mem_update_tail hq hu)

theorem wakeupRemove_keeps (hpc : s.pc a.thread = .wakeupRemove k after) :
    (conditionStep s a).Keeps ConditionSafe := by
  have hlock : (s.pc a.thread).HoldsWaitLock := by simp [hpc]
  have hentry := fun k' => h.entry_eq (k := k') hlock (by simp [hpc])
  cases hq : queues k with
  | nil =>
    have hnone : s.lists.entries k = none := by rw [hentry, hq]; rfl
    have hstep : conditionStep s a =
        .next ({ s with waitLock := none }.goto a.thread (.back after)) := by
      simp only [conditionStep, hpc]
      rw [hnone]
    rw [hstep]
    cases after
    all_goals
      simp only [ConditionPc.back]
      exact h.goto hpc (h.announced.goto hpc (by simp)) (by simp)
  | cons v q =>
    obtain ⟨lists, hremove, hlists, hentries⟩ := h.lists.remove hq
    have hsome : s.lists.entries k = some ⟨v, (v :: q).getLast (cons_ne_nil v q)⟩ := by
      rw [hentry, hq]
      rfl
    simp only [conditionStep, hpc, hsome, hremove]
    refine h.change hlock hlists (fun k' u hu _ => mem_update_tail hq hu)
      (fun k' hk' => ?_) (fun k' hk' => ?_) ?_ (by simp [hpc]) ?_
    · refine h.waits_of hpc (fun k'' => ?_) k' (mem_update_tail hq hk')
      cases after <;> simp
    · have hne : k' ≠ k := hk'
      rw [hentries, update_of_ne hne]
      exact hentry k'
    · change _ = entryOf (update queues k q k)
      rw [update_self]
      exact entryOf_tail v q
    · exact (h.announced.goto hpc (by simp)).mono (update_tail_ne_nil hq)

theorem wakeupUpdate_keeps {entry : HeadAndTail τ}
    (hpc : s.pc a.thread = .wakeupUpdate k after entry next) :
    (conditionStep s a).Keeps ConditionSafe := by
  have hlock : (s.pc a.thread).HoldsWaitLock := by simp [hpc]
  have hknows := h.knows a.thread
  rw [hpc] at hknows
  simp only [conditionStep, hpc]
  refine h.change hlock ⟨h.lists.links, h.lists.history⟩ (fun _ _ hu _ => hu)
    (h.waits_of hpc ?_) (fun k' _ => ?_) ?_ (.inr (.inr ⟨hlock, ?_, rfl⟩))
    (h.announced.goto hpc ⟨by simp, by simp, ?_⟩)
  · cases after <;> simp [ConditionPc.back]
  · by_cases hk : k' = k
    · subst hk
      exact (update_self ..).trans hknows
    · exact (update_of_ne hk ..).trans (h.entry_eq hlock (by simpa [hpc] using hk))
  all_goals cases after <;> simp [ConditionPc.back]

theorem wakeupAllRemove_keeps (hpc : s.pc a.thread = .wakeupAllRemove) :
    (conditionStep s a).Keeps ConditionSafe := by
  have hlock : (s.pc a.thread).HoldsWaitLock := by simp [hpc]
  have hentry := fun k' => h.entry_eq (k := k') hlock (by simp [hpc])
  simp only [conditionStep, hpc]
  refine h.change hlock ⟨h.lists.links, h.lists.history⟩ (fun _ _ hu _ => hu)
    (h.waits_of hpc (by simp)) (fun k' hk' => ?_) ⟨?_, ?_⟩ (by simp [hpc])
    (h.announced.goto hpc (by simp))
  · have hne : k' ≠ .condition := hk'
    exact (update_of_ne hne ..).trans (hentry k')
  · rw [hentry]
    cases queues .condition <;> rfl
  · simp [WaitLists.setEntry]

theorem wakeupAllLoop_keeps (hpc : s.pc a.thread = .wakeupAllLoop next) :
    (conditionStep s a).Keeps ConditionSafe := by
  have hlock : (s.pc a.thread).HoldsWaitLock := by simp [hpc]
  have hentry := fun k' (hk' : k' ≠ .condition) => h.entry_eq (k := k') hlock (by simpa [hpc])
  have hknows := h.knows a.thread
  rw [hpc] at hknows
  obtain ⟨rfl, hnone⟩ := hknows
  cases hq : queues .condition with
  | nil =>
    rw [hq] at hpc
    simp only [conditionStep, hpc]
    refine h.change hlock h.lists (fun _ _ hu _ => hu) (h.waits_of hpc (by simp))
      (fun k' _ => ?_) trivial (.inr (.inr ⟨hlock, id, rfl⟩)) ?_
    · by_cases hk : k' = .condition
      · rw [hk, hnone, hq]
        rfl
      · exact hentry k' hk
    · exact h.announced.goto hpc (by simp [hq])
  | cons v q =>
    obtain ⟨lists, hremove, hlists, hentries⟩ := h.lists.remove hq
    rw [hq] at hpc
    simp only [conditionStep, hpc, head?_cons, hremove]
    refine h.change hlock hlists (fun k' u hu _ => mem_update_tail hq hu)
      (fun k' hk' => h.waits_of hpc (by simp) k' (mem_update_tail hq hk')) (fun k' hk' => ?_)
      ⟨?_, hentries ▸ hnone⟩ (by simp [hpc]) ?_
    · have hne : k' ≠ .condition := hk'
      rw [hentries, update_of_ne hne]
      exact hentry k' hne
    · rw [update_self]
    · exact (h.announced.goto hpc (by simp)).mono (update_tail_ne_nil hq)

end

/-- **The step lemma**: from the invariant no step fails, and each one keeps it. -/
theorem conditionStep_keeps (s : ConditionState μ τ) (a : ConditionAction μ τ)
    (h : ConditionSafe s) : (conditionStep s a).Keeps ConditionSafe := by
  obtain ⟨queues, h⟩ := h
  cases hpc : s.pc a.thread with
  | outside =>
    simp only [conditionStep, hpc]
    cases a.call
    all_goals
      simp only [ConditionCall.pc]
      exact h.goto hpc (h.announced.goto hpc (by simp)) (by simp)
  | enqueueLock m | waitLock m | wakeupAllLock =>
    simp only [conditionStep, hpc]
    exact h.acquire hpc (by simp)
  | enqueueStore m => exact enqueueStore_keeps h hpc
  | enqueueAppend m =>
    simp only [conditionStep, hpc]
    exact h.append hpc (.inl ⟨rfl, rfl, rfl⟩)
  | unlockOp m | lockOp m | waitCheck m =>
    simp only [conditionStep, hpc]
    cases a.contended <;> exact h.goto hpc (h.announced.goto hpc (by simp)) (by simp)
  | block m =>
    simp only [conditionStep, hpc]
    exact h.block hpc (.inl rfl)
  | waitAppend m =>
    simp only [conditionStep, hpc]
    exact h.append hpc (.inr ⟨rfl, rfl, rfl⟩)
  | waitBlocked m =>
    simp only [conditionStep, hpc]
    exact h.block hpc (.inr rfl)
  | wakeupLock k after =>
    simp only [conditionStep, hpc]
    cases after <;> exact h.acquire hpc (by simp)
  | wakeupRemove k after => exact wakeupRemove_keeps h hpc
  | wakeupUpdate k after entry next => exact wakeupUpdate_keeps h hpc
  | notifyOne | notifyAll =>
    simp only [conditionStep, hpc]
    split <;> exact h.goto hpc (h.announced.goto hpc (by simp)) (by simp)
  | clear => exact clear_keeps h hpc
  | wakeupAllRemove => exact wakeupAllRemove_keeps h hpc
  | wakeupAllLoop next => exact wakeupAllLoop_keeps h hpc

theorem conditionSafe_start : ConditionSafe (conditionSystem μ τ).start := by
  refine ⟨fun _ => [], ?_, ⟨⟨fun _ => trivial, fun _ => nodup_nil, by simp, fun _ _ => rfl⟩,
    fun _ => rfl⟩, by simp, fun _ _ => rfl, by simp, ⟨?_, by simp⟩⟩
  · simp [Owned]
  · simp

/-- **The run lemma**. -/
theorem conditionSafe_of_reachable (h : (conditionSystem μ τ).Reachable s) : ConditionSafe s :=
  h.invariant conditionSafe_start conditionStep_keeps

/-- A thread that leaves `block` is not queued. -/
theorem ConditionInv.count_of_block (h : ConditionInv s queues)
    (hpc : s.pc a.thread = .block m) (hstep : conditionStep s a = .next s') :
    (s.lists.arrivals .condition).count a.thread = (s.lists.wakeups .condition).count a.thread := by
  have hb : ¬(s.lists.threads a.thread).blocking = true := by
    intro hb
    simp [conditionStep, hpc, ConditionState.block, hb] at hstep
  have hfree : a.thread ∉ queues .condition :=
    fun hmem => hb (h.lists.links.blocking_iff.mpr ⟨_, hmem⟩)
  rw [h.lists.history, count_append, count_eq_zero_of_not_mem hfree]
  rfl

/-- A thread that leaves `notifyAll` after `wakeup_all` leaves no queue behind, and one that finds 0
in `waiters` leaves none behind or another thread that will wake it. -/
theorem ConditionInv.notifyAll_returns (h : ConditionInv s queues)
    (hin : (s.pc a.thread).InNotifyAll) (hstep : conditionStep s a = .next s')
    (hout : s'.pc a.thread = .outside) :
    s'.lists.wakeups .condition = s'.lists.arrivals .condition ∨
      ¬(s.pc a.thread).PastClear ∧ ∃ u ≠ a.thread, (s'.pc u).PastClear := by
  have hempty : queues .condition = [] → s'.lists = s.lists →
      s'.lists.wakeups .condition = s'.lists.arrivals .condition := by
    intro hq hlists
    rw [hlists, h.lists.history, hq, append_nil]
  cases hpc : s.pc a.thread with
  | notifyAll =>
    simp only [conditionStep, hpc] at hstep
    obtain rfl := Outcome.next.inj hstep
    by_cases hzero : s.waiters = 0
    · by_cases hq : queues .condition = []
      · exact .inl (hempty hq rfl)
      · -- the queue is announced, and not by `waiters`
        obtain ⟨u, hu⟩ := (h.announced.queue hq).resolve_left (by simp [hzero])
        have hne : u ≠ a.thread := by
          rintro rfl
          simp [hpc] at hu
        refine .inr ⟨by simp, u, hne, ?_⟩
        simpa [update_of_ne hne] using hu
    · simp [hzero] at hout
  | clear | wakeupAllRemove =>
    simp only [conditionStep, hpc] at hstep
    obtain rfl := Outcome.next.inj hstep
    simp at hout
  | wakeupAllLock =>
    simp only [conditionStep, hpc, ConditionState.acquire] at hstep
    cases hfree : s.waitLock with
    | some u => simp [hfree] at hstep
    | none =>
      rw [hfree] at hstep
      obtain rfl := Outcome.next.inj hstep
      simp at hout
  | wakeupAllLoop next =>
    have hknows := h.knows a.thread
    rw [hpc] at hknows
    cases next with
    | none =>
      simp only [conditionStep, hpc] at hstep
      obtain rfl := Outcome.next.inj hstep
      exact .inl (hempty (head?_eq_none_iff.mp hknows.1.symm) rfl)
    | some u =>
      simp only [conditionStep, hpc] at hstep
      cases hremove : s.lists.remove u .condition with
      | none => simp [hremove] at hstep
      | some r =>
        rw [hremove] at hstep
        obtain rfl := Outcome.next.inj hstep
        simp at hout
  | _ => simp [hpc] at hin

end Steps

/-- **Conditions**: in every state of every run no assertion on the blocking data fails; a thread
that returns from `block` has been woken as often as it has been queued; when the queue is not
empty, `waiters` is 1 or a `notifyAll` is past its `set(0)`; and a `notifyAll` returns only when all
threads that were queued have been woken, or when it has found 0 in `waiters` and another
`notifyAll` is past its `set(0)`, which in turn does not return before all have been woken. -/
theorem condition_safe [DecidableEq μ] {s : ConditionState μ τ}
    (h : (conditionSystem μ τ).Reachable s) :
    (∀ a, conditionStep s a ≠ .fails) ∧
      (∀ a m s', s.pc a.thread = .block m → conditionStep s a = .next s' →
        (s.lists.arrivals .condition).count a.thread =
          (s.lists.wakeups .condition).count a.thread) ∧
      (∃ queues, s.lists.Describes queues ∧
        (queues .condition ≠ [] → s.waiters = 1 ∨ ∃ t, (s.pc t).PastClear)) ∧
      ∀ a s', (s.pc a.thread).InNotifyAll → conditionStep s a = .next s' →
        s'.pc a.thread = .outside →
        s'.lists.wakeups .condition = s'.lists.arrivals .condition ∨
          ¬(s.pc a.thread).PastClear ∧ ∃ t ≠ a.thread, (s'.pc t).PastClear := by
  have hsafe := conditionSafe_of_reachable h
  obtain ⟨queues, hinv⟩ := hsafe
  refine ⟨fun a hfails => ?_, ?_, ⟨queues, hinv.lists, hinv.announced.queue⟩, ?_⟩
  · have hkeeps := conditionStep_keeps s a ⟨queues, hinv⟩
    rw [hfails] at hkeeps
    exact hkeeps
  · exact fun a m s' hpc hstep => hinv.count_of_block hpc hstep
  · exact fun a s' hin hstep hout => hinv.notifyAll_returns hin hstep hout

/-- One thread stands in the queue of the condition, and a second one is in a `notifyAll` that is
past its `set(0)`. -/
theorem condition_safe_notified :
    ∃ s, (conditionSystem Unit Bool).Reachable s ∧
      s.lists.entries .condition = some ⟨false, false⟩ ∧ s.waiters = 0 ∧
      (∀ a, conditionStep s a ≠ .fails) ∧
      (∀ a m s', s.pc a.thread = .block m → conditionStep s a = .next s' →
        (s.lists.arrivals .condition).count a.thread =
          (s.lists.wakeups .condition).count a.thread) ∧
      (∃ queues, s.lists.Describes queues ∧
        (queues .condition ≠ [] → s.waiters = 1 ∨ ∃ t, (s.pc t).PastClear)) ∧
      ∀ a s', (s.pc a.thread).InNotifyAll → conditionStep s a = .next s' →
        s'.pc a.thread = .outside →
        s'.lists.wakeups .condition = s'.lists.arrivals .condition ∨
          ¬(s.pc a.thread).PastClear ∧ ∃ t ≠ a.thread, (s'.pc t).PastClear := by
  let waiter : ConditionAction Unit Bool := ⟨false, .wait (), false⟩
  let notifier : ConditionAction Unit Bool := ⟨true, .notifyAll, false⟩
  have hrun : ((conditionSystem Unit Bool).run (conditionSystem Unit Bool).start
      [waiter, waiter, waiter, waiter, notifier, notifier, notifier]).map
        (fun s => (s.lists.entries .condition, s.waiters)) =
      some (some ⟨false, false⟩, 0) := by decide
  obtain ⟨s, hs, heq⟩ := Option.map_eq_some_iff.mp hrun
  obtain ⟨hentry, hwaiters⟩ := Prod.mk.inj heq
  have hreach := System.Reachable.start.run hs
  exact ⟨s, hreach, hentry, hwaiters, condition_safe hreach⟩

end Dora.Sync
