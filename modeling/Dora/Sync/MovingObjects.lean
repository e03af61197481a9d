import Mathlib.Data.Fintype.List
import Dora.Lib.System
import Dora.Sync.ObjectHashMap
import Dora.Sync.WaitQueue

/-!
# Wait lists of objects that move

The operations of `WaitLists` (`dora/src/vm/waitlists.rs`) on the map whose keys are the addresses
of objects, between collections that move the objects (`dora/src/gc.rs`, `dora/src/gc/swiper.rs`).
`Gc::collect` advances the epoch; `Gc::minor_collect` and the collections of a failed allocation
collect without advancing it.

## Main results

* `wait_lists_survive_moves`: wakeups reach the threads when the epoch is advanced
* `wakeup_lost`: a wakeup that is lost
-/

namespace Dora.Sync

open Function (update update_eq_self update_idem update_of_ne update_self)
open List Option

attribute [local simp] Outcome.Keeps

variable {κ τ : Type} [DecidableEq κ] [DecidableEq τ]

/-- `WaitLists`, and the blocking data of the threads. -/
structure Lists (τ : Type) where
  data : ObjectHashMap (HeadAndTail τ)
  threads : Threads τ

namespace Lists

variable {q : List τ} {threads : Threads τ}

def new : Lists τ := ⟨.new, fun _ => ⟨false, none⟩⟩

/-- `append_to_waitlist`. -/
def append (l : Lists τ) (epoch : ℕ) (t : τ) (key : ℕ) : Option (Lists τ) := do
  let (entry, data) ← l.data.get epoch key
  let (entry, threads) ← appendToWaitlist l.threads t entry
  let data ← data.insert epoch key entry
  return ⟨data, threads⟩

/-- `wakeup`, with the thread that is woken. -/
def wakeup (l : Lists τ) (epoch key : ℕ) : Option (Option τ × Lists τ) := do
  let (entry, data) ← l.data.get epoch key
  match entry with
  | none => return (none, ⟨data, l.threads⟩)
  | some entry =>
    let (next, threads) ← removeFromWaitlist l.threads entry.head
    match next with
    | none =>
      let (_, data) ← data.remove epoch key
      return (some entry.head, ⟨data, threads⟩)
    | some next =>
      let data ← data.insert epoch key ⟨next, entry.tail⟩
      return (some entry.head, ⟨data, threads⟩)

/-- The loop of `wakeup_all`, with the threads that are woken. -/
def wakeLoop : ℕ → Threads τ → Option τ → Option (List τ × Threads τ)
  | _, threads, none => some ([], threads)
  | 0, _, some _ => none
  | fuel + 1, threads, some t => do
    let (next, threads) ← removeFromWaitlist threads t
    let (woken, threads) ← wakeLoop fuel threads next
    return (t :: woken, threads)

/-- `wakeup_all`. A thread that is woken twice fails an assertion, so that the loop ends after as
many rounds as there are threads. -/
def wakeupAll [Fintype τ] (l : Lists τ) (epoch key : ℕ) : Option (List τ × Lists τ) := do
  let (entry, data) ← l.data.remove epoch key
  match entry with
  | none => return ([], ⟨data, l.threads⟩)
  | some entry =>
    let (woken, threads) ← wakeLoop (Fintype.card τ + 1) l.threads (some entry.head)
    return (woken, ⟨data, threads⟩)

/-! ## What the operations do -/

/-- The map holds the entries of the queues at the addresses, and the blocking data are theirs. -/
structure Good (l : Lists τ) (epoch : ℕ) (queues : ℕ → List τ) : Prop where
  data : l.data.Good (entryOf ∘ queues)
  valid : l.data.gcEpoch = epoch → l.data.Valid
  past : l.data.gcEpoch ≤ epoch
  links : Links l.threads queues

variable {l : Lists τ} {epoch key : ℕ} {queues : ℕ → List τ} {t : τ}

omit [DecidableEq τ] in
theorem entryOf_eq_none : entryOf q = none ↔ q = [] := by
  cases q <;> simp [entryOf]

omit [DecidableEq τ] in
theorem Good.of_settled {data : ObjectHashMap (HeadAndTail τ)}
    (hdata : data.Settled (update (entryOf ∘ queues) key (entryOf q)) epoch)
    (hlinks : Links threads (update queues key q)) :
    Good ⟨data, threads⟩ epoch (update queues key q) := by
  refine ⟨?_, fun _ => hdata.valid, hdata.epoch.le, hlinks⟩
  rw [Function.comp_update]
  exact hdata.good

/-- **`append_to_waitlist`** appends the thread to the queue at the address. -/
theorem Good.append_spec (h : l.Good epoch queues) (ht : ∀ k, t ∉ queues k)
    (hroom : queues key = [] → l.data.capacity = 0 ∨ l.data.gcEpoch ≠ epoch ∨ l.data.Roomy) :
    ∃ l', l.append epoch t key = some l' ∧
      l'.Good epoch (update queues key (queues key ++ [t])) := by
  obtain ⟨data, hget, hgood, hvalid, hsame⟩ := h.data.get_spec h.valid key fun hnone => by
    refine (hroom (entryOf_eq_none.mp hnone)).imp_left fun hcap => ?_
    have hload := h.data.load
    omega
  obtain ⟨entry, threads, happend, hentry, hlinks⟩ := h.links.append ht key
  obtain ⟨data', hinsert, hsettled⟩ := hgood.insert_spec hvalid key entry fun hnone => by
    rcases hsame with rfl | ⟨-, hroomy⟩
    · exact hroom (entryOf_eq_none.mp hnone)
    · exact .inr (.inr hroomy)
  refine ⟨⟨data', threads⟩, ?_, Good.of_settled (hentry ▸ hsettled) hlinks⟩
  simp [append, hget, happend, hinsert]

/-- **`wakeup`** wakes the head of the queue at the address. -/
theorem Good.wakeup_spec (h : l.Good epoch queues)
    (hroom : queues key = [] → l.data.entries = 0 ∨ l.data.gcEpoch ≠ epoch ∨ l.data.Roomy) :
    ∃ l', l.wakeup epoch key = some ((queues key).head?, l') ∧
      l'.Good epoch (update queues key (queues key).tail) := by
  obtain ⟨data, hget, hgood, hvalid, hsame⟩ := h.data.get_spec h.valid key fun hnone =>
    hroom (entryOf_eq_none.mp hnone)
  cases hq : queues key with
  | nil =>
    refine ⟨⟨data, l.threads⟩, ?_, ?_⟩
    · simp [wakeup, hget, hq, entryOf]
    · rw [tail_nil, ← hq, update_eq_self]
      refine ⟨hgood, hvalid, ?_, h.links⟩
      rcases hsame with rfl | ⟨hepoch, -⟩
      · exact h.past
      · exact hepoch.le
  | cons t q =>
    obtain ⟨hremove, hlinks⟩ := h.links.remove hq
    have hentry := entryOf_tail t q
    -- the entry is there, so that the table need not have room
    have hpresent : (entryOf ∘ queues) key ≠ none := by simp [hq, entryOf]
    cases hnext : q.head? with
    | none =>
      obtain ⟨data', hdelete, hsettled⟩ := hgood.remove_spec hvalid key fun hnone =>
        absurd hnone hpresent
      rw [hnext] at hentry hremove
      refine ⟨⟨data', update l.threads t ⟨false, none⟩⟩, ?_, ?_⟩
      · simp [wakeup, hget, hq, entryOf, hremove, hdelete]
      · exact Good.of_settled (by rw [tail_cons, ← hentry]; exact hsettled) hlinks
    | some next =>
      obtain ⟨data', hinsert, hsettled⟩ := hgood.insert_spec hvalid key
        ⟨next, (t :: q).getLast (cons_ne_nil t q)⟩ fun hnone => absurd hnone hpresent
      rw [hnext] at hentry hremove
      refine ⟨⟨data', update l.threads t ⟨false, none⟩⟩, ?_, ?_⟩
      · simp [wakeup, hget, hq, entryOf, hremove, hinsert]
      · exact Good.of_settled (by rw [tail_cons, ← hentry]; exact hsettled) hlinks

theorem wakeLoop_spec {fuel : ℕ} (hlinks : Links threads queues)
    (hq : queues key = q) (hfuel : q.length < fuel) :
    ∃ threads', wakeLoop fuel threads q.head? = some (q, threads') ∧
      Links threads' (update queues key []) := by
  induction q generalizing threads queues fuel with
  | nil =>
    refine ⟨threads, by simp [wakeLoop], ?_⟩
    rwa [← hq, update_eq_self]
  | cons t q ih =>
    obtain ⟨fuel, rfl⟩ : ∃ n, fuel = n + 1 := ⟨fuel - 1, by simp at hfuel; omega⟩
    obtain ⟨hremove, hlinks'⟩ := hlinks.remove hq
    obtain ⟨threads', hloop, hlinks''⟩ := ih hlinks' (update_self ..) (by simpa using hfuel)
    refine ⟨threads', by simp [wakeLoop, hremove, hloop], ?_⟩
    rwa [update_idem] at hlinks''

/-- **`wakeup_all`** wakes the whole queue at the address. -/
theorem Good.wakeupAll_spec [Fintype τ] (h : l.Good epoch queues)
    (hroom : queues key = [] →
      l.data.gcEpoch ≠ epoch ∨ l.data.entries < l.data.capacity / 4 ∨ l.data.Roomy) :
    ∃ l', l.wakeupAll epoch key = some (queues key, l') ∧ l'.Good epoch (update queues key []) := by
  obtain ⟨data, hremove, hsettled⟩ := h.data.remove_spec h.valid key fun hnone =>
    hroom (entryOf_eq_none.mp hnone)
  have hfuel : (queues key).length < Fintype.card τ + 1 :=
    Nat.lt_succ_of_le (h.links.nodup key).length_le_card
  obtain ⟨threads, hloop, hlinks⟩ := wakeLoop_spec h.links rfl hfuel
  refine ⟨⟨data, threads⟩, ?_, Good.of_settled hsettled hlinks⟩
  cases hq : queues key with
  | nil =>
    rw [hq] at hloop
    obtain rfl : l.threads = threads := by simpa [wakeLoop] using hloop
    simp [wakeupAll, hremove, hq, entryOf]
  | cons t q =>
    rw [hq] at hloop
    simp only [head?_cons] at hloop
    simp [wakeupAll, hremove, hq, entryOf, hloop]

end Lists

/-! ## Operations and collections -/

/-- The wait lists, the epoch of the collector and the addresses of the objects. `arrivals` and
`wakeups` record the threads that were appended to and woken from the queue of each object. -/
structure MovingLists (κ τ : Type) where
  lists : Lists τ
  epoch : ℕ
  address : κ → Option ℕ
  arrivals : κ → List τ
  wakeups : κ → List τ

/-- What happens next. -/
inductive MovingAction (κ τ : Type)
  /-- `block` if the mutex has the expected value, or `enqueue` -/
  | enqueue (o : κ) (t : τ)
  | wakeup (o : κ)
  | wakeupAll (o : κ)
  /-- an object is allocated -/
  | allocate (o : κ) (a : ℕ)
  /-- the first line of `Gc::collect` -/
  | advanceEpoch
  /-- any collection: `f` updates a slot, and objects are at new addresses or dead -/
  | collect (f : ℕ → ℕ) (address : κ → Option ℕ)

namespace MovingLists

variable (s : MovingLists κ τ)

/-- The threads that wait for the object. -/
def waiting (o : κ) : List τ := (s.arrivals o).drop (s.wakeups o).length

/-- The threads were woken from the queue of the object. -/
def woke (o : κ) (woken : List τ) (lists : Lists τ) : MovingLists κ τ :=
  { s with lists, wakeups := update s.wakeups o (s.wakeups o ++ woken) }

def step [Fintype τ] (s : MovingLists κ τ) : MovingAction κ τ → Outcome (MovingLists κ τ)
  | .enqueue o t =>
    match s.address o with
    | none => .waits
    | some key =>
      match s.lists.append s.epoch t key with
      | none => .fails
      | some lists =>
        .next { s with lists, arrivals := update s.arrivals o (s.arrivals o ++ [t]) }
  | .wakeup o =>
    match s.address o with
    | none => .waits
    | some key =>
      match s.lists.wakeup s.epoch key with
      | none => .fails
      | some (woken, lists) => .next (s.woke o woken.toList lists)
  | .wakeupAll o =>
    match s.address o with
    | none => .waits
    | some key =>
      match s.lists.wakeupAll s.epoch key with
      | none => .fails
      | some (woken, lists) => .next (s.woke o woken lists)
  | .allocate o a => .next { s with address := update s.address o (some a) }
  | .advanceEpoch => .next { s with epoch := s.epoch + 1 }
  | .collect f address =>
    .next { s with lists := ⟨s.lists.data.moveKeys f, s.lists.threads⟩, address }

/-- The address is a key of the map. -/
def Stored (a : ℕ) : Prop :=
  ∃ i < s.lists.data.capacity, (s.lists.data.cells i).key? = some a

instance (s : MovingLists κ τ) (a : ℕ) : Decidable (s.Stored a) := by
  unfold Stored
  infer_instance

/-- **What callers, the allocator and the collectors do**: only running threads enter a queue, no
two objects are at the same address, and a collector keeps the objects whose addresses are keys,
which are roots, and updates the keys to their new addresses. -/
def Legal : MovingAction κ τ → Prop
  | .enqueue _ t => (s.lists.threads t).blocking = false
  | .allocate o a => s.address o = none ∧ ∀ o', s.address o' ≠ some a
  | .collect f address =>
    (∀ o, ∀ a ∈ s.address o, s.Stored a → address o = some (f a)) ∧
      ∀ o o', ∀ a ∈ address o, a ∈ address o' → o = o'
  | _ => True

/-- The search for the address ends: it is a key, the table is built anew before the search, as
`rebuilt` says, or the table has an empty cell. -/
def Findable (o : κ) (rebuilt : Prop) : Prop :=
  ∀ a ∈ s.address o, s.Stored a ∨ rebuilt ∨ s.lists.data.gcEpoch ≠ s.epoch ∨ s.lists.data.Roomy

/-- **A step that finds what it looks for.** A collection does not disturb the table if the epoch
has been advanced since the table was built, or if no empty cell lies between the slot of the new
address of a key and the cell of the key. -/
def Undisturbed : MovingAction κ τ → Prop
  | .enqueue o _ => s.Findable o (s.lists.data.capacity = 0)
  | .wakeup o => s.Findable o (s.lists.data.entries = 0)
  | .wakeupAll o => s.Findable o (s.lists.data.entries < s.lists.data.capacity / 4)
  | .collect f _ =>
    s.lists.data.gcEpoch ≠ s.epoch ∨
      ∀ i < s.lists.data.capacity, ∀ key ∈ (s.lists.data.cells i).key?,
        ∀ j ∈ (ObjectHashMap.path s.lists.data.capacity (f key)).takeWhile (· ≠ i),
          s.lists.data.cells j ≠ .empty
  | _ => True

instance [Fintype κ] (s : MovingLists κ τ) : DecidablePred s.Legal
  | .enqueue .. | .wakeup .. | .wakeupAll .. | .allocate .. | .advanceEpoch | .collect .. =>
    by unfold Legal; infer_instance

instance (s : MovingLists κ τ) (o : κ) (rebuilt : Prop) [Decidable rebuilt] :
    Decidable (s.Findable o rebuilt) := by
  unfold Findable ObjectHashMap.Roomy
  infer_instance

instance (s : MovingLists κ τ) : DecidablePred s.Undisturbed
  | .enqueue .. | .wakeup .. | .wakeupAll .. | .allocate .. | .advanceEpoch | .collect .. =>
    by unfold Undisturbed; infer_instance

end MovingLists

/-- The operations and the collections, from a heap without objects. -/
@[simp]
def movingSystem (κ τ : Type) [DecidableEq κ] [DecidableEq τ] [Fintype τ] :
    System (MovingLists κ τ) (MovingAction κ τ) where
  start := ⟨.new, 0, fun _ => none, fun _ => [], fun _ => []⟩
  step := MovingLists.step

/-! ## Every object keeps its queue -/

namespace MovingLists

/-- **The invariant**: the queue of an object is the one at its address. -/
structure Fits (s : MovingLists κ τ) (queues : ℕ → List τ) : Prop where
  lists : s.lists.Good s.epoch queues
  history : ∀ o, s.arrivals o = s.wakeups o ++ (s.address o).elim [] queues
  owner : ∀ a, queues a ≠ [] → ∃ o, s.address o = some a
  injective : ∀ o o' a, s.address o = some a → s.address o' = some a → o = o'

variable {s : MovingLists κ τ} {queues : ℕ → List τ} {o : κ} {a : ℕ}

omit [DecidableEq κ] [DecidableEq τ] in
theorem Fits.waiting_eq (h : s.Fits queues) (ha : s.address o = some a) :
    s.waiting o = queues a := by
  unfold waiting
  rw [h.history o, ha, drop_left]
  rfl

omit [DecidableEq κ] [DecidableEq τ] in
theorem Fits.stored_iff (h : s.Fits queues) : s.Stored a ↔ queues a ≠ [] := by
  have hentry : (∃ v, (entryOf ∘ queues) a = some v) ↔ queues a ≠ [] := by
    rw [← ne_none_iff_exists', Function.comp_apply, Ne, Lists.entryOf_eq_none]
  rw [← hentry]
  exact h.lists.data.holds.key?_iff.symm

section

variable (h : s.Fits queues) (ha : s.address o = some a)
include h ha

omit [DecidableEq τ] in
theorem Fits.operation {lists : Lists τ} {q : List τ} {arrivals wakeups : κ → List τ}
    (hlists : lists.Good s.epoch (update queues a q)) (hself : arrivals o = wakeups o ++ q)
    (hother : ∀ o', o' ≠ o → arrivals o' = s.arrivals o' ∧ wakeups o' = s.wakeups o') :
    Fits { s with lists, arrivals, wakeups } (update queues a q) := by
  refine ⟨hlists, fun o' => ?_, fun a' ha' => ?_, h.injective⟩
  · change arrivals o' = wakeups o' ++ (s.address o').elim [] (update queues a q)
    by_cases ho : o' = o
    · subst ho
      rw [ha, elim_some, update_self]
      exact hself
    · rw [(hother o' ho).1, (hother o' ho).2, h.history o']
      cases ha' : s.address o' with
      | none => rfl
      | some a' =>
        have hne : a' ≠ a := fun he => ho (h.injective o' o a (he ▸ ha') ha)
        rw [elim_some, elim_some, update_of_ne hne]
  · by_cases hne : a' = a
    · exact ⟨o, hne ▸ ha⟩
    · rw [update_of_ne hne] at ha'
      exact h.owner a' ha'

omit [DecidableEq τ] in
theorem Fits.woke {lists : Lists τ} {woken q : List τ}
    (hlists : lists.Good s.epoch (update queues a q)) (hq : queues a = woken ++ q) :
    (s.woke o woken lists).Fits (update queues a q) := by
  have hself : s.arrivals o = update s.wakeups o (s.wakeups o ++ woken) o ++ q := by
    rw [h.history o, ha, elim_some, hq, update_self, append_assoc]
  exact h.operation ha hlists hself fun o' ho => ⟨rfl, update_of_ne ho ..⟩

theorem Fits.enqueue [Fintype τ] {t : τ} (hlegal : (s.lists.threads t).blocking = false)
    (hfind : s.Findable o (s.lists.data.capacity = 0)) :
    ∃ s', s.step (.enqueue o t) = .next s' ∧ ∃ queues, s'.Fits queues := by
  have hfree : ∀ k, t ∉ queues k := by
    intro k hk
    rw [h.lists.links.blocking_iff.mpr ⟨k, hk⟩] at hlegal
    exact Bool.noConfusion hlegal
  obtain ⟨lists, happend, hgood⟩ := h.lists.append_spec hfree fun hnil =>
    (hfind a ha).resolve_left fun hstored => h.stored_iff.mp hstored hnil
  have hself : update s.arrivals o (s.arrivals o ++ [t]) o = s.wakeups o ++ (queues a ++ [t]) := by
    rw [update_self, h.history o, ha, append_assoc]
    rfl
  refine ⟨_, by simp only [step, ha, happend], _, h.operation ha hgood hself ?_⟩
  exact fun o' ho => ⟨update_of_ne ho .., rfl⟩

/-- **A wakeup** wakes the head of the queue of the object. -/
theorem Fits.wakeup [Fintype τ] (hfind : s.Findable o (s.lists.data.entries = 0)) :
    ∃ lists, s.step (.wakeup o) = .next (s.woke o (s.waiting o).head?.toList lists) ∧
      ∃ queues, (s.woke o (s.waiting o).head?.toList lists).Fits queues := by
  obtain ⟨lists, hwakeup, hgood⟩ := h.lists.wakeup_spec fun hnil =>
    (hfind a ha).resolve_left fun hstored => h.stored_iff.mp hstored hnil
  rw [h.waiting_eq ha]
  refine ⟨lists, by simp [step, ha, hwakeup], _, h.woke ha hgood ?_⟩
  cases queues a <;> rfl

/-- **A wakeup of all** wakes the queue of the object. -/
theorem Fits.wakeupAll [Fintype τ]
    (hfind : s.Findable o (s.lists.data.entries < s.lists.data.capacity / 4)) :
    ∃ lists, s.step (.wakeupAll o) = .next (s.woke o (s.waiting o) lists) ∧
      ∃ queues, (s.woke o (s.waiting o) lists).Fits queues := by
  obtain ⟨lists, hwakeup, hgood⟩ := h.lists.wakeupAll_spec fun hnil => by
    rcases (hfind a ha).resolve_left fun hstored => h.stored_iff.mp hstored hnil with
      hunder | hepoch | hroomy
    · exact .inr (.inl hunder)
    · exact .inl hepoch
    · exact .inr (.inr hroomy)
  rw [h.waiting_eq ha]
  refine ⟨lists, by simp [step, ha, hwakeup], _, h.woke ha hgood ?_⟩
  rw [append_nil]

end

omit [DecidableEq τ] in
theorem Fits.allocate (h : s.Fits queues) (hnone : s.address o = none)
    (hfresh : ∀ o', s.address o' ≠ some a) :
    Fits { s with address := update s.address o (some a) } queues := by
  have haddress : ∀ o' a', update s.address o (some a) o' = some a' →
      o' = o ∧ a' = a ∨ s.address o' = some a' := by
    intro o' a' ha'
    by_cases ho : o' = o
    · subst ho
      rw [update_self] at ha'
      exact .inl ⟨rfl, (Option.some.inj ha').symm⟩
    · rw [update_of_ne ho] at ha'
      exact .inr ha'
  refine ⟨h.lists, fun o' => ?_, fun a' ha' => ?_, fun o1 o2 a' h1 h2 => ?_⟩
  · -- nobody waits at an address that is not in use
    change s.arrivals o' = s.wakeups o' ++ (update s.address o (some a) o').elim [] queues
    rw [h.history o']
    by_cases ho : o' = o
    · subst ho
      rw [update_self, hnone, elim_some, elim_none]
      by_contra hne
      obtain ⟨o1, h1⟩ := h.owner a fun hnil => hne (by rw [hnil])
      exact hfresh o1 h1
    · rw [update_of_ne ho]
  · obtain ⟨o', ho'⟩ := h.owner a' ha'
    have hne : o' ≠ o := by
      rintro rfl
      simp [hnone] at ho'
    exact ⟨o', (update_of_ne hne ..).trans ho'⟩
  · rcases haddress o1 a' h1 with ⟨ho1, ha1⟩ | h1' <;>
      rcases haddress o2 a' h2 with ⟨ho2, ha2⟩ | h2'
    · exact ho1.trans ho2.symm
    · exact absurd (ha1 ▸ h2') (hfresh o2)
    · exact absurd (ha2 ▸ h1') (hfresh o1)
    · exact h.injective o1 o2 a' h1' h2'

/-- The queues at the new addresses. -/
noncomputable def moved (queues : ℕ → List τ) (f : ℕ → ℕ) (a' : ℕ) : List τ :=
  open Classical in if h : ∃ a, f a = a' ∧ queues a ≠ [] then queues h.choose else []

omit [DecidableEq τ] in
theorem moved_cases (queues : ℕ → List τ) (f : ℕ → ℕ) (a' : ℕ) :
    moved queues f a' = [] ∨ ∃ a, f a = a' ∧ queues a ≠ [] ∧ moved queues f a' = queues a := by
  by_cases hex : ∃ a, f a = a' ∧ queues a ≠ []
  · exact .inr ⟨hex.choose, hex.choose_spec.1, hex.choose_spec.2, dif_pos hex⟩
  · exact .inl (dif_neg hex)

omit [DecidableEq κ] [DecidableEq τ] in
/-- **A collection** moves the queues with the objects. -/
theorem Fits.collect {f : ℕ → ℕ} {address : κ → Option ℕ} (h : s.Fits queues)
    (hlegal : s.Legal (.collect f address)) (hcells : s.Undisturbed (.collect f address)) :
    Fits { s with lists := ⟨s.lists.data.moveKeys f, s.lists.threads⟩, address }
      (moved queues f) := by
  obtain ⟨hroots, hinj⟩ := hlegal
  have hmove : ∀ o a, s.address o = some a → queues a ≠ [] → address o = some (f a) :=
    fun o a ha hq => hroots o a ha (h.stored_iff.mpr hq)
  -- no two queues come to one address
  have hf : ∀ a a', queues a ≠ [] → queues a' ≠ [] → f a = f a' → a = a' := by
    intro a a' hq hq' heq
    obtain ⟨o, ho⟩ := h.owner a hq
    obtain ⟨o', ho'⟩ := h.owner a' hq'
    obtain rfl := hinj o o' (f a) (hmove o a ho hq) (heq ▸ hmove o' a' ho' hq')
    exact Option.some.inj (ho.symm.trans ho')
  have hmoved : ∀ a, queues a ≠ [] → moved queues f (f a) = queues a := by
    intro a hq
    have hex : ∃ a', f a' = f a ∧ queues a' ≠ [] := ⟨a, rfl, hq⟩
    rw [moved, dif_pos hex, hf _ a hex.choose_spec.2 hq hex.choose_spec.1]
  have hentry : ∀ a v, entryOf (queues a) = some v → queues a ≠ [] := by
    intro a v hv hnil
    simp [hnil, entryOf] at hv
  refine ⟨⟨?_, fun hepoch => ?_, h.lists.past, ?_⟩, fun o => ?_, fun a' ha' => ?_, ?_⟩
  · refine h.lists.data.moveKeys_spec ?_ ?_
    · exact fun k k' v v' hv hv' heq => hf k k' (hentry k v hv) (hentry k' v' hv') heq
    · intro k' v
      constructor
      · intro hv
        rcases moved_cases queues f k' with hnil | ⟨a, ha, -, heq⟩
        · simp [hnil, entryOf] at hv
        · exact ⟨a, ha, by rwa [Function.comp_apply, ← heq]⟩
      · rintro ⟨k, rfl, hv⟩
        rw [Function.comp_apply, hmoved k (hentry k v hv)]
        exact hv
  · -- the table was built in this epoch, so its cells lie where the search passes
    have hcells := hcells.resolve_left fun hne => hne hepoch
    refine ObjectHashMap.Valid.moveKeys fun i hi k v hcell => ?_
    obtain ⟨n, hcap, -⟩ := h.lists.data.lt_capacity (by omega)
    refine Before.of_takeWhile ((ObjectHashMap.mem_path hcap).mpr hi) ?_
    exact hcells i hi k (by rw [hcell]; rfl)
  · refine h.lists.links.rekey hmoved fun a' => (moved_cases queues f a').imp_right ?_
    rintro ⟨a, ha, -, heq⟩
    exact ⟨a, ha, heq⟩
  · change s.arrivals o = s.wakeups o ++ (address o).elim [] (moved queues f)
    rw [h.history o]
    by_cases hq : (s.address o).elim [] queues = []
    · -- another object at the new address would have the queue of the key
      rw [hq]
      by_contra hne
      cases ha' : address o with
      | none => simp [ha'] at hne
      | some a' =>
        rcases moved_cases queues f a' with hnil | ⟨a, rfl, hqa, -⟩
        · simp [ha', hnil] at hne
        · obtain ⟨o', ho'⟩ := h.owner a hqa
          obtain rfl := hinj o o' (f a) ha' (hmove o' a ho' hqa)
          rw [ho'] at hq
          exact hqa hq
    · cases ha : s.address o with
      | none => simp [ha] at hq
      | some a =>
        rw [ha] at hq
        rw [hmove o a ha hq, elim_some, elim_some, hmoved a hq]
  · rcases moved_cases queues f a' with hnil | ⟨a, rfl, hq, -⟩
    · exact absurd hnil ha'
    · obtain ⟨o, ho⟩ := h.owner a hq
      exact ⟨o, hmove o a ho hq⟩
  · exact fun o o' a ho ho' => hinj o o' a ho ho'

/-- **A step** that is undisturbed keeps the invariant. -/
theorem Fits.step [Fintype τ] {action : MovingAction κ τ} (h : s.Fits queues)
    (hlegal : s.Legal action) (hundisturbed : s.Undisturbed action) :
    (s.step action).Keeps fun s => ∃ queues, s.Fits queues := by
  cases action with
  | enqueue o t =>
    cases ha : s.address o with
    | none => simp [MovingLists.step, ha]
    | some a =>
      obtain ⟨s', hstep, hfits⟩ := h.enqueue ha hlegal hundisturbed
      rw [hstep]
      exact hfits
  | wakeup o =>
    cases ha : s.address o with
    | none => simp [MovingLists.step, ha]
    | some a =>
      obtain ⟨lists, hstep, hfits⟩ := h.wakeup ha hundisturbed
      rw [hstep]
      exact hfits
  | wakeupAll o =>
    cases ha : s.address o with
    | none => simp [MovingLists.step, ha]
    | some a =>
      obtain ⟨lists, hstep, hfits⟩ := h.wakeupAll ha hundisturbed
      rw [hstep]
      exact hfits
  | allocate o a => exact ⟨queues, h.allocate hlegal.1 hlegal.2⟩
  | advanceEpoch =>
    -- the table was built in an earlier epoch
    have hpast := h.lists.past
    refine ⟨queues, ⟨h.lists.data, fun hepoch => ?_, ?_, h.lists.links⟩, h.history, h.owner,
      h.injective⟩
    · have hepoch : s.lists.data.gcEpoch = s.epoch + 1 := hepoch
      omega
    · exact hpast.trans (Nat.le_succ _)
  | collect f address => exact ⟨_, h.collect hlegal hundisturbed⟩

theorem fits_new [Fintype τ] : Fits (movingSystem κ τ).start fun _ => [] := by
  refine ⟨⟨⟨.inl rfl, ⟨?_, ?_⟩, rfl, Nat.zero_le _⟩, fun _ => ?_, le_rfl, ?_⟩, fun _ => rfl, ?_, ?_⟩
  · intro k v
    simp [Lists.new, ObjectHashMap.new, entryOf]
  · intro i hi
    exact absurd hi (Nat.not_lt_zero i)
  · intro i hi
    exact absurd hi (Nat.not_lt_zero i)
  · exact ⟨fun _ => trivial, fun _ => nodup_nil, fun _ _ _ ht => absurd ht (by simp),
      fun _ _ => rfl⟩
  · exact fun a ha => absurd rfl ha
  · exact fun o o' a ha => absurd ha (by simp)

end MovingLists

/-- **Every object keeps its queue** in the runs whose steps are all undisturbed: a lookup with the
current address of the object finds the entry of its queue, no operation fails, and wakeups wake
the head of the queue, or all of it. -/
theorem wait_lists_survive_moves [Fintype τ] {s : MovingLists κ τ}
    (h : (movingSystem κ τ).ReachableUnder (fun s a => s.Legal a ∧ s.Undisturbed a) s) :
    (∀ o, ∀ a ∈ s.address o, s.waiting o ≠ [] →
      ∃ data, s.lists.data.get s.epoch a = some (entryOf (s.waiting o), data)) ∧
    (∀ a, s.Legal a → s.Undisturbed a → s.step a ≠ .fails) ∧
    (∀ o s', s.Undisturbed (.wakeup o) → s.step (.wakeup o) = .next s' →
      s'.wakeups = update s.wakeups o (s.wakeups o ++ (s.waiting o).head?.toList)) ∧
    (∀ o s', s.Undisturbed (.wakeupAll o) → s.step (.wakeupAll o) = .next s' →
      s'.wakeups = update s.wakeups o (s.wakeups o ++ s.waiting o)) := by
  obtain ⟨queues, hfits⟩ : ∃ queues, s.Fits queues := by
    refine h.invariant (I := fun s => ∃ queues, s.Fits queues) ⟨_, MovingLists.fits_new⟩ ?_
    rintro s a ⟨queues, hfits⟩ ⟨hlegal, hundisturbed⟩
    exact hfits.step hlegal hundisturbed
  refine ⟨fun o a ha hwaiting => ?_, fun a hlegal hundisturbed hfails => ?_, ?_, ?_⟩
  · rw [hfits.waiting_eq ha] at hwaiting ⊢
    obtain ⟨data, hget, -⟩ := hfits.lists.data.get_spec hfits.lists.valid a fun hnone =>
      absurd (Lists.entryOf_eq_none.mp hnone) hwaiting
    exact ⟨data, hget⟩
  · have hkeeps := hfits.step hlegal hundisturbed
    rw [hfails] at hkeeps
    exact hkeeps
  · intro o s' hundisturbed hstep
    cases ha : s.address o with
    | none => simp [MovingLists.step, ha] at hstep
    | some a =>
      obtain ⟨lists, hnext, -⟩ := hfits.wakeup ha hundisturbed
      obtain rfl := Outcome.next.inj (hnext.symm.trans hstep)
      rfl
  · intro o s' hundisturbed hstep
    cases ha : s.address o with
    | none => simp [MovingLists.step, ha] at hstep
    | some a =>
      obtain ⟨lists, hnext, -⟩ := hfits.wakeupAll ha hundisturbed
      obtain rfl := Outcome.next.inj (hnext.symm.trans hstep)
      rfl

/-- Seven threads wait for seven objects: six old ones, whose addresses have the same slot, and a
young one. -/
def sevenWaiting : List (MovingAction (Fin 7) (Fin 7)) :=
  (finRange 7).map (fun o => .allocate o (if o = 6 then 1048584 else 4096 + 64 * o.val)) ++
    (finRange 7).map fun o => .enqueue o o

/-- A collection promotes the young object, to an address with another slot. -/
def promoteLast : MovingAction (Fin 7) (Fin 7) :=
  .collect (fun a => if a = 1048584 then 8192 else a)
    fun o => some (if o = 6 then 8192 else 4096 + 64 * o.val)

/-- The object is promoted by `Gc::collect`, and its waiter is woken. -/
theorem wait_lists_survive_moves_collect :
    ∃ s : MovingLists (Fin 7) (Fin 7),
      (movingSystem (Fin 7) (Fin 7)).ReachableUnder (fun s a => s.Legal a ∧ s.Undisturbed a) s ∧
      s.waiting 6 = [6] ∧ s.address 6 = some 8192 ∧ s.step (.wakeup 6) ≠ .fails := by
  have hrun : ((movingSystem (Fin 7) (Fin 7)).runUnder (fun s a => s.Legal a ∧ s.Undisturbed a)
      (movingSystem (Fin 7) (Fin 7)).start (sevenWaiting ++ [.advanceEpoch, promoteLast])).map
      (fun s => (s.waiting 6, s.address 6, decide (s.Undisturbed (.wakeup 6)))) =
      some ([6], some 8192, true) := by
    decide +kernel
  obtain ⟨s, hs, heq⟩ := map_eq_some_iff.mp hrun
  simp only [Prod.mk.injEq] at heq
  obtain ⟨hwaiting, haddress, hundisturbed⟩ := heq
  have hreach := System.ReachableUnder.start.run hs
  exact ⟨s, hreach, hwaiting, haddress, (wait_lists_survive_moves hreach).2.1 (.wakeup 6) trivial
    (of_decide_eq_true hundisturbed)⟩

/-- **A lost wakeup**: the object is promoted by a minor collection, which does not advance the
epoch. The lookup does not find its waiter, who is not woken. -/
theorem wakeup_lost :
    ∃ s : MovingLists (Fin 7) (Fin 7),
      (movingSystem (Fin 7) (Fin 7)).ReachableUnder (fun s a => s.Legal a) s ∧
      s.waiting 6 = [6] ∧ s.address 6 = some 8192 ∧
      (s.lists.data.get s.epoch 8192).map (·.1) = some none ∧
      ∃ s', s.step (.wakeup 6) = .next s' ∧ s'.wakeups 6 = [] := by
  have hrun : ((movingSystem (Fin 7) (Fin 7)).runUnder (fun s a => s.Legal a)
      (movingSystem (Fin 7) (Fin 7)).start (sevenWaiting ++ [promoteLast])).map
      (fun s => (s.waiting 6, s.address 6, (s.lists.data.get s.epoch 8192).map (·.1),
        ((movingSystem (Fin 7) (Fin 7)).run s [.wakeup 6]).elim [6] (·.wakeups 6))) =
      some ([6], some 8192, some none, []) := by
    decide +kernel
  obtain ⟨s, hs, heq⟩ := map_eq_some_iff.mp hrun
  simp only [Prod.mk.injEq] at heq
  obtain ⟨hwaiting, haddress, hget, hwakeups⟩ := heq
  refine ⟨s, System.ReachableUnder.start.run hs, hwaiting, haddress, hget, ?_⟩
  cases hnext : s.step (.wakeup 6) with
  | next s' =>
    simp only [System.run, movingSystem, hnext] at hwakeups
    exact ⟨s', rfl, hwakeups⟩
  | waits | fails => simp [System.run, hnext] at hwakeups

end Dora.Sync
