import Mathlib.Data.List.Nodup

/-!
# Wait queues

Threads that wait for a mutex or a condition stand in a queue that is threaded through their
blocking data: `dora/src/vm/waitlists.rs` keeps the head and the tail of each queue, and each thread
knows its successor (`dora/src/threads.rs`). A failed assertion is `none`.

## Main definitions

* `Links`: the blocking data are those of some queues
-/

namespace Dora.Sync

open Function (forall_update_iff update update_of_ne update_self)
open List

variable {κ τ : Type} [DecidableEq κ] [DecidableEq τ]

/-- The data under the lock `blocking` of a thread. -/
structure BlockingData (τ : Type) where
  blocking : Bool
  next : Option τ
deriving DecidableEq

/-- The blocking data of the threads. -/
abbrev Threads (τ : Type) := τ → BlockingData τ

def prepareForWaitlist (threads : Threads τ) (t : τ) : Option (Threads τ) :=
  if (threads t).blocking = false ∧ (threads t).next = none then
    some (update threads t ⟨true, none⟩)
  else none

def setWaitlistSuccessor (threads : Threads τ) (t newTail : τ) : Option (Threads τ) :=
  if (threads t).blocking = true ∧ (threads t).next = none then
    some (update threads t ⟨true, some newTail⟩)
  else none

/-- The successor of the thread, which does not wait any more. -/
def removeFromWaitlist (threads : Threads τ) (t : τ) : Option (Option τ × Threads τ) :=
  if (threads t).blocking = true then
    some ((threads t).next, update threads t ⟨false, none⟩)
  else none

/-- The entry of the map for a queue. -/
structure HeadAndTail (τ : Type) where
  head : τ
  tail : τ
deriving DecidableEq

/-- `append_to_waitlist`: the new entry for the queue that has the given one, and the blocking
data. -/
def appendToWaitlist (threads : Threads τ) (t : τ) (entry : Option (HeadAndTail τ)) :
    Option (HeadAndTail τ × Threads τ) :=
  match entry with
  | some entry => do
    let threads ← setWaitlistSuccessor threads entry.tail t
    let threads ← prepareForWaitlist threads t
    return (⟨entry.head, t⟩, threads)
  | none => do
    let threads ← prepareForWaitlist threads t
    return (⟨t, t⟩, threads)

/-! ## Queues -/

/-- The entry of a queue. -/
def entryOf : List τ → Option (HeadAndTail τ)
  | [] => none
  | t :: q => some ⟨t, (t :: q).getLast (cons_ne_nil t q)⟩

omit [DecidableEq τ] in
theorem entryOf_tail (t : τ) (q : List τ) :
    q.head?.map (fun next => (⟨next, (t :: q).getLast (cons_ne_nil t q)⟩ : HeadAndTail τ)) =
      entryOf q := by
  cases q with
  | nil => rfl
  | cons u q => simp [entryOf]

/-- The threads of the queue wait, and each one leads to the next. -/
def Linked (threads : Threads τ) : List τ → Prop
  | [] => True
  | t :: q => threads t = ⟨true, q.head?⟩ ∧ Linked threads q

/-- **The blocking data of the threads in the queues**: those of other threads are empty, and no
thread stands in a queue twice or in two of them. -/
structure Links (threads : Threads τ) (queues : κ → List τ) : Prop where
  linked : ∀ k, Linked threads (queues k)
  nodup : ∀ k, (queues k).Nodup
  unique : ∀ k k' t, t ∈ queues k → t ∈ queues k' → k = k'
  free : ∀ t, (∀ k, t ∉ queues k) → threads t = ⟨false, none⟩

section Linked

variable {threads threads' : Threads τ} {q : List τ} {t : τ}

omit [DecidableEq τ] in
theorem Linked.congr (h : Linked threads q) (heq : ∀ t ∈ q, threads' t = threads t) :
    Linked threads' q := by
  induction q with
  | nil => trivial
  | cons u q ih =>
    refine ⟨(heq u mem_cons_self).trans h.1, ?_⟩
    exact ih h.2 fun t ht => heq t (mem_cons_of_mem _ ht)

omit [DecidableEq τ] in
theorem Linked.blocking (h : Linked threads q) (ht : t ∈ q) : (threads t).blocking = true := by
  induction q with
  | nil => simp at ht
  | cons u q ih =>
    rcases mem_cons.mp ht with rfl | ht
    · rw [h.1]
    · exact ih h.2 ht

omit [DecidableEq τ] in
theorem Linked.getLast (h : Linked threads q) (hq : q ≠ []) :
    threads (q.getLast hq) = ⟨true, none⟩ := by
  induction q with
  | nil => exact absurd rfl hq
  | cons u q ih =>
    cases q with
    | nil => exact h.1
    | cons v q =>
      exact ih h.2 (cons_ne_nil v q)

/-- The last thread of the queue gets a successor, which is appended. -/
theorem Linked.append (h : Linked threads q) (hnodup : q.Nodup) (ht : t ∉ q) (hq : q ≠ []) :
    Linked (update (update threads (q.getLast hq) ⟨true, some t⟩) t ⟨true, none⟩) (q ++ [t]) := by
  induction q with
  | nil => exact absurd rfl hq
  | cons u q ih =>
    have hut : u ≠ t := fun he => ht (he ▸ mem_cons_self)
    cases q with
    | nil =>
      refine ⟨?_, ?_, trivial⟩
      · rw [update_of_ne hut]
        exact update_self ..
      · exact update_self ..
    | cons v q =>
      have hne := cons_ne_nil v q
      rw [getLast_cons hne]
      rw [nodup_cons] at hnodup
      have hlast : u ≠ (v :: q).getLast hne := fun he => hnodup.1 (he ▸ getLast_mem hne)
      refine ⟨?_, ih h.2 hnodup.2 (fun hmem => ht (mem_cons_of_mem _ hmem)) hne⟩
      rw [update_of_ne hut, update_of_ne hlast, h.1]
      rfl

end Linked

section Links

variable {threads : Threads τ} {queues : κ → List τ} {k : κ} {t : τ}

section

variable (h : Links threads queues)
include h

omit [DecidableEq κ] [DecidableEq τ] in
theorem Links.blocking_iff : (threads t).blocking = true ↔ ∃ k, t ∈ queues k := by
  constructor
  · intro hb
    by_contra hno
    rw [h.free t fun k hk => hno ⟨k, hk⟩] at hb
    exact Bool.noConfusion hb
  · rintro ⟨k, hk⟩
    exact (h.linked k).blocking hk

omit [DecidableEq τ] in
/-- Blocking data that differ in one queue only, which has grown by a thread. -/
theorem Links.grow {threads' : Threads τ} (ht : ∀ k, t ∉ queues k)
    (hlinked : Linked threads' (queues k ++ [t]))
    (hsame : ∀ u, u ∉ queues k → u ≠ t → threads' u = threads u) :
    Links threads' (update queues k (queues k ++ [t])) := by
  have hmem : ∀ k' u, u ∈ update queues k (queues k ++ [t]) k' ↔
      u ∈ queues k' ∨ (k' = k ∧ u = t) := by
    intro k' u
    by_cases hk : k' = k
    · subst hk
      rw [update_self, mem_append, mem_singleton]
      tauto
    · rw [update_of_ne hk]
      tauto
  refine ⟨(forall_update_iff queues fun _ => Linked threads').mpr ⟨hlinked, fun k' hk => ?_⟩,
    (forall_update_iff queues fun _ => Nodup).mpr ⟨?_, fun k' _ => h.nodup k'⟩, ?_, ?_⟩
  · refine (h.linked k').congr fun u hu => hsame u ?_ ?_
    · exact fun hu' => hk (h.unique k' k u hu hu')
    · rintro rfl
      exact ht k' hu
  · refine nodup_append.mpr ⟨h.nodup k, nodup_singleton t, ?_⟩
    rintro u hu v hv rfl
    obtain rfl := mem_singleton.mp hv
    exact ht k hu
  · intro k1 k2 u h1 h2
    rcases (hmem k1 u).mp h1 with h1 | ⟨hk1, hu1⟩ <;>
      rcases (hmem k2 u).mp h2 with h2 | ⟨hk2, hu2⟩
    · exact h.unique k1 k2 u h1 h2
    · exact absurd (hu2 ▸ h1) (ht k1)
    · exact absurd (hu1 ▸ h2) (ht k2)
    · exact hk1.trans hk2.symm
  · intro u hu
    have hold : ∀ k', u ∉ queues k' := fun k' hk' => hu k' ((hmem k' u).mpr (.inl hk'))
    have hne : u ≠ t := fun he => hu k ((hmem k u).mpr (.inr ⟨rfl, he⟩))
    rw [hsame u (hold k) hne]
    exact h.free u hold

/-- **Appending**: a thread that waits nowhere is appended to a queue, and the entry follows. -/
theorem Links.append (ht : ∀ k, t ∉ queues k) (k : κ) :
    ∃ entry threads', appendToWaitlist threads t (entryOf (queues k)) = some (entry, threads') ∧
      entryOf (queues k ++ [t]) = some entry ∧
      Links threads' (update queues k (queues k ++ [t])) := by
  have hfree := h.free t ht
  cases hq : queues k with
  | nil =>
    refine ⟨⟨t, t⟩, update threads t ⟨true, none⟩, ?_, rfl, ?_⟩
    · simp [appendToWaitlist, entryOf, prepareForWaitlist, hfree]
    · have hlinked : Linked (update threads t ⟨true, none⟩) (queues k ++ [t]) := by
        rw [hq]
        exact ⟨update_self .., trivial⟩
      have hgrow := h.grow ht hlinked fun u _ hne => update_of_ne hne ..
      rwa [hq] at hgrow
  | cons u q =>
    -- the old tail is in the queue, so it is not the new thread
    have hne : queues k ≠ [] := by simp [hq]
    have hlast := (h.linked k).getLast hne
    have htail : t ≠ (queues k).getLast hne := fun he => ht k (he ▸ getLast_mem hne)
    have hget : (u :: q).getLast (cons_ne_nil u q) = (queues k).getLast hne := by
      simp [hq]
    refine ⟨⟨u, t⟩, update (update threads ((queues k).getLast hne)
      ⟨true, some t⟩) t ⟨true, none⟩, ?_, ?_, ?_⟩
    · simp [appendToWaitlist, entryOf, setWaitlistSuccessor, prepareForWaitlist, hget, hlast,
        update_of_ne htail, hfree]
    · simp [entryOf]
    · rw [← hq]
      refine h.grow ht ((h.linked k).append (h.nodup k) (ht k) hne) fun v hv hvt => ?_
      have hvl : v ≠ (queues k).getLast hne := fun he => hv (he ▸ getLast_mem hne)
      rw [update_of_ne hvt, update_of_ne hvl]

/-- **Removing the head**: its successor is the head of what remains. -/
theorem Links.remove {q : List τ} (hq : queues k = t :: q) :
    removeFromWaitlist threads t = some (q.head?, update threads t ⟨false, none⟩) ∧
      Links (update threads t ⟨false, none⟩) (update queues k q) := by
  have hlinked := h.linked k
  have hnodup := h.nodup k
  rw [hq] at hlinked hnodup
  rw [nodup_cons] at hnodup
  have hmem : ∀ k' u, u ∈ update queues k q k' ↔ u ∈ queues k' ∧ u ≠ t := by
    intro k' u
    by_cases hk : k' = k
    · subst hk
      rw [update_self, hq, mem_cons]
      constructor
      · intro hu
        exact ⟨.inr hu, fun he => hnodup.1 (he ▸ hu)⟩
      · rintro ⟨rfl | hu, hne⟩
        · exact absurd rfl hne
        · exact hu
    · rw [update_of_ne hk]
      refine ⟨fun hu => ⟨hu, ?_⟩, fun hu => hu.1⟩
      rintro rfl
      exact hk (h.unique k' k u hu (hq ▸ mem_cons_self))
  have hold : ∀ k', Linked threads (update queues k q k') :=
    (forall_update_iff queues fun _ => Linked threads).mpr ⟨hlinked.2, fun k' _ => h.linked k'⟩
  refine ⟨?_, fun k' => ?_, ?_, ?_, ?_⟩
  · simp [removeFromWaitlist, hlinked.1]
  · exact (hold k').congr fun u hu => update_of_ne ((hmem k' u).mp hu).2 ..
  · exact (forall_update_iff queues fun _ => Nodup).mpr ⟨hnodup.2, fun k' _ => h.nodup k'⟩
  · intro k1 k2 u h1 h2
    exact h.unique k1 k2 u ((hmem k1 u).mp h1).1 ((hmem k2 u).mp h2).1
  · refine (forall_update_iff threads fun u data => (∀ k', u ∉ update queues k q k') →
      data = ⟨false, none⟩).mpr ⟨fun _ => rfl, fun u hut hu => ?_⟩
    exact h.free u fun k' hk' => hu k' ((hmem k' u).mpr ⟨hk', hut⟩)

omit [DecidableEq κ] [DecidableEq τ] in
/-- **Other keys**: the queues that are not empty get new keys, each its own. -/
theorem Links.rekey {κ' : Type} {queues' : κ' → List τ} {f : κ → κ'}
    (hto : ∀ k, queues k ≠ [] → queues' (f k) = queues k)
    (hfrom : ∀ k', queues' k' = [] ∨ ∃ k, f k = k' ∧ queues' k' = queues k) :
    Links threads queues' := by
  have hmem : ∀ k' t, t ∈ queues' k' → ∃ k, f k = k' ∧ t ∈ queues k := by
    intro k' t ht
    rcases hfrom k' with hnil | ⟨k, hk, heq⟩
    · simp [hnil] at ht
    · exact ⟨k, hk, heq ▸ ht⟩
  refine ⟨fun k' => ?_, fun k' => ?_, fun k1 k2 t h1 h2 => ?_, fun t ht => h.free t fun k hk => ?_⟩
  · rcases hfrom k' with hnil | ⟨k, -, heq⟩
    · rw [hnil]
      trivial
    · rw [heq]
      exact h.linked k
  · rcases hfrom k' with hnil | ⟨k, -, heq⟩
    · rw [hnil]
      exact nodup_nil
    · rw [heq]
      exact h.nodup k
  · obtain ⟨j1, rfl, hj1⟩ := hmem k1 t h1
    obtain ⟨j2, rfl, hj2⟩ := hmem k2 t h2
    rw [h.unique j1 j2 t hj1 hj2]
  · refine ht (f k) ?_
    rwa [hto k (ne_nil_of_mem hk)]

end

end Links

end Dora.Sync
