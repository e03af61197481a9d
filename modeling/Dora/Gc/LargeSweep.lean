import Dora.Gc.LargeSpace
import Dora.Lib.System

/-!
# Sweeping the large objects in parallel

The part of `ParallelFullCollector::update_references` (`dora/src/gc/swiper/pcompact.rs`) for large
objects. Workers take the items of the detached list from a shared cursor (`next`). Each links the
marked items it takes to a chain of its own, collects the memory of the others, and hands both over
at its end. Everything between two accesses to the cursor or to the space is one step.

## Main definitions

* `sweepSystem`: the system of workers
* `Conserved`: marked items stay in the list, and the memory of the others is free

## Main results

* `SweepInv.step`: a step keeps the invariant
* `large_space_conserved_iff`: when the space is conserved
* `not_conserved_dead`: the memory of a worker without marked items is lost
-/

namespace Dora.Gc

open Function (update update_of_ne update_self)
open List

open Finset

variable {ι : Type} [DecidableEq ι]

/-- The large objects when the threads are stopped: the space, the links of the allocations, and
the mark bits of their objects. -/
structure LargeHeap where
  space : LargeSpace
  nodes : Nodes ℕ
  marked : ℕ → Bool
  size : ℕ → ℕ

/-- Where a worker is: it takes its first item, takes the item after `a`, is about to look at `a`
when it has already taken `addr`, or hands over what it has. -/
inductive SweepPc
  | first
  | advance (a : ℕ)
  | process (a : ℕ) (addr : Option ℕ)
  | finish
  | done
deriving DecidableEq

/-- The variables of a worker. `taken` records the items it has looked at. -/
structure SweepWorker where
  pc : SweepPc
  head : Option ℕ
  tail : Option ℕ
  freeRegions : List Region
  freed : ℕ
  taken : List ℕ

structure SweepState (ι : Type) where
  space : LargeSpace
  nodes : Nodes ℕ
  marked : ℕ → Bool
  nextLarge : Option ℕ
  workers : ι → SweepWorker

/-- `next`: the item at the cursor, which moves on. -/
def SweepState.next (s : SweepState ι) : Option ℕ × Option ℕ :=
  match s.nextLarge with
  | none => (none, none)
  | some a => (some a, (s.nodes a).next)

/-- The condition of the loop. -/
@[simp]
def SweepPc.loop : Option ℕ → SweepPc
  | none => .finish
  | some a => .advance a

def sweepStep (size : ℕ → ℕ) (s : SweepState ι) (i : ι) : Outcome (SweepState ι) :=
  let w := s.workers i
  match w.pc with
  | .first =>
    .next { s with
      nextLarge := s.next.2
      workers := update s.workers i { w with pc := .loop s.next.1 } }
  | .advance a =>
    .next { s with
      nextLarge := s.next.2
      workers := update s.workers i { w with pc := .process a s.next.1 } }
  | .process a addr =>
    if s.marked a then
      .next { s with
        nodes := update (w.tail.elim s.nodes fun tail => s.nodes.setNext tail (some a)) a
          ⟨w.tail, none⟩
        marked := update s.marked a false
        workers := update s.workers i { w with
          pc := .loop addr, head := w.head.or (some a), tail := some a, taken := w.taken ++ [a] } }
    else
      .next { s with
        workers := update s.workers i { w with
          pc := .loop addr, freeRegions := w.freeRegions ++ [⟨a, a + size a⟩],
          freed := w.freed + size a, taken := w.taken ++ [a] } }
  | .finish =>
    match w.head with
    | none => .next { s with workers := update s.workers i { w with pc := .done } }
    | some head =>
      match s.space.appendChain s.nodes head (w.tail.getD 0) w.freed w.freeRegions with
      | none => .fails
      | some (space, nodes) =>
        .next { s with
          space, nodes, workers := update s.workers i { w with pc := .done } }
  | .done => .waits

/-- The workers from the detached list on. -/
@[simp]
def sweepSystem (ι : Type) [DecidableEq ι] (heap : LargeHeap) : System (SweepState ι) ι where
  start := ⟨{ heap.space with head := none }, heap.nodes, heap.marked, heap.space.head,
    fun _ => ⟨.first, none, none, [], 0, []⟩⟩
  step := sweepStep heap.size

/-- The list of the allocations, whose memory is accounted for. -/
structure LargeHeap.WellFormed (heap : LargeHeap) (items : List ℕ) : Prop where
  head : heap.space.head = items.head?
  linked : Segment heap.nodes none items none
  nodup : items.Nodup
  size_pos : ∀ a ∈ items, 0 < heap.size a
  committed : (items.map heap.size).sum ≤ heap.space.committedSize
  elements : ∀ r ∈ heap.space.elements, r.start ≤ r.stop

namespace LargeHeap

/-- The marked ones of some allocations. -/
def live (heap : LargeHeap) (items : List ℕ) : List ℕ := items.filter (heap.marked ·)

/-- The other ones. -/
def dead (heap : LargeHeap) (items : List ℕ) : List ℕ := items.filter (!heap.marked ·)

/-- The memory of an allocation. -/
def region (heap : LargeHeap) (a : ℕ) : Region := ⟨a, a + heap.size a⟩

/-- The total size of some allocations. -/
def total (heap : LargeHeap) (items : List ℕ) : ℕ := (items.map heap.size).sum

end LargeHeap

/-- **Conservation**: the list contains exactly the marked allocations, the memory of each other
allocation is free, and the committed size has decreased by the size of the latter. -/
structure Conserved (heap : LargeHeap) (items : List ℕ) (s : SweepState ι) : Prop where
  list : ∃ kept, s.space.head = kept.head? ∧ Segment s.nodes none kept none ∧
    kept.Perm (heap.live items)
  free : ∀ a ∈ heap.dead items, LargeSpace.Free s.space.elements (heap.region a)
  committed : s.space.committedSize + heap.total (heap.dead items) = heap.space.committedSize

/-! ## The invariant -/

section Invariant

/-- The items a worker holds but has not looked at. -/
@[simp]
def SweepPc.inHand : SweepPc → List ℕ
  | .advance a => [a]
  | .process a addr => a :: addr.toList
  | _ => []

@[simp]
theorem SweepPc.inHand_loop (addr : Option ℕ) : (SweepPc.loop addr).inHand = addr.toList := by
  cases addr <;> rfl

/-- The worker has found the detached list empty. -/
@[simp]
def SweepPc.Last : SweepPc → Prop
  | .process _ none | .finish | .done => True
  | _ => False

theorem SweepPc.last_loop {addr : Option ℕ} {a : ℕ} :
    (SweepPc.loop addr).Last ↔ (SweepPc.process a addr).Last := by
  cases addr <;> simp

/-- The items of a worker. -/
@[simp]
def SweepWorker.items (w : SweepWorker) : Multiset ℕ := (w.taken ++ w.pc.inHand : List ℕ)

/-- The chain and the free regions of a worker are those of the items it has looked at. -/
structure SweepWorker.Holds (heap : LargeHeap) (w : SweepWorker) (nodes : Nodes ℕ) : Prop where
  head : w.head = (heap.live w.taken).head?
  tail : w.tail = (heap.live w.taken).getLast?
  chain : Segment nodes none (heap.live w.taken) none
  freeRegions : w.freeRegions = (heap.dead w.taken).map heap.region
  freed : w.freed = heap.total (heap.dead w.taken)

/-- What a worker has handed over to the list. -/
def SweepWorker.linked (heap : LargeHeap) (w : SweepWorker) : Multiset ℕ :=
  if w.pc = .done then heap.live w.taken else 0

/-- What a worker has handed over to the free regions: nothing if its chain is empty. -/
@[simp]
def SweepWorker.returned (heap : LargeHeap) (w : SweepWorker) : List ℕ :=
  if w.pc = .done ∧ heap.live w.taken ≠ [] then heap.dead w.taken else []

variable [Fintype ι]

/-- **The invariant**: each item is still in the detached list or with one worker, and `kept` is the
list of what the workers that are done have handed over. -/
structure SweepInv (heap : LargeHeap) (items : List ℕ) (s : SweepState ι) (rest kept : List ℕ) :
    Prop where
  cursor : s.nextLarge = rest.head?
  detached : ∃ before, Segment s.nodes before rest none
  exhausted : ∀ i, (s.workers i).pc.Last → rest = []
  split : (items : Multiset ℕ) = rest + ∑ i, (s.workers i).items
  marked : ∀ a, (∀ i, a ∉ (s.workers i).taken) → s.marked a = heap.marked a
  holds : ∀ i, (s.workers i).pc ≠ .done → (s.workers i).Holds heap s.nodes
  head : s.space.head = kept.head?
  list : Segment s.nodes none kept none
  linked : (kept : Multiset ℕ) = ∑ i, (s.workers i).linked heap
  free : ∀ i, ∀ a ∈ (s.workers i).returned heap, LargeSpace.Free s.space.elements (heap.region a)
  elements : ∀ r ∈ s.space.elements, r.start ≤ r.stop
  committed : s.space.committedSize + ∑ i, heap.total ((s.workers i).returned heap) =
    heap.space.committedSize

variable {heap : LargeHeap} {items rest kept : List ℕ} {s : SweepState ι} {i : ι} {a : ℕ}

omit [DecidableEq ι] in
/-- An item of a worker is neither in the detached list nor with another worker. -/
theorem SweepInv.owner (h : SweepInv heap items s rest kept) (hnodup : items.Nodup) (i : ι) :
    (s.workers i).items.Nodup ∧
      ∀ a ∈ (s.workers i).items, a ∉ rest ∧ ∀ j, j ≠ i → a ∉ (s.workers j).items := by
  classical
  have hsum := add_sum_erase univ (fun j => (s.workers j).items) (mem_univ i)
  have hsplit := Multiset.coe_nodup.mpr hnodup
  rw [h.split, ← hsum, Multiset.nodup_add, Multiset.nodup_add] at hsplit
  obtain ⟨-, ⟨hi, -, hothers⟩, hrest⟩ := hsplit
  refine ⟨hi, fun a ha => ⟨fun har => ?_, fun j hj haj => ?_⟩⟩
  · exact Multiset.disjoint_left.mp hrest har (Multiset.mem_add.mpr (.inl ha))
  · exact Multiset.disjoint_left.mp hothers ha
      (Multiset.mem_sum.mpr ⟨j, mem_erase.mpr ⟨hj, mem_univ j⟩, haj⟩)

omit [DecidableEq ι] in
theorem SweepInv.mem_kept (h : SweepInv heap items s rest kept) (ha : a ∈ kept) :
    ∃ j, (s.workers j).pc = .done ∧ a ∈ heap.live (s.workers j).taken := by
  rw [← Multiset.mem_coe, h.linked, Multiset.mem_sum] at ha
  obtain ⟨j, -, hj⟩ := ha
  unfold SweepWorker.linked at hj
  split at hj
  next hdone => exact ⟨j, hdone, Multiset.mem_coe.mp hj⟩
  next => simp at hj

namespace SweepWorker

variable {w w' : SweepWorker} {nodes nodes' : Nodes ℕ} {addr : Option ℕ}

theorem mem_items_of_live (ha : a ∈ heap.live w.taken) : a ∈ w.items := by
  unfold items
  rw [Multiset.mem_coe, mem_append]
  exact .inl (mem_of_mem_filter ha)

theorem linked_of_ne (hpc : w.pc ≠ .done) : w.linked heap = 0 := if_neg hpc

theorem returned_of_ne (hpc : w.pc ≠ .done) : w.returned heap = [] :=
  if_neg fun hdone => hpc hdone.1

theorem returned_sublist (w : SweepWorker) : (w.returned heap).Sublist w.taken := by
  unfold returned
  split
  · exact filter_sublist
  · exact nil_sublist _

theorem items_processed (hpc : w.pc = .process a addr) (hpc' : w'.pc = .loop addr)
    (htaken : w'.taken = w.taken ++ [a]) : w'.items = w.items := by
  unfold items
  rw [hpc, hpc', htaken, SweepPc.inHand_loop, append_assoc]
  rfl

namespace Holds

variable (h : w.Holds heap nodes)
include h

theorem congr (heq : ∀ a ∈ w.items, nodes' a = nodes a) : w.Holds heap nodes' :=
  { h with chain := h.chain.congr fun _ ha => heq _ (mem_items_of_live ha) }

/-- A marked item is linked to the chain. -/
theorem link (hmarked : heap.marked a = true) (hnodup : (w.taken ++ [a]).Nodup) (pc : SweepPc) :
    Holds heap { w with
      pc, head := w.head.or (some a), tail := some a, taken := w.taken ++ [a] }
      (update (w.tail.elim nodes fun tail => nodes.setNext tail (some a)) a ⟨w.tail, none⟩) := by
  have hlive : heap.live (w.taken ++ [a]) = heap.live w.taken ++ [a] := by
    simp [LargeHeap.live, hmarked]
  have hdead : heap.dead (w.taken ++ [a]) = heap.dead w.taken := by
    simp [LargeHeap.dead, hmarked]
  refine ⟨?_, ?_, ?_, ?_, ?_⟩
  · change w.head.or (some a) = (heap.live (w.taken ++ [a])).head?
    rw [hlive, h.head, head?_append]
    rfl
  · change some a = (heap.live (w.taken ++ [a])).getLast?
    rw [hlive, getLast?_concat]
  · change Segment _ none (heap.live (w.taken ++ [a])) none
    rw [hlive, h.tail]
    exact h.chain.push (hlive ▸ hnodup.filter _)
  · exact h.freeRegions.trans (by rw [← hdead])
  · exact h.freed.trans (by rw [← hdead])

/-- Another item is added to the free regions. -/
theorem release (hmarked : heap.marked a = false) (pc : SweepPc) :
    Holds heap { w with
      pc, freeRegions := w.freeRegions ++ [⟨a, a + heap.size a⟩], freed := w.freed + heap.size a,
      taken := w.taken ++ [a] } nodes := by
  have hlive : heap.live (w.taken ++ [a]) = heap.live w.taken := by
    simp [LargeHeap.live, hmarked]
  have hdead : heap.dead (w.taken ++ [a]) = heap.dead w.taken ++ [a] := by
    simp [LargeHeap.dead, hmarked]
  refine ⟨h.head.trans (by rw [← hlive]), h.tail.trans (by rw [← hlive]), ?_, ?_, ?_⟩
  · change Segment nodes none (heap.live (w.taken ++ [a])) none
    rw [hlive]
    exact h.chain
  · change w.freeRegions ++ [⟨a, a + heap.size a⟩] = (heap.dead (w.taken ++ [a])).map heap.region
    rw [hdead, h.freeRegions, map_append]
    rfl
  · change w.freed + heap.size a = heap.total (heap.dead (w.taken ++ [a]))
    rw [hdead, h.freed]
    simp [LargeHeap.total]

end Holds

end SweepWorker

open SweepWorker

section

variable {w : SweepWorker} (h : SweepInv heap items s rest kept)
include h

/-- **A step of a worker** that hands nothing over: it changes links of its own items only. -/
theorem SweepInv.move {s' : SweepState ι} {rest' : List ℕ} (hnodup : items.Nodup)
    (hpc : (s.workers i).pc ≠ .done) (hworkers : s'.workers = update s.workers i w)
    (hspace : s'.space = s.space) (hlinked : w.linked heap = 0) (hreturned : w.returned heap = [])
    (hholds : w.pc ≠ .done → w.Holds heap s'.nodes) (hcursor : s'.nextLarge = rest'.head?)
    (hdetached : ∃ before, Segment s'.nodes before rest' none)
    (hlast : w.pc.Last ∨ rest = [] → rest' = [])
    (hsplit : (rest' : Multiset ℕ) + w.items = rest + (s.workers i).items)
    (hnodes : ∀ a, a ∉ (s.workers i).items → s'.nodes a = s.nodes a)
    (hmarked : ∀ a, a ∉ w.taken → s'.marked a = s.marked a)
    (htaken : ∀ a ∈ (s.workers i).taken, a ∈ w.taken) :
    SweepInv heap items s' rest' kept := by
  have hself : s'.workers i = w := by rw [hworkers, update_self]
  have hothers : ∀ j, j ≠ i → s'.workers j = s.workers j := by
    intro j hj
    rw [hworkers, update_of_ne hj]
  have hlinked' : ∀ j, (s'.workers j).linked heap = (s.workers j).linked heap := by
    intro j
    by_cases hj : j = i
    · rw [hj, hself, hlinked]
      exact (if_neg hpc).symm
    · rw [hothers j hj]
  have hreturned' : ∀ j, (s'.workers j).returned heap = (s.workers j).returned heap := by
    intro j
    by_cases hj : j = i
    · rw [hj, hself, hreturned]
      exact (if_neg fun hdone => hpc hdone.1).symm
    · rw [hothers j hj]
  refine ⟨hcursor, hdetached, fun j hj => ?_, ?_, fun a ha => ?_, fun j hj => ?_, hspace ▸ h.head,
    ?_, ?_, fun j a ha => ?_, hspace ▸ h.elements, ?_⟩
  · by_cases hji : j = i
    · rw [hji, hself] at hj
      exact hlast (.inl hj)
    · rw [hothers j hji] at hj
      exact hlast (.inr (h.exhausted j hj))
  · refine sum_balance (fun j hj => congrArg SweepWorker.items (hothers j hj)) ?_ h.split
    rw [hself]
    exact hsplit
  · have hai : a ∉ w.taken := hself ▸ ha i
    refine (hmarked a hai).trans (h.marked a fun j hj => ?_)
    by_cases hji : j = i
    · exact hai (htaken a (hji ▸ hj))
    · exact ha j ((hothers j hji).symm ▸ hj)
  · by_cases hji : j = i
    · rw [hji, hself] at hj ⊢
      exact hholds hj
    · rw [hothers j hji] at hj ⊢
      refine (h.holds j hj).congr fun a ha => hnodes a ?_
      exact ((h.owner hnodup j).2 a ha).2 i (Ne.symm hji)
  · refine h.list.congr fun a ha => hnodes a ?_
    obtain ⟨j, hdone, haj⟩ := h.mem_kept ha
    have hji : i ≠ j := fun he => hpc (he ▸ hdone)
    exact ((h.owner hnodup j).2 a (mem_items_of_live haj)).2 i hji
  · rw [h.linked]
    exact (sum_congr rfl fun j _ => hlinked' j).symm
  · rw [hreturned' j] at ha
    exact hspace ▸ h.free j a ha
  · rw [hspace, ← h.committed]
    congr 1
    exact sum_congr rfl fun j _ => by rw [hreturned' j]

/-- **Taking an item** from the cursor. -/
theorem SweepInv.next {pc : SweepPc} (hnodup : items.Nodup) (hpc : (s.workers i).pc ≠ .done)
    (hpc' : pc ≠ .done) (hlast : pc.Last → s.next.1 = none)
    (hhand : pc.inHand = (s.workers i).pc.inHand ++ s.next.1.toList) :
    ∃ rest', SweepInv heap items { s with
      nextLarge := s.next.2
      workers := update s.workers i { s.workers i with pc } } rest' kept := by
  have hcursor := h.cursor
  obtain ⟨before, hdetached⟩ := h.detached
  have hmove : ∀ rest' : List ℕ, s.next.2 = rest'.head? →
      (∃ before, Segment s.nodes before rest' none) →
      (s.next.1 = none ∨ rest = [] → rest' = []) →
      (rest' : Multiset ℕ) + s.next.1.toList = rest →
      SweepInv heap items { s with
        nextLarge := s.next.2
        workers := update s.workers i { s.workers i with pc } } rest' kept := by
    intro rest' hhead hsegment hempty hrest
    refine h.move hnodup hpc rfl rfl (linked_of_ne hpc')
      (returned_of_ne hpc') (fun _ => ?_) hhead hsegment
      (fun hor => hempty (hor.imp_left hlast)) ?_ (fun _ _ => rfl) (fun _ _ => rfl) fun _ ha => ha
    · exact { h.holds i hpc with }
    · unfold SweepWorker.items
      rw [hhand, ← hrest]
      simp only [← Multiset.coe_add]
      ac_rfl
  cases hrest : rest with
  | nil =>
    have hnext : s.next = (none, none) := by simp [SweepState.next, hcursor, hrest]
    refine ⟨[], hmove [] (by rw [hnext]; rfl) ⟨none, trivial⟩ (fun _ => rfl) ?_⟩
    simp [hnext, hrest]
  | cons a rest' =>
    rw [hrest] at hdetached
    have hnext : s.next = (some a, rest'.head?) := by
      simp [SweepState.next, hcursor, hrest, hdetached.1]
    refine ⟨rest', hmove rest' (by rw [hnext]) ⟨some a, hdetached.2⟩ ?_ ?_⟩
    · rw [hnext, hrest]
      simp
    rw [hnext, hrest]
    exact Multiset.coe_eq_coe.mpr (perm_append_singleton a rest')

variable {addr : Option ℕ}

omit [DecidableEq ι] in
theorem SweepInv.marked_eq (hnodup : items.Nodup) (hpc : (s.workers i).pc = .process a addr) :
    a ∉ (s.workers i).taken ∧ s.marked a = heap.marked a := by
  obtain ⟨hitems, howner⟩ := h.owner hnodup i
  have ha : a ∈ (s.workers i).items := by simp [hpc]
  have hnot : a ∉ (s.workers i).taken := by
    intro hmem
    unfold SweepWorker.items at hitems
    rw [Multiset.coe_nodup, hpc, nodup_append] at hitems
    exact hitems.2.2 a hmem a mem_cons_self rfl
  refine ⟨hnot, h.marked a fun j hj => ?_⟩
  by_cases hji : j = i
  · exact hnot (hji ▸ hj)
  · refine (howner a ha).2 j hji ?_
    unfold SweepWorker.items
    rw [Multiset.mem_coe, mem_append]
    exact .inl hj

omit [DecidableEq ι] in
theorem SweepInv.exhausted_loop (hpc : (s.workers i).pc = .process a addr)
    (hor : (SweepPc.loop addr).Last ∨ rest = []) :
    rest = [] := by
  rcases hor with hlast | hnil
  · exact h.exhausted i (hpc ▸ SweepPc.last_loop.mp hlast)
  · exact hnil

/-- **A marked item** is linked to the chain of the worker. -/
theorem SweepInv.link (hnodup : items.Nodup) (hw : s.workers i = w)
    (hpc : w.pc = .process a addr) (hmarked : s.marked a = true) :
    SweepInv heap items { s with
      nodes := update (w.tail.elim s.nodes fun tail => s.nodes.setNext tail (some a)) a
        ⟨w.tail, none⟩
      marked := update s.marked a false
      workers := update s.workers i { w with
        pc := .loop addr, head := w.head.or (some a), tail := some a, taken := w.taken ++ [a] } }
      rest kept := by
  subst hw
  have hne : (s.workers i).pc ≠ .done := by simp [hpc]
  have hne' : SweepPc.loop addr ≠ .done := by cases addr <;> simp
  have hold := h.holds i hne
  obtain ⟨-, hmark⟩ := h.marked_eq hnodup hpc
  obtain ⟨hitems, howner⟩ := h.owner hnodup i
  have ha : a ∈ (s.workers i).items := by simp [hpc]
  have hnodes : ∀ b, b ∉ (s.workers i).items →
      update ((s.workers i).tail.elim s.nodes fun tail => s.nodes.setNext tail (some a)) a
        ⟨(s.workers i).tail, none⟩ b = s.nodes b := by
    intro b hb
    have hba : b ≠ a := by
      rintro rfl
      exact hb ha
    rw [update_of_ne hba, hold.tail]
    cases htail : (heap.live (s.workers i).taken).getLast? with
    | none => rfl
    | some tail =>
      refine Nodes.setNext_of_ne ?_
      rintro rfl
      exact hb (mem_items_of_live (mem_of_getLast? htail))
  have hnodup' : ((s.workers i).taken ++ [a]).Nodup := by
    unfold SweepWorker.items at hitems
    rw [Multiset.coe_nodup, hpc] at hitems
    exact hitems.sublist (List.Sublist.append (List.Sublist.refl _) (by simp))
  obtain ⟨before, hdetached⟩ := h.detached
  refine h.move hnodup hne rfl rfl (linked_of_ne hne') (returned_of_ne hne')
    (fun _ => hold.link (hmark ▸ hmarked) hnodup' _) h.cursor
    ⟨before, hdetached.congr fun b hb => hnodes b fun hbi => (howner b hbi).1 hb⟩
    (h.exhausted_loop hpc) ?_ hnodes (fun b hb => ?_) fun b hb => mem_append_left _ hb
  · rw [items_processed hpc rfl rfl]
  · refine update_of_ne ?_ ..
    rintro rfl
    exact hb (by simp)

/-- **Another item** is added to the free regions of the worker. -/
theorem SweepInv.release (hnodup : items.Nodup) (hw : s.workers i = w)
    (hpc : w.pc = .process a addr) (hmarked : s.marked a = false) :
    SweepInv heap items { s with
      workers := update s.workers i { w with
        pc := .loop addr, freeRegions := w.freeRegions ++ [⟨a, a + heap.size a⟩],
        freed := w.freed + heap.size a, taken := w.taken ++ [a] } } rest kept := by
  subst hw
  have hne : (s.workers i).pc ≠ .done := by simp [hpc]
  have hne' : SweepPc.loop addr ≠ .done := by cases addr <;> simp
  obtain ⟨-, hmark⟩ := h.marked_eq hnodup hpc
  refine h.move hnodup hne rfl rfl (linked_of_ne hne') (returned_of_ne hne')
    (fun _ => (h.holds i hne).release (hmark ▸ hmarked) _) h.cursor h.detached
    (h.exhausted_loop hpc) ?_ (fun _ _ => rfl) (fun _ _ => rfl) fun b hb => mem_append_left _ hb
  rw [items_processed hpc rfl rfl]

/-- **The end of a worker** that has no chain: its free regions are lost. -/
theorem SweepInv.drop (hnodup : items.Nodup) (hpc : (s.workers i).pc = .finish)
    (hhead : (s.workers i).head = none) :
    SweepInv heap items { s with
      workers := update s.workers i { s.workers i with pc := .done } } rest kept := by
  have hne : (s.workers i).pc ≠ .done := by simp [hpc]
  have hlive : heap.live (s.workers i).taken = [] := by
    rw [← head?_eq_none_iff, ← (h.holds i hne).head, hhead]
  refine h.move hnodup hne rfl rfl ?_ ?_ (fun hdone => absurd rfl hdone) h.cursor h.detached
    (fun _ => h.exhausted i (by rw [hpc]; trivial)) ?_ (fun _ _ => rfl) (fun _ _ => rfl)
    fun _ hb => hb
  · simp [SweepWorker.linked, hlive]
  · simp [hlive]
  · unfold SweepWorker.items
    rw [hpc]
    rfl

end

/-- The total size, as a sum over a multiset. -/
def LargeHeap.weight (heap : LargeHeap) : Multiset ℕ →+ ℕ :=
  Multiset.sumAddMonoidHom.comp (Multiset.mapAddMonoidHom heap.size)

theorem LargeHeap.total_eq (xs : List ℕ) : heap.total xs = heap.weight xs := by
  exact (Multiset.sum_coe (xs.map heap.size)).symm

section

variable (h : SweepInv heap items s rest kept)
include h

omit [DecidableEq ι] in
/-- Parts of what the workers have looked at are not larger than all items. -/
theorem SweepInv.total_le {part : ι → List ℕ} (hpart : ∀ j, (part j).Sublist (s.workers j).taken) :
    ∑ j, heap.total (part j) ≤ heap.total items := by
  have hle : ∑ j, (part j : Multiset ℕ) ≤ items := by
    rw [h.split]
    refine le_trans (sum_le_sum fun j _ => ?_) (Multiset.le_add_left _ _)
    exact Multiset.coe_le.mpr ((hpart j).trans (sublist_append_left ..)).subperm
  obtain ⟨others, hothers⟩ := Multiset.le_iff_exists_add.mp hle
  rw [LargeHeap.total_eq, hothers, map_add, map_sum]
  exact Nat.le_add_right ..

omit [DecidableEq ι] in
theorem SweepInv.kept_nodup (hnodup : items.Nodup) : kept.Nodup := by
  rw [← Multiset.coe_nodup, h.linked]
  refine Multiset.nodup_of_le ?_ (Multiset.coe_nodup.mpr hnodup)
  rw [h.split]
  refine le_trans (sum_le_sum fun j _ => ?_) (Multiset.le_add_left _ _)
  unfold SweepWorker.linked
  split
  · refine Multiset.coe_le.mpr (List.Sublist.subperm ?_)
    exact filter_sublist.trans (sublist_append_left ..)
  · exact Multiset.zero_le _

/-- What the workers have returned after one of them has handed over its chain. -/
theorem SweepInv.sum_returned {workers : ι → SweepWorker} (hpc : (s.workers i).pc ≠ .done)
    (hlive : heap.live (s.workers i).taken ≠ [])
    (hworkers : workers = update s.workers i { s.workers i with pc := .done }) :
    ∑ j, heap.total ((workers j).returned heap) =
      ∑ j, heap.total ((s.workers j).returned heap) + (s.workers i).freed := by
  have hchange := sum_change
    (g := fun j => heap.total ((workers j).returned heap))
    fun j hj => by rw [hworkers, update_of_ne hj]
  have hold : (s.workers i).returned heap = [] := returned_of_ne hpc
  have hnew : (workers i).returned heap = heap.dead (s.workers i).taken := by
    rw [hworkers, update_self]
    exact if_pos ⟨rfl, hlive⟩
  rw [hold, hnew, ← (h.holds i hpc).freed] at hchange
  exact hchange

/-- **A chain is handed over**: it is in front of the list, and the regions are free. -/
theorem SweepInv.append {s' : SweepState ι} (hnodup : items.Nodup)
    (hpc : (s.workers i).pc = .finish) (hlive : heap.live (s.workers i).taken ≠ [])
    (hworkers : s'.workers = update s.workers i { s.workers i with pc := .done })
    (hmarked : s'.marked = s.marked) (hcursor : s'.nextLarge = s.nextLarge)
    (hhead : s'.space.head = (heap.live (s.workers i).taken ++ kept).head?)
    (hlist : Segment s'.nodes none (heap.live (s.workers i).taken ++ kept) none)
    (hnodes : ∀ a, a ∉ heap.live (s.workers i).taken ++ kept → s'.nodes a = s.nodes a)
    (hcommitted : s'.space.committedSize + (s.workers i).freed = s.space.committedSize)
    (hfree : ∀ r ∈ s.space.elements ++ (s.workers i).freeRegions,
      LargeSpace.Free s'.space.elements r) (helements : ∀ r ∈ s'.space.elements, r.start ≤ r.stop) :
    SweepInv heap items s' rest (heap.live (s.workers i).taken ++ kept) := by
  have hne : (s.workers i).pc ≠ .done := by simp [hpc]
  have hold := h.holds i hne
  have hothers : ∀ j, j ≠ i → s'.workers j = s.workers j := by
    intro j hj
    rw [hworkers, update_of_ne hj]
  have hself : s'.workers i = { s.workers i with pc := .done } := by
    rw [hworkers, update_self]
  have htaken : ∀ j, (s'.workers j).taken = (s.workers j).taken := by
    intro j
    by_cases hj : j = i
    · rw [hj, hself]
    · rw [hothers j hj]
  -- the items in the list belong to workers that are done, and to this one
  have hframe : ∀ a, a ∈ rest ∨ (∃ j, j ≠ i ∧ (s.workers j).pc ≠ .done ∧ a ∈ (s.workers j).items) →
      s'.nodes a = s.nodes a := by
    refine fun a ha => hnodes a fun hmem => ?_
    obtain ⟨j, hj, haj⟩ : ∃ j, (j = i ∨ (s.workers j).pc = .done) ∧ a ∈ (s.workers j).items := by
      rcases mem_append.mp hmem with hmem | hmem
      · exact ⟨i, .inl rfl, mem_items_of_live hmem⟩
      · obtain ⟨j, hdone, haj⟩ := h.mem_kept hmem
        exact ⟨j, .inr hdone, mem_items_of_live haj⟩
    obtain ⟨hrest, hother⟩ := (h.owner hnodup j).2 a haj
    rcases ha with ha | ⟨k, hki, hkpc, hak⟩
    · exact hrest ha
    · refine hother k ?_ hak
      rintro rfl
      exact hj.elim hki hkpc
  obtain ⟨before, hdetached⟩ := h.detached
  refine ⟨hcursor.trans h.cursor, ⟨before, hdetached.congr fun a ha => hframe a (.inl ha)⟩,
    fun _ _ => h.exhausted i (by rw [hpc]; trivial), ?_, fun a ha => ?_, fun j hj => ?_,
      hhead, hlist,
    ?_, fun j a ha => ?_, helements, ?_⟩
  · refine sum_balance (fun j hj => congrArg SweepWorker.items (hothers j hj)) ?_ h.split
    rw [hself]
    unfold SweepWorker.items
    rw [hpc]
    rfl
  · rw [hmarked]
    exact h.marked a fun j => htaken j ▸ ha j
  · have hji : j ≠ i := by
      rintro rfl
      exact hj (by rw [hself])
    rw [hothers j hji] at hj ⊢
    exact (h.holds j hj).congr fun a ha => hframe a (.inr ⟨j, hji, hj, ha⟩)
  · have hchange := sum_change
      (g := fun j => (s'.workers j).linked heap) fun j hj => by rw [hothers j hj]
    have hnew : (s'.workers i).linked heap = heap.live (s.workers i).taken := by
      rw [hself]
      exact if_pos rfl
    rw [linked_of_ne hne, add_zero, ← h.linked, hnew] at hchange
    rw [hchange, ← Multiset.coe_add, add_comm]
  · by_cases hji : j = i
    · rw [hji, hself] at ha
      refine hfree _ (mem_append_right _ ?_)
      rw [hold.freeRegions]
      unfold SweepWorker.returned at ha
      rw [if_pos ⟨rfl, hlive⟩] at ha
      exact mem_map_of_mem ha
    · rw [hothers j hji] at ha
      exact (h.free j a ha).trans fun r hr => hfree r (mem_append_left _ hr)
  · have hsum := h.sum_returned hne hlive hworkers
    have hcommit := h.committed
    omega

/-- **The end of a worker** that has a chain. -/
theorem SweepInv.handOver {head : ℕ} (hnodup : items.Nodup)
    (hcommitted : heap.total items ≤ heap.space.committedSize) (hpc : (s.workers i).pc = .finish)
    (hhead : (s.workers i).head = some head) :
    ∃ space nodes, s.space.appendChain s.nodes head ((s.workers i).tail.getD 0)
        (s.workers i).freed (s.workers i).freeRegions = some (space, nodes) ∧
      ∃ kept', SweepInv heap items { s with
        space, nodes, workers := update s.workers i { s.workers i with pc := .done } }
        rest kept' := by
  have hne : (s.workers i).pc ≠ .done := by simp [hpc]
  have hold := h.holds i hne
  obtain ⟨hitems, howner⟩ := h.owner hnodup i
  have hxs : (heap.live (s.workers i).taken).head? = some head := by rw [← hold.head, hhead]
  have hlive : heap.live (s.workers i).taken ≠ [] := by
    intro hnil
    simp [hnil] at hxs
  obtain ⟨tail, htail⟩ : ∃ tail, (heap.live (s.workers i).taken).getLast? = some tail :=
    ⟨_, getLast?_eq_some_getLast hlive⟩
  -- the chain of the worker and the list have no item in common
  have hnodup' : (heap.live (s.workers i).taken ++ kept).Nodup := by
    refine nodup_append.mpr ⟨?_, h.kept_nodup hnodup, ?_⟩
    · refine List.Nodup.filter _ ?_
      exact (Multiset.coe_nodup.mp hitems).sublist (sublist_append_left ..)
    · rintro a ha b hb rfl
      obtain ⟨j, hdone, haj⟩ := h.mem_kept hb
      have hji : j ≠ i := by
        rintro rfl
        exact hne hdone
      exact (howner a (mem_items_of_live ha)).2 j hji
        (mem_items_of_live haj)
  -- what all workers return was committed
  have hfreed : (s.workers i).freed ≤ s.space.committedSize := by
    obtain ⟨workers, hworkers⟩ : ∃ workers : ι → SweepWorker,
      workers = update s.workers i { s.workers i with pc := .done } := ⟨_, rfl⟩
    have hpart : ∀ j, ((workers j).returned heap).Sublist (s.workers j).taken := by
      intro j
      have htaken : (workers j).taken = (s.workers j).taken := by
        by_cases hj : j = i
        · rw [hj, hworkers, update_self]
        · rw [hworkers, update_of_ne hj]
      exact htaken ▸ (workers j).returned_sublist
    have hsum := h.sum_returned hne hlive hworkers
    have hle := h.total_le hpart
    have hcommit := h.committed
    omega
  have hregions : ∀ r ∈ s.space.elements ++ (s.workers i).freeRegions, r.start ≤ r.stop := by
    intro r hr
    rcases mem_append.mp hr with hr | hr
    · exact h.elements r hr
    · rw [hold.freeRegions] at hr
      obtain ⟨a, -, rfl⟩ := mem_map.mp hr
      exact Nat.le_add_right ..
  obtain ⟨space, nodes, happend, hhead', hlist, hnodes, hcommit, hfree, helements⟩ :=
    LargeSpace.appendChain_spec hxs htail hold.chain h.list h.head hnodup' hfreed hregions
  refine ⟨space, nodes, ?_, _, h.append hnodup hpc hlive rfl rfl rfl hhead' hlist hnodes hcommit
    hfree helements⟩
  rw [hold.tail, htail]
  exact happend

/-- **A step of a worker** keeps the invariant. -/
theorem SweepInv.step (hnodup : items.Nodup)
    (hcommitted : heap.total items ≤ heap.space.committedSize) (i : ι) :
    (sweepStep heap.size s i).Keeps fun s => ∃ rest kept, SweepInv heap items s rest kept := by
  cases hpc : (s.workers i).pc with
  | first =>
    have hloop : SweepPc.loop s.next.1 ≠ .done := by cases s.next.1 <;> simp
    have hlast : (SweepPc.loop s.next.1).Last → s.next.1 = none := by
      cases s.next.1 <;> simp
    obtain ⟨rest', h'⟩ := h.next hnodup (i := i) (by simp [hpc]) hloop hlast
      (by rw [hpc, SweepPc.inHand_loop]; rfl)
    simp only [sweepStep, hpc]
    exact ⟨rest', kept, h'⟩
  | advance a =>
    have hprocess : SweepPc.process a s.next.1 ≠ .done := by simp
    have hlast : (SweepPc.process a s.next.1).Last → s.next.1 = none := by
      cases s.next.1 <;> simp
    obtain ⟨rest', h'⟩ := h.next hnodup (i := i) (by simp [hpc]) hprocess hlast (by rw [hpc]; rfl)
    simp only [sweepStep, hpc]
    exact ⟨rest', kept, h'⟩
  | process a addr =>
    by_cases hmarked : s.marked a = true
    · simp only [sweepStep, hpc, hmarked]
      exact ⟨rest, kept, h.link hnodup rfl hpc hmarked⟩
    · simp only [sweepStep, hpc, hmarked]
      exact ⟨rest, kept, h.release hnodup rfl hpc (by simpa using hmarked)⟩
  | finish =>
    cases hhead : (s.workers i).head with
    | none =>
      have h' := h.drop hnodup hpc hhead
      simp only [sweepStep, hpc, hhead] at h' ⊢
      exact ⟨rest, kept, h'⟩
    | some head =>
      obtain ⟨space, nodes, happend, kept', h'⟩ := h.handOver hnodup hcommitted hpc hhead
      simp only [sweepStep, hpc, hhead, happend] at h' ⊢
      exact ⟨rest, kept', h'⟩
  | done =>
    simp only [sweepStep, hpc]
    trivial

end

omit [DecidableEq ι] in
theorem sweepInv_start [DecidableEq ι] (hheap : heap.WellFormed items) :
    SweepInv heap items (sweepSystem ι heap).start items [] := by
  refine ⟨hheap.head, ⟨none, hheap.linked⟩, fun _ hlast => hlast.elim, ?_, fun _ _ => rfl,
    fun _ _ => ?_, rfl, trivial, ?_, fun j a ha => ?_, hheap.elements, ?_⟩
  · simp
  · exact ⟨rfl, rfl, trivial, rfl, rfl⟩
  · simp [SweepWorker.linked]
  · simp at ha
  · simp [LargeHeap.total]

theorem sweepInv_of_reachable (hheap : heap.WellFormed items)
    (h : (sweepSystem ι heap).Reachable s) : ∃ rest kept, SweepInv heap items s rest kept := by
  refine h.invariant (I := fun s => ∃ rest kept, SweepInv heap items s rest kept)
    ⟨items, [], sweepInv_start hheap⟩ ?_
  rintro s i ⟨rest, kept, h⟩
  exact h.step hheap.nodup hheap.committed i

omit [DecidableEq ι] in
/-- **The end**: the items are those that the workers have taken. -/
theorem SweepInv.split_of_done [Nonempty ι] (h : SweepInv heap items s rest kept)
    (hdone : ∀ i, (s.workers i).pc = .done) :
    (items : Multiset ℕ) = ∑ i, ((s.workers i).taken : Multiset ℕ) := by
  have i := Classical.arbitrary ι
  rw [h.split, h.exhausted i (by rw [hdone i]; trivial)]
  simp [hdone]

omit [DecidableEq ι] in
theorem SweepInv.filter_of_done [Nonempty ι] (h : SweepInv heap items s rest kept)
    (hdone : ∀ i, (s.workers i).pc = .done) (p : ℕ → Bool) :
    ((items.filter p : List ℕ) : Multiset ℕ) =
      ∑ i, (((s.workers i).taken.filter p : List ℕ) : Multiset ℕ) := by
  let filterHom : Multiset ℕ →+ Multiset ℕ :=
    { toFun := Multiset.filter (p · = true)
      map_zero' := Multiset.filter_zero _
      map_add' := Multiset.filter_add _ }
  have hcoe (l : List ℕ) : filterHom l = (l.filter p) := by
    change Multiset.filter (p · = true) l = _
    simp
  simpa only [map_sum, hcoe] using congrArg filterHom (h.split_of_done hdone)

end Invariant

/-- **Conservation of the large space**: when all workers are done, the space is conserved if and
only if each worker that took a dead object took a marked one, too. -/
theorem large_space_conserved_iff [Fintype ι] [Nonempty ι] {heap : LargeHeap} {items : List ℕ}
    {s : SweepState ι} (hheap : heap.WellFormed items) (h : (sweepSystem ι heap).Reachable s)
    (hdone : ∀ i, (s.workers i).pc = .done) :
    Conserved heap items s ↔ ∀ i, (∃ a ∈ (s.workers i).taken, heap.marked a = false) →
      ∃ a ∈ (s.workers i).taken, heap.marked a = true := by
  obtain ⟨rest, kept, hinv⟩ := sweepInv_of_reachable hheap h
  have hlist : kept.Perm (heap.live items) := by
    rw [← Multiset.coe_eq_coe, hinv.linked]
    refine Eq.trans ?_ (hinv.filter_of_done hdone (heap.marked ·)).symm
    exact sum_congr rfl fun i _ => if_pos (hdone i)
  have hdead := hinv.filter_of_done hdone (!heap.marked ·)
  have htotal : heap.total (heap.dead items) = ∑ i, heap.total (heap.dead (s.workers i).taken) := by
    simp only [LargeHeap.total_eq, ← map_sum]
    exact congrArg heap.weight hdead
  have hreturned : ∀ i, (s.workers i).returned heap =
      if heap.live (s.workers i).taken ≠ [] then heap.dead (s.workers i).taken else [] := by
    intro i
    simp [hdone i]
  have hcommitted := hinv.committed
  constructor
  · intro hconserved i hdeadi
    by_contra hno
    push Not at hno
    -- this worker has returned nothing
    have hnil : heap.live (s.workers i).taken = [] := filter_eq_nil_iff.mpr fun a ha => hno a ha
    obtain ⟨a, ha, hamark⟩ := hdeadi
    have haitems : a ∈ items := by
      rw [← Multiset.mem_coe, hinv.split_of_done hdone, Multiset.mem_sum]
      exact ⟨i, mem_univ i, ha⟩
    have hpos : 0 < heap.total (heap.dead (s.workers i).taken) := by
      have hmem : a ∈ heap.dead (s.workers i).taken := mem_filter.mpr ⟨ha, by simp [hamark]⟩
      exact (hheap.size_pos a haitems).trans_le
        (single_le_sum (fun _ _ => Nat.zero_le _) _ (mem_map_of_mem hmem))
    have hlt : ∑ j, heap.total ((s.workers j).returned heap) <
        ∑ j, heap.total (heap.dead (s.workers j).taken) := by
      refine sum_lt_sum (fun j _ => ?_) ⟨i, mem_univ i, ?_⟩
      · rw [hreturned j]
        split
        · exact le_rfl
        · exact Nat.zero_le _
      · rw [hreturned i, if_neg (not_not.mpr hnil)]
        exact hpos
    have hdecrease := hconserved.committed
    omega
  · intro hall
    have heq : ∀ i, (s.workers i).returned heap = heap.dead (s.workers i).taken := by
      intro i
      rw [hreturned i]
      split
      · rfl
      next hnil =>
        symm
        refine filter_eq_nil_iff.mpr fun a ha hamark => ?_
        obtain ⟨b, hb, hbmark⟩ := hall i ⟨a, ha, by simpa using hamark⟩
        exact hnil (ne_nil_of_mem (mem_filter.mpr ⟨hb, hbmark⟩))
    refine ⟨⟨kept, hinv.head, hinv.list, hlist⟩, fun a ha => ?_, ?_⟩
    · rw [← Multiset.mem_coe] at ha
      obtain ⟨i, -, hi⟩ := Multiset.mem_sum.mp (hdead ▸ ha)
      exact hinv.free i a (heq i ▸ hi)
    · rw [htotal, ← hcommitted]
      congr 1
      exact sum_congr rfl fun i _ => by rw [heq i]

/-- Two allocations of a page each, the first of which is marked if `marked` says so. -/
@[simp]
def sampleLargeHeap (marked : Bool) : LargeHeap where
  space := ⟨[⟨12288, 65536⟩], some 4096, 8192⟩
  nodes a := if a = 4096 then ⟨none, some 8192⟩ else ⟨some 4096, none⟩
  marked a := marked && decide (a = 4096)
  size _ := 4096

theorem sampleLargeHeap_wellFormed (marked : Bool) :
    (sampleLargeHeap marked).WellFormed [4096, 8192] :=
  ⟨rfl, ⟨rfl, rfl, trivial⟩, by decide, fun _ _ => by simp, by simp, by simp⟩

/-- One worker takes a marked and a dead allocation. -/
theorem large_space_conserved_iff_sample :
    ∃ s : SweepState (Fin 1), (sweepSystem (Fin 1) (sampleLargeHeap true)).Reachable s ∧
      (s.workers 0).taken = [4096, 8192] ∧
      Conserved (sampleLargeHeap true) [4096, 8192] s := by
  have hrun : ((sweepSystem (Fin 1) (sampleLargeHeap true)).run
      (sweepSystem (Fin 1) (sampleLargeHeap true)).start (List.replicate 6 0)).map
      (fun s => ((s.workers 0).taken, (s.workers 0).pc)) = some ([4096, 8192], .done) := by
    decide +kernel
  obtain ⟨s, hs, heq⟩ := Option.map_eq_some_iff.mp hrun
  obtain ⟨htaken, hpc⟩ := Prod.mk.inj heq
  have hreach := System.Reachable.start.run hs
  refine ⟨s, hreach, htaken, ?_⟩
  refine (large_space_conserved_iff (sampleLargeHeap_wellFormed true) hreach ?_).mpr ?_
  · intro i
    rw [Subsingleton.elim i 0, hpc]
  · intro i _
    rw [Subsingleton.elim i 0, htaken]
    exact ⟨4096, by simp, rfl⟩

/-- **Dead objects are lost**: no memory is returned if all objects of the worker are dead. -/
theorem not_conserved_dead :
    ∃ s : SweepState (Fin 1), (sweepSystem (Fin 1) (sampleLargeHeap false)).Reachable s ∧
      (∀ i, (s.workers i).pc = .done) ∧ s.space = ⟨[⟨12288, 65536⟩], none, 8192⟩ ∧
      ¬Conserved (sampleLargeHeap false) [4096, 8192] s := by
  have hrun : ((sweepSystem (Fin 1) (sampleLargeHeap false)).run
      (sweepSystem (Fin 1) (sampleLargeHeap false)).start (List.replicate 6 0)).map
      (fun s => (s.space, (s.workers 0).pc)) =
      some (⟨[⟨12288, 65536⟩], none, 8192⟩, .done) := by
    decide +kernel
  obtain ⟨s, hs, heq⟩ := Option.map_eq_some_iff.mp hrun
  obtain ⟨hspace, hpc⟩ := Prod.mk.inj heq
  refine ⟨s, System.Reachable.start.run hs, fun i => ?_, hspace, fun hconserved => ?_⟩
  · rw [Subsingleton.elim i 0, hpc]
  · have hcommitted := hconserved.committed
    rw [hspace] at hcommitted
    exact absurd hcommitted (by decide)

end Dora.Gc
