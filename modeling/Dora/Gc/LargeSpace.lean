import Dora.Gc.Object
import Dora.Lib.LinkedList

/-!
# The space of large objects

In `LargeSpace` of `dora/src/gc/swiper/large.rs` the allocations form a doubly linked list, and the
memory between them is a list of free regions. The address of an allocation stands for its record.

## Main results

* `LargeSpace.merge_spec`: merging loses no region
* `LargeSpace.appendChain_spec`: `append_chain` puts a chain before the list
-/

namespace Dora.Gc

open List

/-- `LargeSpaceProtected`. -/
structure LargeSpace where
  elements : List Region
  head : Option ℕ
  committedSize : ℕ
deriving DecidableEq

namespace LargeSpace

/-- The loop of `merge`: `last` is the last region that is kept. -/
def mergeLoop (last : Region) : List Region → List Region
  | [] => [last]
  | r :: rs =>
    if last.stop = r.start then mergeLoop ⟨last.start, r.stop⟩ rs else last :: mergeLoop r rs

def merge (elements : List Region) : List Region :=
  match elements.mergeSort (fun lhs rhs => decide (lhs.start ≤ rhs.start)) with
  | [] => []
  | r :: rs => mergeLoop r rs

/-- `append_chain`. It fails if more was freed than was committed. -/
def appendChain (space : LargeSpace) (nodes : Nodes ℕ) (head tail freed : ℕ)
    (freeRegions : List Region) : Option (LargeSpace × Nodes ℕ) :=
  let nodes := space.head.elim nodes fun oldHead =>
    (nodes.setPrev oldHead (some tail)).setNext tail (some oldHead)
  if freed ≤ space.committedSize then
    some (⟨merge (space.elements ++ freeRegions), some head, space.committedSize - freed⟩, nodes)
  else none

/-! ## Free regions -/

/-- The region lies in one of the free ones. -/
def Free (elements : List Region) (r : Region) : Prop :=
  ∃ r' ∈ elements, r'.start ≤ r.start ∧ r.stop ≤ r'.stop

/-- Merging loses no free region. -/
theorem mergeLoop_spec {last : Region} {rs : List Region} (hlast : last.start ≤ last.stop)
    (hrs : ∀ r ∈ rs, r.start ≤ r.stop) :
    (∀ r ∈ last :: rs, Free (mergeLoop last rs) r) ∧ ∀ r ∈ mergeLoop last rs, r.start ≤ r.stop := by
  induction rs generalizing last with
  | nil =>
    refine ⟨fun r hr => ⟨r, hr, le_rfl, le_rfl⟩, fun r hr => ?_⟩
    rw [mem_singleton.mp hr]
    exact hlast
  | cons next rs ih =>
    have hnext := hrs next mem_cons_self
    have hrs' : ∀ r ∈ rs, r.start ≤ r.stop := fun r hr => hrs r (mem_cons_of_mem _ hr)
    unfold mergeLoop
    by_cases hadjacent : last.stop = next.start
    · rw [if_pos hadjacent]
      have hmerged : last.start ≤ next.stop := by omega
      obtain ⟨hfree, hvalid⟩ := @ih ⟨last.start, next.stop⟩ hmerged hrs'
      refine ⟨fun r hr => ?_, hvalid⟩
      -- both regions lie in the merged one
      obtain ⟨r', hr', hstart, hstop⟩ := hfree ⟨last.start, next.stop⟩ mem_cons_self
      rcases mem_cons.mp hr with rfl | hr
      · exact ⟨r', hr', hstart, by simp only at hstop; omega⟩
      · rcases mem_cons.mp hr with rfl | hr
        · exact ⟨r', hr', by simp only at hstart; omega, hstop⟩
        · exact hfree r (mem_cons_of_mem _ hr)
    · rw [if_neg hadjacent]
      obtain ⟨hfree, hvalid⟩ := ih hnext hrs'
      refine ⟨fun r hr => ?_, fun r hr => ?_⟩
      · rcases mem_cons.mp hr with rfl | hr
        · exact ⟨r, mem_cons_self, le_rfl, le_rfl⟩
        · obtain ⟨r', hr', hin⟩ := hfree r hr
          exact ⟨r', mem_cons_of_mem _ hr', hin⟩
      · rcases mem_cons.mp hr with rfl | hr
        · exact hlast
        · exact hvalid r hr

/-- **Merging** loses no region. -/
theorem merge_spec {elements : List Region} (h : ∀ r ∈ elements, r.start ≤ r.stop) :
    (∀ r ∈ elements, Free (merge elements) r) ∧ ∀ r ∈ merge elements, r.start ≤ r.stop := by
  have hmem : ∀ r, r ∈ elements.mergeSort (fun lhs rhs => decide (lhs.start ≤ rhs.start)) ↔
      r ∈ elements := fun r => (mergeSort_perm ..).mem_iff
  unfold merge
  cases hsort : elements.mergeSort (fun lhs rhs => decide (lhs.start ≤ rhs.start)) with
  | nil =>
    have hnil : ∀ r, r ∉ elements := fun r hr => by simpa [hsort] using (hmem r).mpr hr
    exact ⟨fun r hr => absurd hr (hnil r), by simp⟩
  | cons last rs =>
    rw [hsort] at hmem
    have hloop := mergeLoop_spec (h last ((hmem last).mp mem_cons_self))
      fun r hr => h r ((hmem r).mp (mem_cons_of_mem _ hr))
    exact ⟨fun r hr => hloop.1 r ((hmem r).mpr hr), hloop.2⟩

theorem Free.trans {elements elements' : List Region} {r : Region} (h : Free elements r)
    (hall : ∀ r ∈ elements, Free elements' r) : Free elements' r := by
  obtain ⟨r', hr', hstart, hstop⟩ := h
  obtain ⟨r'', hr'', hstart', hstop'⟩ := hall r' hr'
  exact ⟨r'', hr'', hstart'.trans hstart, hstop.trans hstop'⟩

/-- **`append_chain`** puts the chain before the list, and the regions are free. -/
theorem appendChain_spec {space : LargeSpace} {nodes : Nodes ℕ} {xs ys : List ℕ}
    {head tail freed : ℕ} {freeRegions : List Region}
    (hhead : xs.head? = some head) (htail : xs.getLast? = some tail)
    (hxs : Segment nodes none xs none) (hys : Segment nodes none ys none)
    (hspace : space.head = ys.head?) (hnodup : (xs ++ ys).Nodup)
    (hfreed : freed ≤ space.committedSize)
    (hregions : ∀ r ∈ space.elements ++ freeRegions, r.start ≤ r.stop) :
    ∃ space' nodes', space.appendChain nodes head tail freed freeRegions = some (space', nodes') ∧
      space'.head = (xs ++ ys).head? ∧ Segment nodes' none (xs ++ ys) none ∧
      (∀ a, a ∉ xs ++ ys → nodes' a = nodes a) ∧
      space'.committedSize + freed = space.committedSize ∧
      (∀ r ∈ space.elements ++ freeRegions, Free space'.elements r) ∧
      ∀ r ∈ space'.elements, r.start ≤ r.stop := by
  obtain ⟨hfree, hvalid⟩ := merge_spec hregions
  obtain ⟨xs, rfl⟩ := getLast?_eq_some_iff.mp htail
  refine ⟨_, _, if_pos hfreed, ?_, ?_, ?_, Nat.sub_add_cancel hfreed, hfree, hvalid⟩
  · rw [head?_append, hhead]
    rfl
  · rw [hspace]
    exact hxs.splice hys hnodup
  · intro a ha
    rw [hspace]
    cases ys with
    | nil => rfl
    | cons y ys =>
      rw [head?_cons, Option.elim_some, Nodes.setNext_of_ne, Nodes.setPrev_of_ne]
      · rintro rfl
        exact ha (by simp)
      · rintro rfl
        exact ha (by simp)

end LargeSpace

end Dora.Gc
