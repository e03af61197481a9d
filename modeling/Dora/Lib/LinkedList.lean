import Mathlib.Data.List.Basic

/-!
# Doubly linked lists

## Main definitions

* `Segment`: nodes that lead to each other, whose ends may lead to other nodes

## Main results

* `segment_append`, `Segment.push`, `Segment.splice`: appending segments and nodes
-/

/-- The nodes before and after a node. -/
structure Node (α : Type) where
  prev : Option α
  next : Option α
deriving DecidableEq

/-- The nodes at all addresses. -/
abbrev Nodes (α : Type) := α → Node α

variable {α : Type}

/-- The nodes lead to each other, the first one back to `before` and the last one to `after`. -/
def Segment (nodes : Nodes α) (before : Option α) : List α → Option α → Prop
  | [], _ => True
  | a :: as, after =>
    nodes a = ⟨before, as.head?.or after⟩ ∧ Segment nodes (some a) as after

section Segment

variable {nodes nodes' : Nodes α} {before after : Option α} {xs ys : List α} {a : α}

theorem segment_cons :
    Segment nodes before (a :: xs) after ↔
      nodes a = ⟨before, xs.head?.or after⟩ ∧ Segment nodes (some a) xs after := Iff.rfl

theorem Segment.congr (h : Segment nodes before xs after) (heq : ∀ a ∈ xs, nodes' a = nodes a) :
    Segment nodes' before xs after := by
  induction xs generalizing before with
  | nil => trivial
  | cons a xs ih =>
    refine ⟨(heq a List.mem_cons_self).trans h.1, ?_⟩
    exact ih h.2 fun b hb => heq b (List.mem_cons_of_mem _ hb)

/-- **Two segments** are one if their ends lead to each other. -/
theorem segment_append :
    Segment nodes before (xs ++ ys) after ↔ Segment nodes before xs (ys.head?.or after) ∧
        Segment nodes (xs.getLast?.or before) ys after := by
  induction xs generalizing before with
  | nil => simp [Segment]
  | cons a xs ih =>
    have hlast : ((a :: xs).getLast?).or before = xs.getLast?.or (some a) := by
      cases xs <;> simp [List.getLast?_cons]
    have hhead : ((xs ++ ys).head?).or after = xs.head?.or (ys.head?.or after) := by
      cases xs <;> simp
    rw [List.cons_append, hlast, segment_cons, segment_cons, ih, hhead, and_assoc]

end Segment

namespace Nodes

open Function

variable [DecidableEq α] (nodes : Nodes α) (a : α)

def setPrev (prev : Option α) : Nodes α := update nodes a { nodes a with prev }

def setNext (next : Option α) : Nodes α := update nodes a { nodes a with next }

variable {nodes a} {b : α}

theorem setPrev_of_ne {prev : Option α} (h : b ≠ a) : nodes.setPrev a prev b = nodes b :=
  update_of_ne h ..

theorem setNext_of_ne {next : Option α} (h : b ≠ a) : nodes.setNext a next b = nodes b :=
  update_of_ne h ..

end Nodes

section Writing

variable [DecidableEq α] {nodes : Nodes α} {before after : Option α} {xs ys : List α} {a : α}

theorem Segment.setPrev (h : Segment nodes before (a :: xs) after) (ha : a ∉ xs)
    (prev : Option α) : Segment (nodes.setPrev a prev) prev (a :: xs) after := by
  refine ⟨?_, h.2.congr fun b hb => Nodes.setPrev_of_ne fun he => ha (he ▸ hb)⟩
  unfold Nodes.setPrev
  rw [Function.update_self, h.1]

theorem Segment.setNext (h : Segment nodes before (xs ++ [a]) after) (ha : a ∉ xs)
    (next : Option α) : Segment (nodes.setNext a next) before (xs ++ [a]) next := by
  rw [segment_append] at h ⊢
  refine ⟨h.1.congr fun b hb => Nodes.setNext_of_ne fun he => ha (he ▸ hb), ?_, trivial⟩
  unfold Nodes.setNext
  rw [Function.update_self, h.2.1]
  rfl

/-- **Appending a node**: the last node leads to it, and it leads back. -/
theorem Segment.push (h : Segment nodes none xs none) (hnodup : (xs ++ [a]).Nodup) :
    Segment
      (Function.update (xs.getLast?.elim nodes fun tail => nodes.setNext tail (some a)) a
        ⟨xs.getLast?, none⟩) none (xs ++ [a]) none := by
  rw [List.nodup_append] at hnodup
  have hne : ∀ b ∈ xs, b ≠ a := fun b hb => hnodup.2.2 b hb a List.mem_cons_self
  rw [segment_append]
  refine ⟨Segment.congr ?_ fun b hb => Function.update_of_ne (hne b hb) .., ?_, trivial⟩
  · rcases List.eq_nil_or_concat xs with rfl | ⟨xs, tail, rfl⟩
    · trivial
    · rw [List.concat_eq_append] at h hnodup ⊢
      rw [List.getLast?_concat]
      exact h.setNext (List.nodup_append.mp hnodup.1 |>.2.2 tail · tail List.mem_cons_self rfl) _
  · rw [Function.update_self]
    simp

/-- **Appending a list**: the last node of the one and the first node of the other lead to each
other. -/
theorem Segment.splice (hxs : Segment nodes none (xs ++ [a]) none)
    (hys : Segment nodes none ys none) (hnodup : (xs ++ [a] ++ ys).Nodup) :
    Segment (ys.head?.elim nodes fun head => (nodes.setPrev head (some a)).setNext a (some head))
      none (xs ++ [a] ++ ys) none := by
  cases ys with
  | nil => simpa using hxs
  | cons b ys =>
    rw [List.nodup_append] at hnodup
    obtain ⟨hxa, hby, hdisj⟩ := hnodup
    have ha : a ∉ xs := fun hmem =>
      (List.nodup_append.mp hxa).2.2 a hmem a List.mem_cons_self rfl
    have hb : b ∉ ys := (List.nodup_cons.mp hby).1
    rw [segment_append]
    constructor
    · have hprev : Segment (nodes.setPrev b (some a)) none (xs ++ [a]) none :=
        hxs.congr fun c hc => Nodes.setPrev_of_ne (hdisj c hc b List.mem_cons_self)
      exact hprev.setNext ha (some b)
    · rw [List.getLast?_concat]
      refine (hys.setPrev hb (some a)).congr fun c hc => Nodes.setNext_of_ne ?_
      exact (hdisj a (by simp) c hc).symm

end Writing
