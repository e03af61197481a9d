import Mathlib.Algebra.Order.BigOperators.Group.Finset
import Mathlib.Order.Interval.Finset.Nat

/-!
# Memory

A memory maps addresses to words. A span is a run of addresses; programs that keep their spans
apart may reason about each of them on its own.
-/

/-- The words at addresses. -/
abbrev Memory := ℕ → ℕ

/-- The spans `[a, a + n)` and `[b, b + k)` have no address in common. -/
def Apart (a n b k : ℕ) : Prop := a + n ≤ b ∨ b + k ≤ a

instance (a n b k : ℕ) : Decidable (Apart a n b k) := inferInstanceAs (Decidable (_ ∨ _))

theorem Apart.symm {a n b k : ℕ} (h : Apart a n b k) : Apart b k a n := Or.symm h

theorem apart_of_forall {a n b k : ℕ} (hn : 0 < n) (hk : 0 < k)
    (h : ∀ l < n, a + l < b ∨ b + k ≤ a + l) : Apart a n b k := by
  unfold Apart
  by_contra hnot
  rcases le_or_gt b a with hle | hlt
  · have := h 0 hn
    omega
  · have := h (b - a) (by omega)
    omega

theorem Apart.ne {a n b k i j : ℕ} (h : Apart a n b k) (hi : i < n) (hj : j < k) :
    a + i ≠ b + j := by
  unfold Apart at h
  omega

theorem Apart.mono {a n b k a' n' : ℕ} (h : Apart a n b k) (ha : a ≤ a')
    (hn : a' + n' ≤ a + n) : Apart a' n' b k := by
  unfold Apart at h ⊢
  omega

namespace Memory

variable {m : Memory} {src dest size a k : ℕ}

/-- Move a block: afterwards the destination holds what the source has held, also when the two
overlap. -/
def move (m : Memory) (src dest size : ℕ) : Memory := fun a =>
  if dest ≤ a ∧ a < dest + size then m (src + (a - dest)) else m a

theorem move_dest (hk : k < size) : m.move src dest size (dest + k) = m (src + k) := by
  rw [move, if_pos ⟨by omega, by omega⟩, Nat.add_sub_cancel_left]

theorem move_outside (h : a < dest ∨ dest + size ≤ a) : m.move src dest size a = m a := by
  rw [move, if_neg (by omega)]

theorem move_apart {b n : ℕ} (h : Apart b n dest size) (hk : k < n) :
    m.move src dest size (b + k) = m (b + k) := by
  unfold Apart at h
  exact move_outside (by omega)

end Memory

/-- **Spans that are apart** fit into a span only as far as it is long. -/
theorem sum_size_le {objects : Finset ℕ} {size : ℕ → ℕ} {lo hi : ℕ}
    (hin : ∀ o ∈ objects, lo ≤ o ∧ o + size o ≤ hi)
    (happart : ∀ o ∈ objects, ∀ o' ∈ objects, o ≠ o' → Apart o (size o) o' (size o')) :
    ∑ o ∈ objects, size o ≤ hi - lo := by
  have hdisjoint : (objects : Set ℕ).PairwiseDisjoint fun o => Finset.Ico o (o + size o) := by
    intro o ho o' ho' hne
    refine Finset.disjoint_left.mpr fun a ha ha' => ?_
    rw [Finset.mem_Ico] at ha ha'
    have h := happart o ho o' ho' hne
    unfold Apart at h
    omega
  calc ∑ o ∈ objects, size o = ∑ o ∈ objects, (Finset.Ico o (o + size o)).card := by simp
    _ = (objects.biUnion fun o => Finset.Ico o (o + size o)).card :=
        (Finset.card_biUnion hdisjoint).symm
    _ ≤ (Finset.Ico lo hi).card := by
        refine Finset.card_le_card fun a ha => ?_
        obtain ⟨o, ho, ha⟩ := Finset.mem_biUnion.mp ha
        rw [Finset.mem_Ico] at ha ⊢
        have := hin o ho
        omega
    _ = hi - lo := by simp
