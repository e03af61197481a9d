import Mathlib.Data.Option.Basic

/-!
# Programs over a state that may fail

Methods of a state that may fail are programs in `StateT σ Option`. Two of them run in lockstep if,
from states that correspond, the second one returns the translation of what the first one returns,
and fails if the first one fails or if what it returns has no translation. The states correspond
through a function and as long as an invariant of the first program holds.

## Main definitions

* `Follows`: a program runs in lockstep with another one

## Main results

* `bind_eq_some`, `Except.bind_eq_ok`: a sequence returns if both of its parts do
* `Follows.bind`: sequences of programs in lockstep are in lockstep
-/

namespace Except

variable {ε α β : Type} {x : Except ε α} {f : α → Except ε β}

@[simp] theorem ok_bind (a : α) (f : α → Except ε β) : (ok a >>= f) = f a := rfl

theorem bind_eq_ok {b : β} : (x >>= f) = ok b ↔ ∃ a, x = ok a ∧ f a = ok b := by
  cases x with
  | error e => simp [bind, Except.bind]
  | ok a => simp

end Except

section Run

variable {σ α β : Type}

variable {s s' : σ} {c : Prop}

@[simp] theorem pure_apply (a : α) (s : σ) : (pure a : StateT σ Option α) s = some (a, s) := rfl

@[simp] theorem bind_apply (m : StateT σ Option α) (f : α → StateT σ Option β) (s : σ) :
    (m >>= f) s = (m s).bind fun p => f p.1 p.2 := rfl

@[simp] theorem map_apply (f : α → β) (m : StateT σ Option α) (s : σ) :
    (f <$> m) s = (m s).map fun p => (f p.1, p.2) := by
  change (m s).bind (fun p => some (f p.1, p.2)) = _
  cases m s <;> rfl

@[simp] theorem get_apply (s : σ) : (get : StateT σ Option σ) s = some (s, s) := rfl

@[simp] theorem modify_apply (f : σ → σ) (s : σ) :
    (modify f : StateT σ Option Unit) s = some ((), f s) := rfl

@[simp] theorem lift_apply (x : Option α) (s : σ) :
    (StateT.lift x : StateT σ Option α) s = x.bind fun a => some (a, s) := rfl

@[simp] theorem failure_apply (s : σ) : (failure : StateT σ Option α) s = none := rfl

@[simp] theorem ite_apply_state [Decidable c] (m m' : StateT σ Option α) (s : σ) :
    (if c then m else m') s = if c then m s else m' s := by
  split <;> rfl

theorem bind_eq_some {m : StateT σ Option α} {f : α → StateT σ Option β} {b : β} :
    (m >>= f) s = some (b, s') ↔ ∃ a s1, m s = some (a, s1) ∧ f a s1 = some (b, s') := by
  rw [bind_apply, Option.bind_eq_some_iff]
  exact ⟨fun ⟨⟨a, s1⟩, h⟩ => ⟨a, s1, h⟩, fun ⟨a, s1, h⟩ => ⟨(a, s1), h⟩⟩

theorem pure_eq_some {a b : α} :
    (pure a : StateT σ Option α) s = some (b, s') ↔ a = b ∧ s = s' := by
  rw [pure_apply]
  simp

theorem ite_eq_some [Decidable c] {m m' : StateT σ Option α} {r : α × σ} :
    (if c then m else m') s = some r ↔ c ∧ m s = some r ∨ ¬c ∧ m' s = some r := by
  by_cases hc : c <;> simp [hc]

end Run

section Lockstep

variable {σ τ α β γ δ : Type} {φ : σ → τ} {I : σ → Prop}

/-- **Lockstep**: `m'` returns the translation by `f` of what `m` returns, from the state that
corresponds to that of `m`, and `m` keeps the invariant. -/
def Follows (φ : σ → τ) (I : σ → Prop) (m' : StateT τ Option β) (m : StateT σ Option α)
    (f : α → Option β) : Prop :=
  ∀ s, I s → m' (φ s) = (m s).bind (fun p => (f p.1).map fun b => (b, φ p.2)) ∧
    ∀ p, m s = some p → I p.2

namespace Follows

variable {m' : StateT τ Option β} {m : StateT σ Option α} {f : α → Option β}

variable {a : α} {g : α → StateT σ Option γ} {k : γ → Option δ}

theorem pure {b : β} (h : f a = some b) : Follows φ I (Pure.pure b) (Pure.pure a) f := by
  intro s hs
  refine ⟨?_, ?_⟩
  · change some (b, φ s) = (some (a, s)).bind _
    simp [h]
  · intro p hp
    obtain rfl : (a, s) = p := Option.some.inj hp
    exact hs

theorem bind {t : α → β} {g' : β → StateT τ Option δ} (h : Follows φ I m' m fun a => some (t a))
    (hg : ∀ a, Follows φ I (g' (t a)) (g a) k) : Follows φ I (m' >>= g') (m >>= g) k := by
  intro s hs
  obtain ⟨hrun, hkeep⟩ := h s hs
  change (m' (φ s)).bind (fun p => g' p.1 p.2) =
      ((m s).bind fun p => g p.1 p.2).bind _ ∧ ∀ p, ((m s).bind fun p => g p.1 p.2) = some p → _
  rw [hrun]
  cases hm : m s with
  | none => simp
  | some p => exact hg p.1 p.2 (hkeep p hm)

theorem fail : Follows φ I (failure : StateT τ Option β) (failure : StateT σ Option α) f :=
  fun _ _ => ⟨rfl, fun _ hp => nomatch hp⟩

theorem fail_pure (h : f a = none) : Follows φ I failure (Pure.pure a) f := by
  intro s hs
  refine ⟨?_, ?_⟩
  · change none = (some (a, s)).bind _
    simp [h]
  · intro p hp
    obtain rfl : (a, s) = p := Option.some.inj hp
    exact hs

/-- A program that fails already, where the other one goes on to fail. -/
theorem fail_bind
    (h : Follows φ I m' m f) (hg : ∀ a, Follows φ I failure (g a) k) :
    Follows φ I failure (m >>= g) k := by
  intro s hs
  obtain ⟨-, hkeep⟩ := h s hs
  change none = ((m s).bind fun p => g p.1 p.2).bind _ ∧
    ∀ p, ((m s).bind fun p => g p.1 p.2) = some p → _
  cases hm : m s with
  | none => simp
  | some p => exact hg p.1 p.2 (hkeep p hm)

end Follows

end Lockstep
