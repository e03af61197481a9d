import Mathlib.Data.Nat.Notation

/-!
# Outcomes of a run

## Main definitions

* `Fueled`: within some rounds a program returns a value, traps, or is still running
* `Fueled.Ends`: it returns a value once it has enough rounds

## Main results

* `Fueled.Ends.bind`, `Fueled.Ends.foldlM`: sequences and loops
-/

inductive Fueled (α : Type)
  | running
  | trap
  | returns (a : α)
deriving DecidableEq

namespace Fueled

variable {α β : Type} (f : α → Fueled β) (a : α)

/-- An access that traps when it finds nothing. -/
def ofOption : Option α → Fueled α
  | some a => returns a
  | none => trap

/-- `assert`. -/
def assert (b : Bool) : Fueled Unit := if b then returns () else trap

protected def bind (x : Fueled α) (f : α → Fueled β) : Fueled β :=
  match x with
  | running => running
  | trap => trap
  | returns a => f a

instance : Monad Fueled where
  pure := returns
  bind := Fueled.bind

instance : LawfulMonad Fueled :=
  .mk' Fueled (fun x => by cases x <;> rfl) (fun _ _ => rfl) (fun x _ _ => by cases x <;> rfl)

@[simp] theorem pure_eq : (pure a : Fueled α) = returns a := rfl

@[simp] theorem returns_bind (f : α → Fueled β) : (returns a >>= f) = f a := rfl

@[simp] theorem trap_bind : (trap >>= f) = trap := rfl

@[simp] theorem running_bind : (running >>= f) = running := rfl

@[simp] theorem ofOption_some : ofOption (some a) = returns a := rfl

@[simp] theorem ofOption_none : (ofOption none : Fueled α) = trap := rfl

@[simp] theorem assert_true : assert true = returns () := rfl

@[simp] theorem assert_false : assert false = trap := rfl

theorem bind_eq_returns {x : Fueled α} {f : α → Fueled β} {b : β} :
    (x >>= f) = returns b ↔ ∃ a, x = returns a ∧ f a = returns b := by
  cases x with
  | returns a => exact ⟨fun h => ⟨a, rfl, h⟩, fun ⟨_, ha, h⟩ => Fueled.returns.inj ha ▸ h⟩
  | running | trap => exact ⟨fun h => (nomatch h), fun ⟨_, h, _⟩ => (nomatch h)⟩

theorem ofOption_eq_returns {x : Option α} {a : α} : ofOption x = returns a ↔ x = some a := by
  cases x with
  | none | some b => simp

theorem assert_eq_returns {b : Bool} {u : Unit} : assert b = returns u ↔ b = true := by
  cases b with
  | true => exact ⟨fun _ => rfl, fun _ => rfl⟩
  | false => exact ⟨fun h => (nomatch h), fun h => (nomatch h)⟩

theorem exists_of_check {x : Fueled α} {p : α → Bool}
    (h : (x >>= fun a => assert (p a)) = returns ()) : ∃ a, x = returns a ∧ p a = true := by
  obtain ⟨a, ha, hp⟩ := bind_eq_returns.mp h
  exact ⟨a, ha, assert_eq_returns.mp hp⟩

/-! ## Programs that end -/

/-- The program returns the value once it has enough rounds, and runs until then. -/
def Ends (x : ℕ → Fueled α) (a : α) : Prop :=
  ∃ n, (∀ fuel < n, x fuel = running) ∧ ∀ fuel ≥ n, x fuel = returns a

namespace Ends

variable {x : ℕ → Fueled α} {a : α}

theorem of_eq (h : ∀ fuel, x fuel = returns a) : Ends x a :=
  ⟨0, fun _ hlt => absurd hlt (Nat.not_lt_zero _), fun fuel _ => h fuel⟩

theorem eq_of_returns (h : Ends x a) {fuel : ℕ} {b : α} (hb : x fuel = returns b) : b = a := by
  obtain ⟨n, hlt, hge⟩ := h
  rcases Nat.lt_or_ge fuel n with hfuel | hfuel
  · rw [hlt fuel hfuel] at hb
    cases hb
  · rw [hge fuel hfuel] at hb
    exact (Fueled.returns.inj hb).symm

theorem exists_returns (h : Ends x a) : ∃ fuel, x fuel = returns a := by
  obtain ⟨n, -, hge⟩ := h
  exact ⟨n, hge n (Nat.le_refl _)⟩

theorem bind {f : ℕ → α → Fueled β} {b : β} (h : Ends x a) (hf : Ends (fun n => f n a) b) :
    Ends (fun fuel => x fuel >>= f fuel) b := by
  obtain ⟨n, hlt, hge⟩ := h
  obtain ⟨n', hlt', hge'⟩ := hf
  refine ⟨max n n', fun fuel hfuel => ?_, fun fuel hfuel => ?_⟩
  · rcases Nat.lt_or_ge fuel n with h | h
    · change x fuel >>= f fuel = running
      rw [hlt fuel h, running_bind]
    · change x fuel >>= f fuel = running
      rw [hge fuel h, returns_bind]
      exact hlt' fuel (by omega)
  · change x fuel >>= f fuel = returns b
    rw [hge fuel (by omega), returns_bind]
    exact hge' fuel (by omega)

theorem map (g : α → β) (h : Ends x a) : Ends (fun fuel => x fuel >>= fun a => pure (g a)) (g a) :=
  h.bind (of_eq fun _ => rfl)

theorem succ {y : ℕ → Fueled α} (h : Ends x a) (hzero : y 0 = running)
    (hsucc : ∀ fuel, y (fuel + 1) = x fuel) : Ends y a := by
  obtain ⟨n, hlt, hge⟩ := h
  refine ⟨n + 1, fun fuel hfuel => ?_, fun fuel hfuel => ?_⟩
  · cases fuel with
    | zero => exact hzero
    | succ fuel => exact (hsucc fuel).trans (hlt fuel (by omega))
  · obtain ⟨fuel, rfl⟩ : ∃ k, fuel = k + 1 := ⟨fuel - 1, by omega⟩
    exact (hsucc fuel).trans (hge fuel (by omega))

/-- **A loop over the first numbers**, with an invariant under which every round ends. -/
theorem foldlM {σ : Type} {step : ℕ → σ → ℕ → Fueled σ} (I : ℕ → σ → Prop) {n : ℕ} {s : σ}
    (hstep : ∀ k < n, ∀ s, I k s → ∃ s', Ends (fun fuel => step fuel s k) s' ∧ I (k + 1) s')
    (hs : I 0 s) : ∃ s', Ends (fun fuel => (List.range n).foldlM (step fuel) s) s' ∧ I n s' := by
  induction n with
  | zero => exact ⟨s, of_eq fun _ => rfl, hs⟩
  | succ n ih =>
    obtain ⟨s1, h1, hI⟩ := ih fun k hk => hstep k (by omega)
    obtain ⟨s2, h2, hI'⟩ := hstep n (by omega) s1 hI
    refine ⟨s2, ?_, hI'⟩
    have hrange : (fun fuel => (List.range (n + 1)).foldlM (step fuel) s) =
        fun fuel => (List.range n).foldlM (step fuel) s >>= fun s => step fuel s n := by
      funext fuel
      rw [List.range_succ, List.foldlM_append]
      simp only [List.foldlM_cons, List.foldlM_nil, bind_pure]
    rw [hrange]
    exact h1.bind h2

end Ends

end Fueled
