import Mathlib.Order.Basic

/-!
# Loops with fuel

A `while` loop whose body may fail returns `none` when its body fails or when its fuel runs out.
More fuel does not change a result.

## Main results

* `whileLoop_partial`, `whileLoop_total`: the rules of partial and total correctness
* `whileLoop_related`: two loops in lockstep
-/

variable {σ : Type}

/-- The loop `while cond { body }`. -/
def whileLoop (cond : σ → Bool) (body : σ → Option σ) : ℕ → σ → Option σ
  | 0, _ => none
  | fuel + 1, s => if cond s then (body s).bind (whileLoop cond body fuel) else some s

variable {cond : σ → Bool} {body : σ → Option σ} {fuel : ℕ} {s s' : σ}

theorem whileLoop_of_not (h : cond s = false) (fuel : ℕ) :
    whileLoop cond body (fuel + 1) s = some s := by
  simp [whileLoop, h]

theorem whileLoop_of (h : cond s = true) (hbody : body s = some s') (fuel : ℕ) :
    whileLoop cond body (fuel + 1) s = whileLoop cond body fuel s' := by
  simp [whileLoop, h, hbody]

/-- **Partial correctness**: an invariant of the body holds when the loop ends. -/
theorem whileLoop_partial {I : σ → Prop}
    (hstep : ∀ s s', I s → cond s = true → body s = some s' → I s')
    (h : whileLoop cond body fuel s = some s') (hs : I s) : I s' ∧ cond s' = false := by
  induction fuel generalizing s with
  | zero => cases h
  | succ fuel ih =>
    rw [whileLoop] at h
    split_ifs at h with hc
    · obtain ⟨s1, hs1, h⟩ := Option.bind_eq_some_iff.mp h
      exact ih h (hstep s s1 hs hc hs1)
    · cases h
      exact ⟨hs, by simpa using hc⟩

/-- **Total correctness**: with an invariant under which the body succeeds and decreases a variant,
the loop ends, and the invariant holds then. -/
theorem whileLoop_total {I : σ → Prop} (variant : σ → ℕ)
    (hstep : ∀ s, I s → cond s = true → ∃ s', body s = some s' ∧ I s' ∧ variant s' < variant s)
    (hs : I s) (hfuel : variant s < fuel) :
    ∃ s', whileLoop cond body fuel s = some s' ∧ I s' ∧ cond s' = false := by
  induction fuel generalizing s with
  | zero => omega
  | succ fuel ih =>
    cases hc : cond s with
    | false => exact ⟨s, whileLoop_of_not hc fuel, hs, hc⟩
    | true =>
      obtain ⟨s1, hbody, hs1, hlt⟩ := hstep s hs hc
      rw [whileLoop_of hc hbody]
      exact ih hs1 (by omega)

/-- **Two loops in lockstep**: a relation that both bodies keep and under which the conditions are
the same holds when both loops have ended. -/
theorem whileLoop_related {τ : Type} {cond' : τ → Bool} {body' : τ → Option τ} {R : σ → τ → Prop}
    (hcond : ∀ s t, R s t → cond s = cond' t)
    (hbody : ∀ s t s' t', R s t → body s = some s' → body' t = some t' → R s' t') {t t' : τ}
    (h : R s t) (hs : whileLoop cond body fuel s = some s')
    (ht : whileLoop cond' body' fuel t = some t') : R s' t' := by
  induction fuel generalizing s t with
  | zero => cases hs
  | succ fuel ih =>
    rw [whileLoop] at hs ht
    rw [← hcond s t h] at ht
    split_ifs at hs ht
    · obtain ⟨s1, hs1, hs⟩ := Option.bind_eq_some_iff.mp hs
      obtain ⟨t1, ht1, ht⟩ := Option.bind_eq_some_iff.mp ht
      exact ih (hbody s t s1 t1 h hs1 ht1) hs ht
    · cases hs
      cases ht
      exact h
