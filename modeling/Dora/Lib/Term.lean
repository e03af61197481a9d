import Mathlib.Data.List.Basic

/-!
# First-order terms

Terms over a set of constants and a set of symbols whose arguments are lists. Variables are numbers.
-/

inductive Term (C S : Type)
  | var (i : ℕ)
  | const (c : C)
  | app (f : S) (args : List (Term C S))

namespace Term

variable {C S : Type}

/-- **Induction**: a property of all arguments is one of the term. -/
@[elab_as_elim]
theorem induction {P : Term C S → Prop} (t : Term C S) (var : ∀ i, P (.var i))
    (const : ∀ c, P (.const c)) (app : ∀ f args, (∀ t ∈ args, P t) → P (.app f args)) : P t :=
  t.rec var const (fun f args ih => app f args ih) (List.forall_mem_nil _)
    fun _ _ ht hargs => List.forall_mem_cons.mpr ⟨ht, hargs⟩

/-! ## Equality -/

section Equality

variable [DecidableEq C] [DecidableEq S]

mutual
protected def beq : Term C S → Term C S → Bool
  | .var i, .var j => i == j
  | .const c, .const d => c == d
  | .app f args, .app g args' => f == g && beqList args args'
  | _, _ => false
def beqList : List (Term C S) → List (Term C S) → Bool
  | [], [] => true
  | t :: ts, t' :: ts' => Term.beq t t' && beqList ts ts'
  | _, _ => false
end

theorem beqList_iff {args args' : List (Term C S)}
    (h : ∀ t ∈ args, ∀ t', Term.beq t t' = true ↔ t = t') :
    beqList args args' = true ↔ args = args' := by
  induction args generalizing args' with
  | nil => cases args' <;> simp [beqList]
  | cons t ts ih =>
    cases args' with
    | nil => simp [beqList]
    | cons t' ts' =>
      obtain ⟨ht, hts⟩ := List.forall_mem_cons.mp h
      rw [beqList, Bool.and_eq_true, ht, ih hts, List.cons.injEq]

theorem beq_iff (t t' : Term C S) : Term.beq t t' = true ↔ t = t' := by
  induction t using induction generalizing t' with
  | var i | const c => cases t' <;> simp [Term.beq]
  | app f args ih =>
    cases t' with
    | var i | const c => simp [Term.beq]
    | app g args' => rw [Term.beq, Bool.and_eq_true, beq_iff_eq, beqList_iff ih, Term.app.injEq]

instance : DecidableEq (Term C S) := fun t t' => decidable_of_iff _ (beq_iff t t')

end Equality

/-! ## Substitution -/

mutual
/-- The variables are replaced by terms. -/
def subst (σ : ℕ → Term C S) : Term C S → Term C S
  | .var i => σ i
  | .const c => .const c
  | .app f args => .app f (substList σ args)
def substList (σ : ℕ → Term C S) : List (Term C S) → List (Term C S)
  | [] => []
  | t :: ts => subst σ t :: substList σ ts
end

mutual
/-- The variables of a term from left to right. -/
def vars : Term C S → List ℕ
  | .var i => [i]
  | .const _ => []
  | .app _ args => varsList args
def varsList : List (Term C S) → List ℕ
  | [] => []
  | t :: ts => vars t ++ varsList ts
end

variable {σ τ : ℕ → Term C S} {f : S} {args : List (Term C S)} {i : ℕ} {t : Term C S}

@[simp] theorem subst_var : subst σ (.var i) = σ i := rfl

@[simp] theorem subst_const {c : C} : subst σ (.const c) = .const c := rfl

theorem substList_eq_map (args : List (Term C S)) : substList σ args = args.map (subst σ) := by
  induction args with
  | nil => rfl
  | cons t ts ih => rw [substList, ih, List.map_cons]

@[simp] theorem subst_app : subst σ (.app f args) = .app f (args.map (subst σ)) :=
  congrArg (Term.app f) (substList_eq_map args)

@[simp] theorem vars_var : vars (.var i : Term C S) = [i] := rfl

@[simp] theorem vars_const {c : C} : vars (.const c : Term C S) = [] := rfl

@[simp] theorem vars_app : vars (.app f args) = varsList args := rfl

theorem mem_varsList : i ∈ varsList args ↔ ∃ t ∈ args, i ∈ vars t := by
  induction args with
  | nil => simp [varsList]
  | cons t ts ih => simp [varsList, ih]

theorem count_vars_le (h : t ∈ args) (i : ℕ) : (vars t).count i ≤ (varsList args).count i := by
  induction args with
  | nil => cases h
  | cons t' ts ih =>
    rw [varsList, List.count_append]
    rcases List.mem_cons.mp h with rfl | h
    · exact Nat.le_add_right _ _
    · exact Nat.le_trans (ih h) (Nat.le_add_left _ _)

end Term
