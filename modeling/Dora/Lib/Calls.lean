import Mathlib.Data.List.Basic

/-!
# Sequences of calls

An object whose calls give an answer and a new state, or fail. One object refines another one when
related states give the same answers.
-/

namespace Dora.Lib

variable {σ τ κ α : Type}

variable {exec : σ → κ → Option (α × σ)} {calls : List κ} {s : σ}

def runCalls (exec : σ → κ → Option (α × σ)) (s : σ) : List κ → Option (List α × σ)
  | [] => some ([], s)
  | call :: calls => do
    let (answer, s) ← exec s call
    let (answers, s) ← runCalls exec s calls
    some (answer :: answers, s)

/-- **Refinement**: what each call keeps, every sequence of such calls keeps. -/
theorem runCalls_refines {spec : τ → κ → Option (α × τ)} {R : σ → τ → Prop}
    (hstep : ∀ call ∈ calls, ∀ {s t answer t'}, R s t → spec t call = some (answer, t') →
      ∃ s', exec s call = some (answer, s') ∧ R s' t') {t t' : τ} {answers : List α} (hR : R s t)
    (h : runCalls spec t calls = some (answers, t')) :
    ∃ s', runCalls exec s calls = some (answers, s') ∧ R s' t' := by
  induction calls generalizing s t answers with
  | nil =>
    cases h
    exact ⟨s, rfl, hR⟩
  | cons call calls ih =>
    obtain ⟨⟨answer, t1⟩, hcall, h⟩ := Option.bind_eq_some_iff.mp h
    obtain ⟨⟨answers', t2⟩, hcalls, h⟩ := Option.bind_eq_some_iff.mp h
    cases h
    obtain ⟨hfirst, hrest⟩ := List.forall_mem_cons.mp hstep
    obtain ⟨s1, hexec, hR1⟩ := hfirst hR hcall
    obtain ⟨s', hrun, hR'⟩ := ih hrest hR1 hcalls
    exact ⟨s', by simp [runCalls, hexec, hrun], hR'⟩

/-- Every call of a sequence that returns returns. -/
theorem exists_exec_of_mem {call : κ}
    (hmem : call ∈ calls) {r : List α × σ} (h : runCalls exec s calls = some r) :
    ∃ s x, exec s call = some x := by
  induction calls generalizing s r with
  | nil => cases hmem
  | cons first calls ih =>
    obtain ⟨⟨answer, s1⟩, hcall, h⟩ := Option.bind_eq_some_iff.mp h
    obtain ⟨r', hcalls, -⟩ := Option.bind_eq_some_iff.mp h
    cases hmem with
    | head => exact ⟨s, _, hcall⟩
    | tail _ hmem => exact ih hmem hcalls

end Dora.Lib
