import Mathlib.Data.Nat.Notation
import Mathlib.Logic.Function.Basic

/-!
# Listings of machine code

Straight-line code with branches to labels further down. A label is bound in the listing, or it is a
bailout: a branch to it leaves the listing with a trap. Registers hold 64 bits and are read and
written at any width.

## Main definitions

* `Item`, `Exit`: what a listing is made of, and how it is left
* `Registers.read`, `Registers.write`: access to a part of a register
* `Listing.run`: a run of a listing

## Main results

* `Listing.runFrom_ops`: instructions that succeed are run through
* `Listing.run_ops_branch`: instructions with one branch to a bailout
-/

namespace Registers

variable {ρ : Type} [DecidableEq ρ] (regs : ρ → BitVec 64) {w : ℕ}

/-- The low `w` bits of a register. -/
def read (w : ℕ) (r : ρ) : BitVec w := (regs r).setWidth w

/-- A register is written; the bits above are cleared. -/
def write (r : ρ) (x : BitVec w) : ρ → BitVec 64 := Function.update regs r (x.setWidth 64)

theorem read_write (r : ρ) (x : BitVec w) (v : ℕ) :
    read (write regs r x) v r = (x.setWidth 64).setWidth v := by
  rw [read, write, Function.update_self]

theorem read_write_of_ne {r r' : ρ} (h : r' ≠ r) (x : BitVec w) (v : ℕ) :
    read (write regs r x) v r' = read regs v r' := by
  rw [read, write, Function.update_of_ne h, read]

end Registers

/-- What is emitted: an instruction, a branch to a label with a condition, the place of a label, or
the trap that a label stands for. -/
inductive Item (I B L T : Type)
  | op (i : I)
  | branch (b : B) (l : L)
  | bind (l : L)
  | bailout (l : L) (t : T)

/-- How a listing is left. -/
inductive Exit (σ T : Type)
  | trap (t : T)
  | fault
  | done (s : σ)
deriving DecidableEq

/-- What is read off the last state. -/
def Exit.map {σ τ T : Type} (f : σ → τ) : Exit σ T → Exit τ T
  | trap t => trap t
  | fault => fault
  | done s => done (f s)

namespace Listing

open List

variable {I B L T σ : Type} [DecidableEq L]

/-- The trap of a label. -/
def trapOf (l : L) : List (Item I B L T) → Option T
  | [] => none
  | .bailout l' t :: items => if l' = l then some t else trapOf l items
  | _ :: items => trapOf l items

section Run

variable (exec : I → σ → Option σ) (test : B → σ → Option Bool)

variable {b : B} {l : L} {taken : Bool} {ops : List I}

/-- **A run** of the rest of a listing, or of what comes after the place of a label. An instruction
or a condition without a meaning is a fault. -/
def runFrom (traps : L → Option T) : Option L → List (Item I B L T) → σ → Exit σ T
  | _, [], s => .done s
  | none, .op i :: items, s =>
    match exec i s with
    | some s' => runFrom traps none items s'
    | none => .fault
  | none, .branch b l :: items, s =>
    match test b s with
    | some true =>
      match traps l with
      | some t => .trap t
      | none => runFrom traps (some l) items s
    | some false => runFrom traps none items s
    | none => .fault
  | none, .bind _ :: items, s | none, .bailout _ _ :: items, s => runFrom traps none items s
  | some l, .bind l' :: items, s => runFrom traps (if l' = l then none else some l) items s
  | some l, .op _ :: items, s | some l, .branch _ _ :: items, s
  | some l, .bailout _ _ :: items, s => runFrom traps (some l) items s

/-- A run of a listing. -/
def run (items : List (Item I B L T)) (s : σ) : Exit σ T :=
  runFrom exec test (fun l => trapOf l items) none items s

variable {exec test} {traps : L → Option T} {items : List (Item I B L T)} {s s' : σ}

theorem runFrom_op {i : I} (h : exec i s = some s') :
    runFrom exec test traps none (.op i :: items) s = runFrom exec test traps none items s' := by
  simp only [runFrom, h]

theorem runFrom_branch (h : test b s = some taken) :
    runFrom exec test traps none (.branch b l :: items) s =
      if taken then
        match traps l with
        | some t => .trap t
        | none => runFrom exec test traps (some l) items s
      else runFrom exec test traps none items s := by
  cases taken <;> simp [runFrom, h]

theorem runFrom_ops (h : ops.foldlM (fun s i => exec i s) s = some s') :
    runFrom exec test traps none (ops.map .op ++ items) s =
      runFrom exec test traps none items s' := by
  induction ops generalizing s with
  | nil =>
    obtain rfl : s = s' := by simpa using h
    rfl
  | cons i ops ih =>
    rw [foldlM_cons, Option.bind_eq_bind, Option.bind_eq_some_iff] at h
    obtain ⟨s1, h1, h⟩ := h
    rw [map_cons, cons_append, runFrom_op h1, ih h]

theorem runFrom_skip_ops (ops : List I) (l : L) :
    runFrom exec test traps (some l) (ops.map .op ++ items) s =
      runFrom exec test traps (some l) items s := by
  induction ops with
  | nil => rfl
  | cons i ops ih => exact ih

theorem trapOf_ops (ops : List I) (l : L) : trapOf l (ops.map .op ++ items) = trapOf l items := by
  induction ops with
  | nil => rfl
  | cons i ops ih => exact ih

theorem run_ops_branch {rest : List I} {t : T} {s'' : σ}
    (h : ops.foldlM (fun s i => exec i s) s = some s') (hb : test b s' = some taken)
    (hrest : rest.foldlM (fun s i => exec i s) s' = some s'') :
    run exec test (ops.map .op ++ ([.branch b l, .bailout l t] ++ rest.map .op)) s =
      if taken then .trap t else .done s'' := by
  have htrap : trapOf l (ops.map .op ++ ([.branch b l, .bailout l t] ++ rest.map .op)) =
      some t := by
    rw [trapOf_ops]
    simp [trapOf]
  have hdone (traps : L → Option T) :
      runFrom exec test traps none (rest.map .op) s' = .done s'' := by
    have h : runFrom exec test traps none (rest.map .op ++ []) s' = .done s'' := runFrom_ops hrest
    rw [append_nil] at h
    exact h
  rw [run, runFrom_ops h, cons_append, runFrom_branch hb]
  cases taken with
  | true =>
    simp only [if_true, cons_append] at htrap ⊢
    rw [htrap]
  | false => exact hdone _

end Run

end Listing
