import Dora.Bytecode.Emission

/-!
# The discipline of the calls

The writer asserts that a label is created before it is used, bound once, jumped forward to while
it is unbound and backward once it is bound, and that a position is set exactly before the
instructions that need one.

## Main definitions

* `Scope`: which labels are bound, and whether a position is pending
* `Disciplined`: the calls keep to this

## Main results

* `BytecodeWriter.scope_exec`: a call succeeds exactly when the discipline allows it
* `Disciplined.run`: disciplined calls run to the end
-/

namespace Dora.Bytecode

/-- Which labels are bound, and whether a position is pending. -/
structure Scope where
  labels : List Bool := []
  pending : Bool := false
  deriving DecidableEq

namespace Scope

variable (s : Scope)

/-- One call, if the discipline allows it. -/
def step (c : Call) : Option Scope :=
  match c.view with
  | .inst i =>
    if s.pending = i.opcode.needsPosition then some { s with pending := false } else none
  | .const .. => if s.pending = false then some s else none
  | .forward _ lbl => if s.labels[lbl.toUsize]? = some false then some s else none
  | .loop lbl =>
    if s.labels[lbl.toUsize]? = some true ∧ s.pending = false then some s else none
  | .silent =>
    match c with
    | .createLabel => some { s with labels := s.labels ++ [false] }
    | .defineLabel => some { s with labels := s.labels ++ [true] }
    | .bindLabel lbl =>
      if s.labels[lbl.toUsize]? = some false then
        some { s with labels := s.labels.set lbl.toUsize true }
      else none
    | .setPosition _ => some { s with pending := true }
    | _ => some s

end Scope

/-- The label a call jumps forward to. -/
def Call.target (c : Call) : Option Label :=
  match c.view with
  | .forward _ lbl => some lbl
  | _ => none

/-- The calls keep to the discipline, and bind every label they jump forward to. -/
def Disciplined (calls : List Call) : Prop :=
  ∃ s ∈ calls.foldlM Scope.step {},
    ∀ c ∈ calls, ∀ lbl ∈ c.target, s.labels[lbl.toUsize]? = some true

instance (calls : List Call) : Decidable (Disciplined calls) :=
  inferInstanceAs (Decidable (∃ s ∈ calls.foldlM Scope.step {}, _))

namespace BytecodeWriter

variable {w w' : BytecodeWriter} {c : Call}

/-- What the discipline knows about the writer. -/
def scope (w : BytecodeWriter) : Scope := ⟨w.labelOffsets.map Option.isSome, w.position.isSome⟩

/-- Labels are bound to offsets within the code. -/
def LabelsWithin (w : BytecodeWriter) : Prop :=
  ∀ l t : ℕ, w.labelOffsets[l]? = some (some t) → t ≤ w.code.length

theorem offset_le (w : BytecodeWriter) : w.offset ≤ w.code.length := Nat.mod_le _ _

theorem emitInstruction_isSome (w : BytecodeWriter) (i : BytecodeInstruction) :
    (w.emitInstruction i).isSome ↔ w.position.isSome = i.opcode.needsPosition := by
  rw [← settlePosition_isSome, emitInstruction, emitValues_eq]
  cases w.settlePosition i.opcode <;> simp

theorem scope_emitInstruction (w : BytecodeWriter) (i : BytecodeInstruction) :
    (w.emitInstruction i).map scope =
      if w.scope.pending = i.opcode.needsPosition then some { w.scope with pending := false }
      else none := by
  have hsome := w.emitInstruction_isSome i
  cases h : w.emitInstruction i with
  | none =>
    rw [h] at hsome
    rw [if_neg fun hp => by simpa using hsome.mpr hp, Option.map_none]
  | some w' =>
    rw [h] at hsome
    obtain ⟨positions, bytes, rfl⟩ := emitInstruction_append h
    exact (if_pos (hsome.mp rfl)).symm

theorem scope_emitInstruction_of_not (w : BytecodeWriter) {i : BytecodeInstruction}
    (h : i.opcode.needsPosition = false) :
    (w.emitInstruction i).map scope = if w.scope.pending = false then some w.scope else none := by
  rw [scope_emitInstruction, h]
  split_ifs with hp
  · rw [← hp]
  · rfl

theorem lookupLabel_none_iff (w : BytecodeWriter) (lbl : Label) :
    w.lookupLabel lbl = some none ↔ w.scope.labels[lbl.toUsize]? = some false := by
  simp [lookupLabel, scope]

theorem lookupLabel_some_iff (w : BytecodeWriter) (lbl : Label) :
    (∃ t, w.lookupLabel lbl = some (some t)) ↔ w.scope.labels[lbl.toUsize]? = some true := by
  simp [lookupLabel, scope, Option.isSome_iff_exists]

theorem scope_exec_forward {f : Forward} {lbl : Label} (hv : c.view = .forward f lbl) :
    (w.exec c).map scope =
      if w.scope.labels[lbl.toUsize]? = some false then some w.scope else none := by
  rw [exec_forward w hv]
  have hnone := w.lookupLabel_none_iff lbl
  rcases hl : w.lookupLabel lbl with _ | _ | t
  · rw [if_neg fun h => by simpa [hl] using hnone.mpr h]
    rfl
  · obtain ⟨bytes, offsets, consts, entries, heq, -⟩ :=
      w.emitJmpForward_append f.inst f.instConst f.cond lbl
    rw [if_pos (hnone.mp hl)]
    simp [heq, scope]
  · rw [if_neg fun h => by simpa [hl] using hnone.mpr h]
    simp

theorem scope_exec_loop (hw : w.LabelsWithin) {lbl : Label} (hv : c.view = .loop lbl) :
    (w.exec c).map scope =
      if w.scope.labels[lbl.toUsize]? = some true ∧ w.scope.pending = false then some w.scope
      else none := by
  rw [exec_loop w hv]
  have hsome := w.lookupLabel_some_iff lbl
  rcases hl : w.lookupLabel lbl with _ | _ | t
  · rw [if_neg fun h => by simpa [hl] using hsome.mpr h.1]
    simp [emitJumpLoop, hl]
  · rw [if_neg fun h => by simpa [hl] using hsome.mpr h.1]
    simp [emitJumpLoop, hl]
  · have hbound := hsome.mp ⟨t, hl⟩
    rw [emitJumpLoop_eq hl (hw _ _ hl), scope_emitInstruction_of_not w rfl]
    simp only [hbound, true_and]

theorem scope_exec_bindLabel (w : BytecodeWriter) (lbl : Label) :
    (w.bindLabel lbl).map scope =
      if w.scope.labels[lbl.toUsize]? = some false then
        some { w.scope with labels := w.scope.labels.set lbl.toUsize true }
      else none := by
  have hnone := w.lookupLabel_none_iff lbl
  unfold bindLabel
  rcases hl : w.lookupLabel lbl with _ | _ | t
  · rw [if_neg fun h => by simpa [hl] using hnone.mpr h]
    rfl
  · rw [if_pos (hnone.mp hl)]
    simp [scope]
  · rw [if_neg fun h => by simpa [hl] using hnone.mpr h]
    simp

/-- **A call succeeds exactly when the discipline allows it.** -/
theorem scope_exec (hw : w.LabelsWithin) (c : Call) : (w.exec c).map scope = w.scope.step c := by
  cases hv : c.view with
  | inst i => simp only [Scope.step, hv, exec_inst w hv, scope_emitInstruction]
  | const entry mk dest =>
    have hpos := (Call.view_const hv (w.addConst entry).1).2
    have hscope : (w.addConst entry).2.scope = w.scope := rfl
    simp only [Scope.step, hv, exec_const w hv, scope_emitInstruction_of_not _ hpos, hscope]
  | forward f lbl => simp only [Scope.step, hv, scope_exec_forward hv]
  | loop lbl => simp only [Scope.step, hv, scope_exec_loop hw hv]
  | silent =>
    cases c <;> simp only [Call.view, reduceCtorEq] at hv
    case bindLabel lbl => exact w.scope_exec_bindLabel lbl
    all_goals simp [Scope.step, Call.view, exec, scope, createLabel, defineLabel, setPosition,
      addRegister, setArguments, setParams, setReturnType, addConst]

theorem LabelsWithin.exec (hw : w.LabelsWithin) (h : w.exec c = some w') : w'.LabelsWithin := by
  have hlen := (exec_grows h).code.length_le
  intro l t hl
  rcases exec_binds h hl with hl | ⟨rfl, -⟩
  · exact (hw l t hl).trans hlen
  · exact w.offset_le.trans hlen

/-- The calls of a run keep the labels within the code, and the scope of the writer follows them. -/
theorem scope_run (hw : w.LabelsWithin) (calls : List Call) :
    (w.run calls).map scope = calls.foldlM Scope.step w.scope ∧
      ∀ w', w.run calls = some w' → w'.LabelsWithin := by
  induction calls generalizing w with
  | nil => exact ⟨rfl, fun w' h => Option.some.inj h ▸ hw⟩
  | cons c calls ih =>
    have hstep := scope_exec hw c
    rw [run, List.foldlM_cons, List.foldlM_cons, ← hstep]
    cases h : w.exec c with
    | none => exact ⟨rfl, fun _ h => by cases h⟩
    | some v => exact ih (hw.exec h)

end BytecodeWriter

/-- **Disciplined calls run to the end**, and bind every label they jump forward to. -/
theorem Disciplined.run {calls : List Call} (h : Disciplined calls) :
    ∃ w, BytecodeWriter.new.run calls = some w ∧
      ∀ c ∈ calls, ∀ lbl ∈ c.target, ∃ t, w.lookupLabel lbl = some (some t) := by
  have hrun := (BytecodeWriter.scope_run (w := .new)
    (fun l t h => by simp [BytecodeWriter.new] at h) calls).1
  obtain ⟨s, hs, hbound⟩ := h
  rw [show BytecodeWriter.new.scope = {} from rfl, Option.mem_def.mp hs] at hrun
  obtain ⟨w, hw, rfl⟩ := Option.map_eq_some_iff.mp hrun
  exact ⟨w, hw, fun c hc lbl hlbl => (w.lookupLabel_some_iff lbl).mpr (hbound c hc lbl hlbl)⟩

end Dora.Bytecode
