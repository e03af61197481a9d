import Mathlib.Data.List.Induction
import Dora.Bytecode.Discipline

/-!
# The items of the code

The code the writer has emitted is a list of items: instructions that are final, and forward jumps
whose distance is still to come.

## Main definitions

* `Item`, `Emitted`: items, and the writer that has emitted them

## Main results

* `Emitted.exec`, `Emitted.run`: each call that emits appends one item
-/

namespace Dora.Bytecode

open Layout (place extent Boundary)
open List OperandWidth

attribute [local simp] BytecodeWriter.addConst Call.emits place Call.Bounded

/-- An item of the code: an instruction, or a forward jump that waits for its distance. -/
inductive Item
  | inst (i : BytecodeInstruction)
  /-- A jump in wide form, with a distance of zero. -/
  | wide (f : Forward) (lbl : Label)
  /-- A jump through a constant of the pool. -/
  | const (f : Forward) (idx : ConstPoolIdx) (lbl : Label)

namespace Item

/-- The instruction as it was emitted. -/
def coded : Item → Coded
  | inst i => ⟨i.width, i⟩
  | wide f _ => ⟨.wide, f.immediate 0⟩
  | const f idx _ => ⟨.normal, f.const idx⟩

def size (it : Item) : ℕ := it.coded.size

theorem size_pos (it : Item) : 0 < it.size := it.coded.inst.length_encode_pos it.coded.width

/-- The label the item waits for. -/
def label : Item → Option Label
  | inst _ => none
  | wide _ lbl | const _ _ lbl => some lbl

/-- The entry of a wide jump in the list of unresolved jumps: its distance takes the last four
bytes. -/
def jumpOffset : ℕ × Item → Option (ℕ × ℕ × Label)
  | (start, wide f lbl) => some (start, start + (wide f lbl).size - 4, lbl)
  | _ => none

/-- The entry of a jump through the pool in the list of unresolved jumps. -/
def jumpConst : ℕ × Item → Option (ℕ × ConstPoolIdx × Label)
  | (start, const _ idx lbl) => some (start, idx, lbl)
  | _ => none

end Item

/-- **The writer has emitted these items.** -/
structure Emitted (w : BytecodeWriter) (items : List Item) : Prop where
  code : w.code = (place Item.size 0 items).flatMap fun p => p.2.coded.bytes
  jumpOffsets : w.unresolvedJumpOffsets = (place Item.size 0 items).filterMap Item.jumpOffset
  jumpConsts : w.unresolvedJumpConsts = (place Item.size 0 items).filterMap Item.jumpConst
  fits : ∀ it ∈ items, it.coded.Fits
  /-- Labels are bound between items. -/
  labels : ∀ l t : ℕ, w.labelOffsets[l]? = some (some t) → Boundary Item.size items t
  /-- A label that is jumped forward to is not bound at the jump or before it. -/
  forward : ∀ p ∈ place Item.size 0 items, ∀ lbl ∈ p.2.label,
    ∀ t, w.lookupLabel lbl = some (some t) → p.1 < t
  consts : (w.unresolvedJumpConsts.map fun j => j.2.1.toUsize).Nodup
  pool : ∀ j ∈ w.unresolvedJumpConsts, j.2.1.toUsize < w.constPool.length

/-- The item at its offset is what the call stands for. -/
def Emits (w : BytecodeWriter) (c : Call) (p : ℕ × Item) : Prop :=
  match c.view with
  | .silent => False
  | .inst i => p.2 = .inst i
  | .const entry mk dest =>
    ∃ idx, p.2 = .inst (mk dest idx) ∧ w.constPool[idx.toUsize]? = some entry ∧
      ∀ j ∈ w.unresolvedJumpConsts, j.2.1.toUsize ≠ idx.toUsize
  | .forward f lbl => p.2 = .wide f lbl ∨ ∃ idx, p.2 = .const f idx lbl
  | .loop lbl =>
    ∃ t, w.lookupLabel lbl = some (some t) ∧ t ≤ p.1 ∧ p.2 = .inst (.jumpLoop (p.1 - t))

theorem Emits.grows {w w' : BytecodeWriter} {c : Call} {p : ℕ × Item} (h : Emits w c p)
    (hw : w.Grows w') : Emits w' c p := by
  unfold Emits at h ⊢
  cases hv : c.view <;> simp only [hv] at h ⊢
  case const entry mk dest =>
    obtain ⟨idx, hp, hidx, hne⟩ := h
    have hlt := (List.getElem?_eq_some_iff.mp hidx).1
    refine ⟨idx, hp, ?_, fun j hj => ?_⟩
    · obtain ⟨_, heq⟩ := hw.constPool
      rw [← heq, List.getElem?_append_left hlt, hidx]
    · rcases hw.consts j hj with hj | hj
      · exact hne j hj
      · omega
  case loop lbl =>
    obtain ⟨t, hl, hle, hp⟩ := h
    exact ⟨t, hw.labels _ _ hl, hle, hp⟩
  all_goals exact h

namespace BytecodeWriter

/-- Append an item to the code, and to the lists of unresolved jumps if it waits for its label. -/
def emit (w : BytecodeWriter) (it : Item) : BytecodeWriter :=
  { w with
    code := w.code ++ it.coded.bytes
    unresolvedJumpOffsets := w.unresolvedJumpOffsets ++ (Item.jumpOffset (w.code.length, it)).toList
    unresolvedJumpConsts := w.unresolvedJumpConsts ++ (Item.jumpConst (w.code.length, it)).toList }

variable {w w' : BytecodeWriter}

theorem emitInstruction_emit {i : BytecodeInstruction} (hb : ∀ value ∈ i.operands, value < 2 ^ 32)
    (h : w.emitInstruction i = some w') :
    ∃ positions, w' = { w.emit (.inst i) with positions := positions, position := none } := by
  rw [emitInstruction_eq w hb, Option.map_eq_some_iff] at h
  obtain ⟨v, hv, rfl⟩ := h
  obtain ⟨positions, rfl⟩ := settlePosition_spec hv
  exact ⟨positions,
    by simp [append, emit, Item.coded, Coded.bytes, Item.jumpOffset, Item.jumpConst]⟩

/-- The item a forward jump appends: one of the two forms of the jump. -/
theorem emitJmpForward_emit {f : Forward} {lbl : Label}
    (hcond : ∀ opnd ∈ f.cond, opnd.toUsize < 2 ^ 32)
    (h : w.emitJmpForward f.inst f.instConst f.cond lbl = some w')
    (hcode : w'.code.length < 2 ^ 32) (hpool : w'.constPool.length ≤ 2 ^ 32) :
    (w' = w.emit (.wide f lbl) ∧ (Item.wide f lbl).coded.Fits) ∨
      (w' = (w.addConst (.int32 0)).2.emit (.const f ⟨w.constPool.length⟩ lbl) ∧
        (Item.const f ⟨w.constPool.length⟩ lbl).coded.Fits) := by
  have hlen := (emitJmpForward_grows h).code.length_le
  have hstart : w.offset = w.code.length := asU32_of_lt (by omega)
  unfold emitJmpForward at h
  simp only [emitCond_wide _ hcond, emitCond_normal _ hcond, hstart] at h
  split_ifs at h with hw
  · simp only [emitWide, emitU8_eq, emitOpcode_eq, emitU32_eq, Option.bind_eq_bind,
      Option.bind_some, Option.some.injEq] at h
    subst h
    simp only [append, length_append] at hcode
    left
    constructor
    · have haddress : ∀ bs : List UInt8, bs.length < 2 ^ 32 → asU32 bs.length = bs.length :=
        fun bs => asU32_of_lt
      simp only [emit, append, offset, Item.coded, Coded.bytes, Forward.encode_immediate,
        Item.jumpOffset, Item.jumpConst, Item.size, Coded.size]
      rw [haddress _ (by simp only [length_append]; omega)]
      simp [marker, encode, size]
      omega
    · intro value hvalue
      simp only [Item.coded, Forward.operands_immediate, mem_append, mem_map,
        Option.mem_toList, mem_singleton] at hvalue
      rcases hvalue with ⟨opnd, hopnd, rfl⟩ | rfl
      · exact hcond opnd hopnd
      · exact show 0 < 256 ^ 4 by decide
  · simp only [emitU8_eq, emitOpcode_eq, Option.bind_eq_bind, Option.bind_some, Option.some.injEq,
      addConst] at h
    subst h
    simp only [append, length_append, length_singleton] at hpool
    simp only [Bool.or_eq_true, Bool.not_eq_true', not_or, Bool.not_eq_false,
      asU32_of_lt (show w.constPool.length < 2 ^ 32 by omega), fitsU8, decide_eq_true_eq] at hw
    right
    constructor
    · simp [emit, append, Item.coded, Coded.bytes, Forward.encode_const, Item.jumpOffset,
        Item.jumpConst, marker, encode, size, Bytes.ofNatLE]
    · intro value hvalue
      simp only [Item.coded, Forward.operands_const, mem_append, mem_map,
        Option.mem_toList, mem_singleton] at hvalue
      rcases hvalue with ⟨opnd, hopnd, rfl⟩ | rfl
      · have hfit := hw.1
        rw [Option.mem_def.mp hopnd, Option.any_some, asU32_of_lt (hcond opnd hopnd)] at hfit
        exact Nat.lt_succ_of_le (by simpa using hfit)
      · exact Nat.lt_succ_of_le hw.2

end BytecodeWriter

namespace Emitted

variable {w w' : BytecodeWriter} {items : List Item}

section

variable (h : Emitted w items)
include h

theorem length_code : w.code.length = extent Item.size items := by
  rw [h.code]
  exact Layout.length_flatMap_place fun _ _ => rfl

/-- What is emitted is not changed by the rest of the writer; labels may be bound to the end of
the code. -/
theorem frame (hcode : w'.code = w.code)
    (hoffsets : w'.unresolvedJumpOffsets = w.unresolvedJumpOffsets)
    (hconsts : w'.unresolvedJumpConsts = w.unresolvedJumpConsts)
    (hpool : w.constPool <+: w'.constPool)
    (hlabels : ∀ l t : ℕ, w'.labelOffsets[l]? = some (some t) →
      w.labelOffsets[l]? = some (some t) ∨ t = w.code.length) :
    Emitted w' items where
  code := hcode.trans h.code
  jumpOffsets := hoffsets.trans h.jumpOffsets
  jumpConsts := hconsts.trans h.jumpConsts
  fits := h.fits
  labels l t hl := by
    rcases hlabels l t hl with hl | rfl
    · exact h.labels l t hl
    · rw [h.length_code]
      exact Boundary.extent items
  forward p hp lbl hlbl t hl := by
    rcases hlabels _ t hl with hl | rfl
    · exact h.forward p hp lbl hlbl t hl
    · have hle := (Layout.place_bounds hp).2
      have hpos := p.2.size_pos
      rw [h.length_code]
      omega
  consts := hconsts ▸ h.consts
  pool j hj := (h.pool j (hconsts ▸ hj)).trans_le hpool.length_le

theorem emit {it : Item} (hfits : it.coded.Fits)
    (hlabel : ∀ lbl ∈ it.label, w.lookupLabel lbl = some none)
    (hfresh : ∀ j ∈ Item.jumpConst (w.code.length, it), j.2.1.toUsize < w.constPool.length ∧
      ∀ k ∈ w.unresolvedJumpConsts, k.2.1.toUsize ≠ j.2.1.toUsize) :
    Emitted (w.emit it) (items ++ [it]) := by
  have hplace : place Item.size 0 (items ++ [it]) =
      place Item.size 0 items ++ [(w.code.length, it)] := by
    rw [Layout.place_append, h.length_code, Nat.zero_add]
    rfl
  refine ⟨?_, ?_, ?_, ?_, ?_, ?_, ?_, ?_⟩
  · rw [hplace, flatMap_append, ← h.code]
    simp [BytecodeWriter.emit]
  · rw [hplace, filterMap_append, ← h.jumpOffsets, Layout.filterMap_singleton]
    rfl
  · rw [hplace, filterMap_append, ← h.jumpConsts, Layout.filterMap_singleton]
    rfl
  · intro x hx
    rcases mem_append.mp hx with hx | hx
    · exact h.fits x hx
    · exact mem_singleton.mp hx ▸ hfits
  · exact fun l t hl => (h.labels l t hl).append [it]
  · intro p hp lbl hlbl t hl
    rw [hplace] at hp
    rcases mem_append.mp hp with hp | hp
    · exact h.forward p hp lbl hlbl t hl
    · obtain rfl := mem_singleton.mp hp
      exact absurd ((hlabel lbl hlbl).symm.trans hl) (by simp)
  · cases hj : Item.jumpConst (w.code.length, it) with
    | none => simpa [BytecodeWriter.emit, hj] using h.consts
    | some j =>
      simp only [BytecodeWriter.emit, hj, Option.toList_some, map_append, map_cons,
        map_nil, nodup_append]
      refine ⟨h.consts, by simp, ?_⟩
      simp only [mem_map, mem_singleton]
      rintro _ ⟨k, hk, rfl⟩ _ rfl
      exact (hfresh j hj).2 k hk
  · intro j hj
    rcases mem_append.mp hj with hj | hj
    · exact h.pool j hj
    · exact (hfresh j (Option.mem_toList.mp hj)).1

theorem silent {c : Call} (hv : c.view = .silent) (hc : w.exec c = some w')
    (hcode : w'.code.length < 2 ^ 32) : Emitted w' items := by
  obtain ⟨heq, hoffsets, hconsts, hpool⟩ := BytecodeWriter.exec_silent hv hc
  have hoffset : w.offset = w.code.length := asU32_of_lt (heq ▸ hcode)
  refine h.frame heq hoffsets hconsts hpool fun l t hl => ?_
  exact (BytecodeWriter.exec_binds hc hl).imp_right fun ⟨ht, _⟩ => ht.trans hoffset

theorem inst {i : BytecodeInstruction} (hb : ∀ value ∈ i.operands, value < 2 ^ 32)
    (hc : w.emitInstruction i = some w') :
    Emitted w' (items ++ [.inst i]) := by
  obtain ⟨positions, rfl⟩ := BytecodeWriter.emitInstruction_emit hb hc
  have hemit : Emitted (w.emit (.inst i)) (items ++ [.inst i]) :=
    h.emit (BytecodeInstruction.fits_width hb) (by simp [Item.label]) (by simp [Item.jumpConst])
  exact hemit.frame rfl rfl rfl prefix_rfl fun _ _ hl => .inl hl

/-- **A call appends the item it stands for.** -/
theorem exec {c : Call} (hb : c.Bounded) (hc : w.exec c = some w') (hcode : w'.code.length < 2 ^ 32)
    (hpool : w'.constPool.length ≤ 2 ^ 32) :
    ∃ new, Emitted w' (items ++ new) ∧
      List.Forall₂ (Emits w') ([c].filter Call.emits) (place Item.size w.code.length new) := by
  cases hv : c.view with
  | silent =>
    refine ⟨[], ?_, ?_⟩
    · rw [append_nil]
      exact h.silent hv hc hcode
    · simp [hv]
  | inst i =>
    refine ⟨[.inst i], h.inst ?_ (BytecodeWriter.exec_inst w hv ▸ hc), ?_⟩
    · simpa [hv] using hb
    · simp [hv, Emits]
  | const entry mk dest =>
    rw [BytecodeWriter.exec_const w hv] at hc
    have hadd : Emitted (w.addConst entry).2 items :=
      h.frame rfl rfl rfl (prefix_append _ _) fun _ _ hl => .inl hl
    obtain ⟨positions, bytes, hw'⟩ := BytecodeWriter.emitInstruction_append hc
    have hlen : w.constPool.length + 1 ≤ 2 ^ 32 := by
      simpa [hw'] using hpool
    refine ⟨[.inst (mk dest (w.addConst entry).1)], hadd.inst ?_ hc, ?_⟩
    · have hdest : dest.toUsize < 2 ^ 32 := by simpa [hv] using hb
      rw [(Call.view_const hv _).1]
      simp only [forall_mem_cons, not_mem_nil, false_implies, implies_true, and_true]
      exact ⟨hdest, hlen⟩
    · simp only [Call.emits, hv, filter_cons_of_pos, filter_nil, place,
        List.forall₂_cons, List.Forall₂.nil, and_true, Emits]
      refine ⟨_, rfl, by simp [hw'], fun j hj => ?_⟩
      exact (h.pool j (by simpa [hw'] using hj)).ne
  | forward f lbl =>
    obtain ⟨hl, hc⟩ := BytecodeWriter.exec_forward_some hv hc
    have hcond : ∀ opnd ∈ f.cond, opnd.toUsize < 2 ^ 32 := by simpa [hv] using hb
    rcases BytecodeWriter.emitJmpForward_emit hcond hc hcode hpool with ⟨rfl, hfits⟩ | ⟨rfl, hfits⟩
    · refine ⟨[.wide f lbl], h.emit hfits ?_ (by simp [Item.jumpConst]), ?_⟩
      · simpa [Item.label] using hl
      · simp [hv, Emits]
    · have hadd : Emitted (w.addConst (.int32 0)).2 items :=
        h.frame rfl rfl rfl (prefix_append _ _) fun _ _ hl => .inl hl
      refine ⟨[.const f ⟨w.constPool.length⟩ lbl], hadd.emit hfits ?_ ?_, ?_⟩
      · intro _ hlbl
        cases hlbl
        exact hl
      · rintro j hj
        cases hj
        exact ⟨by simp, fun k hk => (h.pool k hk).ne⟩
      · simp [hv, Emits]
  | loop lbl =>
    have hlen := (BytecodeWriter.exec_grows hc).code.length_le
    obtain ⟨t, hl, hle, hc⟩ := BytecodeWriter.emitJumpLoop_some (BytecodeWriter.exec_loop w hv ▸ hc)
    rw [asU32_of_lt (by omega)] at hc
    refine ⟨[.inst (.jumpLoop (w.code.length - t))], h.inst ?_ hc, ?_⟩
    · simp only [BytecodeInstruction.operands, mem_singleton]
      omega
    · obtain ⟨_, _, rfl⟩ := BytecodeWriter.emitInstruction_append hc
      simp only [Call.emits, hv, filter_cons_of_pos, filter_nil, place,
        List.forall₂_cons, List.Forall₂.nil, and_true, Emits]
      exact ⟨t, hl, hle, rfl⟩

end

/-- **A run appends one item for each call that emits**, in order. -/
theorem run {calls : List Call} (hb : ∀ c ∈ calls, c.Bounded)
    (hr : BytecodeWriter.new.run calls = some w) (hcode : w.code.length < 2 ^ 32)
    (hpool : w.constPool.length ≤ 2 ^ 32) :
    ∃ items, Emitted w items ∧
      List.Forall₂ (Emits w) (calls.filter Call.emits) (place Item.size 0 items) := by
  induction calls using List.reverseRecOn generalizing w with
  | nil =>
    cases hr
    refine ⟨[], ⟨rfl, rfl, rfl, ?_, ?_, ?_, ?_, ?_⟩, .nil⟩ <;> simp [BytecodeWriter.new]
  | append_singleton calls c ih =>
    rw [BytecodeWriter.run, foldlM_append] at hr
    obtain ⟨v, hv, hlast⟩ := Option.bind_eq_some_iff.mp hr
    have hc : v.exec c = some w := by simpa using hlast
    have hgrows := BytecodeWriter.exec_grows hc
    obtain ⟨items, hv, hitems⟩ := ih (fun c hc => hb c (mem_append_left _ hc)) hv
      (hgrows.code.length_le.trans_lt hcode) (hgrows.constPool.length_le.trans hpool)
    obtain ⟨new, hw, hnew⟩ := hv.exec (hb c (by simp)) hc hcode hpool
    refine ⟨items ++ new, hw, ?_⟩
    rw [filter_append, Layout.place_append, Nat.zero_add, ← hv.length_code]
    exact rel_append (hitems.imp fun _ _ h => h.grows hgrows) hnew

end Emitted

end Dora.Bytecode
