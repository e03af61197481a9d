import Dora.Bytecode.Resolution

/-!
# The round trip through the bytecode

## Main definitions

* `Decodes`: an instruction that is read is what a call stands for

## Main results

* `Emitted.read`: the generated code is read back item by item
* `read_generate`: disciplined calls run to the end, and are read back in order
-/

namespace Dora.Bytecode

open Layout (place extent Boundary)
open List Bytecode.Item

/-- The calls bind the label at the offset: that is where the code ends when it is bound. -/
def BoundAt (calls : List Call) (lbl : Label) (t : ℕ) : Prop :=
  ∃ before c after w, calls = before ++ c :: after ∧ BytecodeWriter.new.run before = some w ∧
    t = w.code.length ∧ (c = .bindLabel lbl ∨ (c = .defineLabel ∧ lbl = w.defineLabel.1))

variable {calls : List Call} {lbl : Label}

theorem BoundAt.append {t : ℕ} (h : BoundAt calls lbl t) (more : List Call) :
    BoundAt (calls ++ more) lbl t := by
  obtain ⟨before, c, after, w, rfl, h⟩ := h
  exact ⟨before, c, after ++ more, w, by simp, h⟩

variable {w : BytecodeWriter}

/-- The offsets in the table of the writer are those the labels were bound at. -/
theorem boundAt_of_lookup (hr : BytecodeWriter.new.run calls = some w)
    (hcode : w.code.length < 2 ^ 32) {t : ℕ} (hl : w.lookupLabel lbl = some (some t)) :
    BoundAt calls lbl t := by
  induction calls using List.reverseRecOn generalizing w with
  | nil =>
    cases hr
    simp [BytecodeWriter.lookupLabel, BytecodeWriter.new] at hl
  | append_singleton calls c ih =>
    rw [BytecodeWriter.run, foldlM_append] at hr
    obtain ⟨v, hv, hlast⟩ := Option.bind_eq_some_iff.mp hr
    have hc : v.exec c = some w := by simpa using hlast
    have hlen := (BytecodeWriter.exec_grows hc).code.length_le
    rcases BytecodeWriter.exec_binds hc hl with hl | ⟨rfl, hbind⟩
    · exact (ih hv (by omega) hl).append [c]
    · refine ⟨calls, c, [], v, rfl, hv, asU32_of_lt (by omega), hbind.imp_right fun h => ?_⟩
      exact ⟨h.1, congrArg Label.mk h.2⟩

/-- The visited instruction is what the call stands for: the same opcode with the same operands. A
constant is found in the pool; a jump leads to where its label is bound, through the pool or not. -/
def Decodes (bound : Label → ℕ → Prop) (pool : List ConstPoolEntry) (c : Call)
    (visit : ℕ × BytecodeInstruction) : Prop :=
  match c.view with
  | .silent => False
  | .inst i => visit.2 = i
  | .const entry mk dest => ∃ idx, visit.2 = mk dest idx ∧ pool[idx.toUsize]? = some entry
  | .forward f lbl =>
    ∃ t, bound lbl t ∧ visit.1 < t ∧ (visit.2 = f.immediate (t - visit.1) ∨
        ∃ idx, visit.2 = f.const idx ∧
          pool[idx.toUsize]? = some (.int32 (BitVec.ofNat 32 (t - visit.1))))
  | .loop lbl => ∃ t, bound lbl t ∧ t ≤ visit.1 ∧ visit.2 = .jumpLoop (visit.1 - t)

theorem Decodes.mono {bound bound' : Label → ℕ → Prop} {pool : List ConstPoolEntry} {c : Call}
    {visit : ℕ × BytecodeInstruction} (h : Decodes bound pool c visit)
    (himp : ∀ lbl t, bound lbl t → bound' lbl t) : Decodes bound' pool c visit := by
  unfold Decodes at h ⊢
  cases hv : c.view <;> simp only [hv] at h ⊢
  case forward f lbl =>
    obtain ⟨t, ht, h⟩ := h
    exact ⟨t, himp lbl t ht, h⟩
  case loop lbl =>
    obtain ⟨t, ht, h⟩ := h
    exact ⟨t, himp lbl t ht, h⟩
  all_goals exact h

namespace Emitted

variable {w : BytecodeWriter} {items : List Item}

section

variable (h : Emitted w items) (hfit : w.LabelsFit)
  (hb : ∀ it ∈ items, ∀ lbl ∈ it.label, ∃ t, w.lookupLabel lbl = some (some t))
include h hfit hb

theorem fits_resolved {p : ℕ × Item} (hp : p ∈ place size 0 items) :
    (resolved w.labelOffsets p).Fits := by
  have hfits : p.2.coded.Fits := by
    refine h.fits p.2 ?_
    rw [← Layout.map_snd_place size 0 items]
    exact mem_map_of_mem hp
  obtain ⟨start, i | ⟨f, lbl⟩ | ⟨f, idx, lbl⟩⟩ := p
  · exact hfits
  · obtain ⟨t, hl, -, ht, -⟩ := h.target hfit hb hp (show lbl ∈ _ from rfl)
    simp only [resolved, patched, labelOffset_of_lookup hl]
    intro value hvalue
    rw [Forward.operands_immediate, mem_append, mem_singleton] at hvalue
    rcases hvalue with hvalue | rfl
    · refine hfits value ?_
      simp only [coded, Forward.operands_immediate]
      exact mem_append_left _ hvalue
    · exact show t - start < 256 ^ 4 by omega
  · simp only [resolved]
    split_ifs with hfit
    · intro value hvalue
      rw [Forward.operands_immediate, mem_append, mem_singleton] at hvalue
      rcases hvalue with hvalue | rfl
      · refine hfits value ?_
        simp only [coded, Forward.operands_const]
        exact mem_append_left _ hvalue
      · exact Nat.lt_succ_of_le (by simpa [fitsU8] using hfit)
    · exact hfits

/-- **The resolved code is read back**, item by item. -/
theorem read_resolvedCode :
    ∃ reader, BytecodeReader.read (w.resolvedCode items) = some (w.visits items, reader) ∧
      reader.offset = (w.resolvedCode items).length := by
  have hfits : ∀ item ∈ (place size 0 items).map (resolved w.labelOffsets), item.Fits := by
    intro item hitem
    obtain ⟨p, hp, rfl⟩ := mem_map.mp hitem
    exact h.fits_resolved hfit hb hp
  obtain ⟨reader, hread, hend⟩ := BytecodeReader.read_encode _ hfits
  rw [flatMap_map, Layout.place_map fun p _ => size_resolved _ p, map_map] at hread
  rw [flatMap_map] at hend
  exact ⟨reader, hread, hend⟩

/-- **The generated code is read back**, item by item. -/
theorem read :
    ∃ f reader, w.generate = some f ∧ BytecodeReader.read f.code = some (w.visits items, reader) ∧
      reader.offset = f.code.length ∧
      f.code = w.resolvedCode items ∧ f.constPool = w.resolvedPool items := by
  obtain ⟨reader, hread, hend⟩ := h.read_resolvedCode hfit hb
  simp only [BytecodeWriter.generate, h.resolveForwardJumps hfit hb]
  exact ⟨_, reader, rfl, hread, hend, rfl, rfl⟩

theorem decodes {c : Call} {p : ℕ × Item} (hp : p ∈ place size 0 items) (hc : Emits w c p) :
    Decodes (fun lbl t => w.lookupLabel lbl = some (some t)) (w.resolvedPool items) c
      (p.1, (resolved w.labelOffsets p).inst) := by
  unfold Emits at hc
  unfold Decodes
  obtain ⟨start, it⟩ := p
  cases hv : c.view <;> simp only [hv] at hc ⊢
  case inst i =>
    obtain rfl := hc
    rfl
  case const entry mk dest =>
    obtain ⟨idx, rfl, hidx, hne⟩ := hc
    exact ⟨idx, rfl, (h.resolvedPool_of_ne hne).trans hidx⟩
  case loop lbl =>
    obtain ⟨t, hl, hle, rfl⟩ := hc
    exact ⟨t, hl, hle, rfl⟩
  case forward f lbl =>
    rcases hc with rfl | ⟨idx, rfl⟩
    · obtain ⟨t, hl, hlt, ht, -⟩ := h.target hfit hb hp (show lbl ∈ _ from rfl)
      refine ⟨t, hl, hlt, .inl ?_⟩
      simp only [resolved, patched, labelOffset_of_lookup hl]
    · obtain ⟨t, hl, hlt, ht, -⟩ := h.target hfit hb hp (show lbl ∈ _ from rfl)
      have hoff := labelOffset_of_lookup hl
      refine ⟨t, hl, hlt, ?_⟩
      simp only [resolved, hoff]
      cases hfit : fitsU8 (t - start) with
      | true => exact .inl rfl
      | false => exact .inr ⟨idx, rfl, hoff ▸ h.resolvedPool_of_far hp (hoff.symm ▸ hfit)⟩

end

end Emitted

theorem Emits.label {c : Call} {p : ℕ × Item} (h : Emits w c p) (hlbl : lbl ∈ p.2.label) :
    lbl ∈ c.target := by
  unfold Emits at h
  unfold Call.target
  cases hv : c.view <;> simp only [hv] at h ⊢
  case inst i => simp [h, Item.label] at hlbl
  case const entry mk dest =>
    obtain ⟨idx, hp, -⟩ := h
    simp [hp, Item.label] at hlbl
  case loop l =>
    obtain ⟨t, -, -, hp⟩ := h
    simp [hp, Item.label] at hlbl
  case forward f l =>
    rcases h with hp | ⟨idx, hp⟩
    · simpa [hp, Item.label] using hlbl
    · simpa [hp, Item.label] using hlbl

/-- The round trip, item by item, of a writer that has bound the labels its items wait for. -/
theorem Emitted.read_decodes {items : List Item} (h : Emitted w items)
    (hitems : List.Forall₂ (Emits w) (calls.filter Call.emits) (place size 0 items))
    (hfit : w.LabelsFit)
    (hb : ∀ it ∈ items, ∀ lbl ∈ it.label, ∃ t, w.lookupLabel lbl = some (some t)) :
    ∃ f reader, w.generate = some f ∧
      BytecodeReader.read f.code = some (w.visits items, reader) ∧ reader.offset = f.code.length ∧
      f.code = w.resolvedCode items ∧ f.constPool = w.resolvedPool items ∧
      List.Forall₂ (Decodes (fun lbl t => w.lookupLabel lbl = some (some t)) f.constPool)
        (calls.filter Call.emits) (w.visits items) := by
  obtain ⟨f, reader, hgen, hread, hend, hfcode, hfpool⟩ := h.read hfit hb
  refine ⟨f, reader, hgen, hread, hend, hfcode, hfpool, ?_⟩
  rw [BytecodeWriter.visits, List.forall₂_map_right_iff, hfpool]
  exact (Layout.forall₂_mem hitems).imp fun c p hp => h.decodes hfit hb hp.1 hp.2

/-- **The writer and the reader are inverse.** Disciplined calls run to the end, and the reader
reads the generated code back: one instruction for each call that emits, in order, with the operands
of the call, until exactly the end of the code. -/
theorem read_generate {calls : List Call} (hd : Disciplined calls) (hb : ∀ c ∈ calls, c.Bounded)
    (hsize : ∀ w, BytecodeWriter.new.run calls = some w →
      w.code.length < 2 ^ 32 ∧ w.constPool.length ≤ 2 ^ 32) :
    ∃ w f visits reader, BytecodeWriter.new.run calls = some w ∧ w.generate = some f ∧
      BytecodeReader.read f.code = some (visits, reader) ∧ reader.offset = f.code.length ∧
      List.Forall₂ (Decodes (BoundAt calls) f.constPool) (calls.filter Call.emits) visits := by
  obtain ⟨w, hw, hbound⟩ := hd.run
  obtain ⟨hcode, hpool⟩ := hsize w hw
  obtain ⟨items, h, hitems⟩ := Emitted.run hb hw hcode hpool
  have hlabels : ∀ it ∈ items, ∀ lbl ∈ it.label, ∃ t, w.lookupLabel lbl = some (some t) := by
    intro it hit lbl hlbl
    rw [← Layout.map_snd_place size 0 items] at hit
    obtain ⟨p, hp, rfl⟩ := mem_map.mp hit
    obtain ⟨k, hk⟩ := mem_iff_getElem?.mp hp
    obtain ⟨c, hc, hemits⟩ := Layout.forall₂_getElem? hitems hk
    exact hbound c (mem_of_mem_filter (mem_of_getElem? hc)) lbl (hemits.label hlbl)
  obtain ⟨f, reader, hgen, hread, hend, -, -, hdecodes⟩ :=
    h.read_decodes hitems (h.labelsFit hcode) hlabels
  refine ⟨w, f, w.visits items, reader, hw, hgen, hread, hend, hdecodes.imp fun c visit h => ?_⟩
  exact h.mono fun lbl t hl => boundAt_of_lookup hw hcode hl

/-- A program with a jump over a loop, a wide register and a position. -/
def sampleCalls : List Call :=
  [.createLabel, .emitJump ⟨0⟩, .defineLabel, .emitLoopStart, .emitConstInt32 ⟨300⟩ 7,
    .setPosition ⟨1, 1⟩, .emitAdd ⟨0⟩ ⟨1⟩ ⟨2⟩, .emitJumpLoop ⟨1⟩, .bindLabel ⟨0⟩, .emitRet ⟨0⟩]

theorem read_generate_sampleCalls :
    ∃ w f visits reader, BytecodeWriter.new.run sampleCalls = some w ∧ w.generate = some f ∧
      BytecodeReader.read f.code = some (visits, reader) ∧ reader.offset = f.code.length ∧
      List.Forall₂ (Decodes (BoundAt sampleCalls) f.constPool)
        (sampleCalls.filter Call.emits) visits := by
  refine read_generate (by decide) ?_ ?_
  · simp [sampleCalls, Call.Bounded, Call.view, BytecodeInstruction.operands, Forward.cond]
  · intro w hw
    cases hw
    decide

end Dora.Bytecode
