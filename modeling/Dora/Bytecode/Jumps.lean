import Dora.Bytecode.RoundTrip

/-!
# Where the jumps lead

The distance of a jump through the pool is an unsigned number in a signed constant: the writer casts
it there, and the consumer casts it back.

## Main definitions

* `JumpsResolved`: each decoded jump leads to the offset its label was bound at

## Main results

* `jumpsResolved_generate`: so it is in every generated function
* `not_jumpsResolved_far`: read as signed numbers, distances of `2 ^ 31` are wrong
-/

namespace Dora.Bytecode

open Layout (place extent Boundary)
open List Option BytecodeWriter BytecodeInstruction Layout BytecodeOpcode List

variable {distance n : ℕ} {i : BytecodeInstruction} {val : BitVec 32 → ℤ}

namespace BytecodeInstruction

def isJump : BytecodeInstruction → Bool
  | .jumpLoop _ | .jump _ | .jumpConst _ | .jumpIfFalse _ _ | .jumpIfFalseConst _ _
  | .jumpIfTrue _ _ | .jumpIfTrueConst _ _ => true
  | _ => false

/-- The distance in the pool, as `val` reads it. -/
def distanceConst (val : BitVec 32 → ℤ) (pool : List ConstPoolEntry) (idx : ConstPoolIdx) :
    Option ℤ :=
  match pool[idx.toUsize]? with
  | some (.int32 v) => some (val v)
  | _ => none

/-- The offset a jump at `start` leads to. -/
def jumpTarget (val : BitVec 32 → ℤ) (pool : List ConstPoolEntry) (start : ℕ) :
    BytecodeInstruction → Option ℤ
  | .jump offset | .jumpIfFalse _ offset | .jumpIfTrue _ offset => some (start + offset)
  | .jumpConst idx | .jumpIfFalseConst _ idx | .jumpIfTrueConst _ idx =>
    (distanceConst val pool idx).map (start + ·)
  | .jumpLoop offset => some (start - offset)
  | _ => none

end BytecodeInstruction

/-- The label a call jumps to. -/
def Call.jumpLabel (c : Call) : Option Label :=
  match c.view with
  | .forward _ lbl | .loop lbl => some lbl
  | _ => none

/-- **The jumps of a generated function are resolved**, with the constants of the pool read by
`val`. -/
structure JumpsResolved (val : BitVec 32 → ℤ) (calls : List Call) (w : BytecodeWriter)
    (f : BytecodeFunction) (visits : List (ℕ × BytecodeInstruction)) : Prop where
  /-- A decoded jump comes from a call that jumps, and leads to where the label of the call was
  bound: to another decoded instruction, or to the end of the code. -/
  jumps : ∀ (k start : ℕ) (i : BytecodeInstruction), visits[k]? = some (start, i) → i.isJump →
    ∃ (c : Call) (lbl : Label) (t : ℕ), (calls.filter Call.emits)[k]? = some c ∧
      c.jumpLabel = some lbl ∧ BoundAt calls lbl t ∧
      i.jumpTarget val f.constPool start = some (t : ℤ) ∧
      (t = f.code.length ∨ ∃ i', (t, i') ∈ visits)
  length_code : f.code.length = w.code.length
  /-- The bytes of an instruction that is not a forward jump are those that were emitted: the bytes
  from its offset to the next one. -/
  code : ∀ (k start stop : ℕ) (c : Call), (calls.filter Call.emits)[k]? = some c →
    c.target = none → (visits.map Prod.fst ++ [f.code.length])[k]? = some start →
    (visits.map Prod.fst ++ [f.code.length])[k + 1]? = some stop →
    ∀ i, start ≤ i → i < stop → f.code[i]? = w.code[i]?
  length_constPool : f.constPool.length = w.constPool.length
  /-- The entries that no decoded forward jump names are those that were emitted. -/
  constPool : ∀ idx : ℕ, (∀ (g : Forward) (start : ℕ), (start, g.const ⟨idx⟩) ∉ visits) →
    f.constPool[idx]? = w.constPool[idx]?

variable {c : Call}

theorem Call.isJump_view_inst (h : c.view = .inst i) : i.isJump = false := by
  cases c <;> simp only [view, reduceCtorEq, View.inst.injEq] at h <;> subst h <;> rfl

theorem Call.isJump_view_const {entry : ConstPoolEntry}
    {mk : Register → ConstPoolIdx → BytecodeInstruction} {dest : Register}
    (h : c.view = .const entry mk dest) (idx : ConstPoolIdx) : (mk dest idx).isJump = false := by
  cases c <;> simp only [view] at h <;>
    obtain ⟨-, rfl, rfl⟩ := h <;> rfl

/-- The values of a distance that `val` reads back. -/
def ReadsBack (val : BitVec 32 → ℤ) (distance : ℕ) : Prop :=
  val (BitVec.ofNat 32 distance) = distance

theorem readsBack_toNat (h : distance < 2 ^ 32) : ReadsBack (fun v => v.toNat) distance := by
  simp only [ReadsBack, BitVec.toNat_ofNat, Nat.mod_eq_of_lt h]

theorem readsBack_toInt (h : distance < 2 ^ 31) : ReadsBack BitVec.toInt distance := by
  rw [ReadsBack, BitVec.toInt_eq_toNat_cond]
  simp
  omega

/-- A decoded jump comes from a call that jumps, and leads to its label. -/
theorem Decodes.jumpTarget {bound : Label → ℕ → Prop} {pool : List ConstPoolEntry} {start : ℕ}
    (h : Decodes bound pool c (start, i)) (hi : i.isJump)
    (hval : ∀ lbl t, bound lbl t → ReadsBack val (t - start)) :
    ∃ lbl t, c.jumpLabel = some lbl ∧ bound lbl t ∧ i.jumpTarget val pool start = some (t : ℤ) := by
  unfold Decodes at h
  unfold Call.jumpLabel
  cases hv : c.view <;> simp only [hv] at h ⊢
  case inst j =>
    subst h
    simp [Call.isJump_view_inst hv] at hi
  case const entry mk dest =>
    obtain ⟨idx, rfl, -⟩ := h
    simp [Call.isJump_view_const hv] at hi
  case loop lbl =>
    obtain ⟨t, ht, hle, rfl⟩ := h
    refine ⟨lbl, t, rfl, ht, ?_⟩
    simp only [BytecodeInstruction.jumpTarget, Option.some.injEq]
    omega
  case forward f lbl =>
    obtain ⟨t, ht, hlt, rfl | ⟨idx, rfl, hidx⟩⟩ := h
    · refine ⟨lbl, t, rfl, ht, ?_⟩
      cases f <;>
        simp only [Forward.immediate, BytecodeInstruction.jumpTarget, Option.some.injEq] <;>
        omega
    · refine ⟨lbl, t, rfl, ht, ?_⟩
      have hdist : BytecodeInstruction.distanceConst val pool idx = some ((t - start : ℕ) : ℤ) := by
        simp only [BytecodeInstruction.distanceConst, hidx]
        exact congrArg some (hval lbl t ht)
      cases f <;> simp only [Forward.const, BytecodeInstruction.jumpTarget, hdist, map_some,
        Option.some.injEq] <;> omega

/-! ## The labels of a generated function are bound -/

namespace BytecodeWriter

variable {w w' : BytecodeWriter}

theorem resolveJumpOffset_some {j : ℕ × ℕ × Label} (h : w.resolveJumpOffset j = some w') :
    (∃ t, w.lookupLabel j.2.2 = some (some t)) ∧ w'.labelOffsets = w.labelOffsets ∧
      w'.unresolvedJumpConsts = w.unresolvedJumpConsts := by
  obtain ⟨o, ho, h⟩ := bind_eq_some_iff.mp h
  obtain ⟨t, ht, h⟩ := bind_eq_some_iff.mp h
  refine ⟨⟨t, ho.trans (congrArg some ht)⟩, ?_⟩
  obtain ⟨-, h⟩ := guard_bind_eq_some.mp h
  obtain ⟨_, -, h⟩ := bind_eq_some_iff.mp h
  obtain ⟨_, -, h⟩ := bind_eq_some_iff.mp h
  obtain ⟨_, -, h⟩ := bind_eq_some_iff.mp h
  obtain ⟨_, -, h⟩ := bind_eq_some_iff.mp h
  cases h
  exact ⟨rfl, rfl⟩

theorem resolveJumpConst_some {j : ℕ × ConstPoolIdx × Label}
    (h : w.resolveJumpConst j = some w') :
    (∃ t, w.lookupLabel j.2.2 = some (some t)) ∧ w'.labelOffsets = w.labelOffsets := by
  obtain ⟨o, ho, h⟩ := bind_eq_some_iff.mp h
  obtain ⟨t, ht, h⟩ := bind_eq_some_iff.mp h
  refine ⟨⟨t, ho.trans (congrArg some ht)⟩, ?_⟩
  obtain ⟨-, h⟩ := guard_bind_eq_some.mp h
  obtain ⟨inst, -, h⟩ := bind_eq_some_iff.mp h
  split at h
  · obtain ⟨_, -, h⟩ := bind_eq_some_iff.mp h
    obtain ⟨_, -, h⟩ := bind_eq_some_iff.mp h
    obtain ⟨_, -, h⟩ := bind_eq_some_iff.mp h
    cases h
    rfl
  · obtain ⟨-, h⟩ := guard_bind_eq_some.mp h
    cases h
    rfl

/-- A writer that generates a function has bound every label a jump waits for. -/
theorem lookup_of_generate {f : BytecodeFunction} (h : w.generate = some f) :
    (∀ j ∈ w.unresolvedJumpOffsets, ∃ t, w.lookupLabel j.2.2 = some (some t)) ∧
      ∀ j ∈ w.unresolvedJumpConsts, ∃ t, w.lookupLabel j.2.2 = some (some t) := by
  obtain ⟨w2, h, -⟩ := bind_eq_some_iff.mp h
  obtain ⟨w1, h1, h2⟩ := bind_eq_some_iff.mp h
  have hoffsets := foldlM_forall
    (I := fun v => v.labelOffsets = w.labelOffsets ∧
      v.unresolvedJumpConsts = w.unresolvedJumpConsts)
    (P := fun j => ∃ t, w.lookupLabel j.2.2 = some (some t)) ?_ ⟨rfl, rfl⟩ h1
  · have hconsts := foldlM_forall (I := fun v => v.labelOffsets = w.labelOffsets)
      (P := fun j => ∃ t, w.lookupLabel j.2.2 = some (some t)) ?_ hoffsets.2.1 h2
    · exact ⟨hoffsets.1, hoffsets.2.2 ▸ hconsts.1⟩
    · intro v j v' hv hj
      obtain ⟨hl, heq⟩ := resolveJumpConst_some hj
      exact ⟨by simpa only [lookupLabel, hv] using hl, heq.trans hv⟩
  · rintro v j v' ⟨hv, hv'⟩ hj
    obtain ⟨hl, heq, heq'⟩ := resolveJumpOffset_some hj
    exact ⟨by simpa only [lookupLabel, hv] using hl, heq.trans hv, heq'.trans hv'⟩

end BytecodeWriter

variable {w : BytecodeWriter} {f : BytecodeFunction}

/-- The items of a writer that generates a function find their labels bound. -/
theorem Emitted.bound {items : List Item} (h : Emitted w items) (hg : w.generate = some f)
    {it : Item} (hit : it ∈ items) {lbl : Label} (hlbl : lbl ∈ it.label) :
    ∃ t, w.lookupLabel lbl = some (some t) := by
  obtain ⟨hoffsets, hconsts⟩ := lookup_of_generate hg
  rw [← map_snd_place Item.size 0 items] at hit
  obtain ⟨⟨start, it⟩, hp, rfl⟩ := mem_map.mp hit
  cases it with
  | inst i => simp [Item.label] at hlbl
  | wide g l =>
    obtain rfl := Option.some.inj hlbl
    refine hoffsets (start, start + (Item.wide g l).size - 4, l) ?_
    rw [h.jumpOffsets]
    exact mem_filterMap.mpr ⟨_, hp, rfl⟩
  | const g idx l =>
    obtain rfl := Option.some.inj hlbl
    refine hconsts (start, idx, l) ?_
    rw [h.jumpConsts]
    exact mem_filterMap.mpr ⟨_, hp, rfl⟩

/-! ## The jumps of a generated function -/

namespace Emitted

variable {w : BytecodeWriter} {items : List Item}

theorem length_resolvedCode (h : Emitted w items) :
    (w.resolvedCode items).length = w.code.length := by
  rw [h.length_code]
  exact length_flatMap_place fun p _ => Item.size_resolved _ p

/-- A label is bound to a decoded instruction or to the end of the code. -/
theorem target_visits (h : Emitted w items) {lbl : Label} {t : ℕ}
    (hl : w.lookupLabel lbl = some (some t)) :
    t = (w.resolvedCode items).length ∨ ∃ i, (t, i) ∈ w.visits items := by
  rw [h.length_resolvedCode, h.length_code]
  exact (h.labels _ _ hl).cases.imp_right fun ⟨_, hx⟩ => ⟨_, mem_map_of_mem hx⟩

/-- The resolution keeps the bytes of the items that wait for no label. -/
theorem resolvedCode_agree (h : Emitted w items) {p : ℕ × Item}
    (hp : p ∈ place Item.size 0 items) (hlabel : p.2.label = none) {i : ℕ} (hle : p.1 ≤ i)
    (hlt : i < p.1 + p.2.size) : (w.resolvedCode items)[i]? = w.code[i]? := by
  rw [h.code]
  refine flatMap_place_agree (fun p _ => Item.size_resolved _ p) (fun _ _ => rfl) hp ?_
    (by omega) (by omega)
  obtain ⟨start, _ | _ | _⟩ := p
  · rfl
  · cases hlabel
  · cases hlabel

/-- The resolution keeps the constants that no decoded forward jump names. -/
theorem resolvedPool_agree {idx : ℕ}
    (hne : ∀ (g : Forward) (start : ℕ), (start, g.const ⟨idx⟩) ∉ w.visits items) :
    (w.resolvedPool items)[idx]? = w.constPool[idx]? := by
  refine foldl_set_of_notMem (fun hmem => ?_) _
  obtain ⟨⟨_, entry⟩, he, rfl⟩ := mem_map.mp hmem
  obtain ⟨⟨start, _ | _ | ⟨g, idx, lbl⟩⟩, hp, hwrite⟩ := mem_filterMap.mp he
  · cases hwrite
  · cases hwrite
  · simp only [Item.poolWrite] at hwrite
    split_ifs at hwrite with hfit
    cases hwrite
    refine hne g start (mem_map.mpr ⟨_, hp, ?_⟩)
    simp [Item.resolved, hfit]

end Emitted

/-- The jumps of a generated function are resolved, for every reading of the constants that reads
the distances of this code back. -/
theorem Emitted.jumpsResolved {calls : List Call} {items : List Item} (h : Emitted w items)
    (hitems : List.Forall₂ (Emits w) (calls.filter Call.emits) (place Item.size 0 items))
    (hr : new.run calls = some w) (hcode : w.code.length < 2 ^ 32)
    (hfcode : f.code = w.resolvedCode items) (hfpool : f.constPool = w.resolvedPool items)
    (hdecodes : List.Forall₂ (Decodes (fun lbl t => w.lookupLabel lbl = some (some t)) f.constPool)
      (calls.filter Call.emits) (w.visits items))
    (hval : ∀ distance ≤ w.code.length, ReadsBack val distance) :
    JumpsResolved val calls w f (w.visits items) where
  jumps k start i hk hi := by
    obtain ⟨c, hc, hd⟩ := forall₂_getElem? hdecodes hk
    obtain ⟨lbl, t, hlbl, hl, htarget⟩ := hd.jumpTarget hi fun lbl t hl => hval _ <| by
      have hle := (h.labels _ _ hl).le
      rw [← h.length_code] at hle
      omega
    refine ⟨c, lbl, t, hc, hlbl, boundAt_of_lookup hr hcode hl, htarget, ?_⟩
    rw [hfcode]
    exact h.target_visits hl
  length_code := hfcode ▸ h.length_resolvedCode
  code k start stop c hc htarget hstart hstop i hle hlt := by
    have hfst : (w.visits items).map Prod.fst = (place Item.size 0 items).map Prod.fst := by
      simp [visits]
    rw [hfcode, h.length_resolvedCode, h.length_code, hfst] at hstart hstop
    have hlen : k < (place Item.size 0 items).length := by
      rw [← hitems.length_eq]
      exact (List.getElem?_eq_some_iff.mp hc).1
    obtain ⟨p, hp⟩ : ∃ p, (place Item.size 0 items)[k]? = some p := ⟨_, getElem?_eq_getElem hlen⟩
    have hnext := place_next hp
    rw [Nat.zero_add] at hnext
    have hstop' : stop = p.1 + p.2.size := Option.some.inj (hstop.symm.trans hnext)
    have hstart' : start = p.1 := by
      rw [getElem?_append_left (by simpa using hlen), getElem?_map, hp] at hstart
      exact (Option.some.inj hstart).symm
    obtain ⟨c', hc', hemits⟩ := forall₂_getElem? hitems hp
    obtain rfl : c = c' := Option.some.inj (hc.symm.trans hc')
    have hlabel : p.2.label = none := by
      cases hp' : p.2.label with
      | none => rfl
      | some lbl => exact absurd (hemits.label hp') (by simp [htarget])
    rw [hfcode]
    exact h.resolvedCode_agree (mem_of_getElem? hp) hlabel (by omega) (by omega)
  length_constPool := by
    rw [hfpool]
    exact length_foldl_set _ _
  constPool idx hne := hfpool ▸ resolvedPool_agree hne

/-- **The jumps of every generated function are resolved.** The constants of the jumps through the
pool are read as unsigned numbers; in code below `2 ^ 31` bytes the signed numbers are the same. -/
theorem jumpsResolved_generate {calls : List Call} {w : BytecodeWriter} {f : BytecodeFunction}
    (hb : ∀ c ∈ calls, c.Bounded) (hr : new.run calls = some w)
    (hg : w.generate = some f) (hcode : w.code.length < 2 ^ 32)
    (hpool : w.constPool.length ≤ 2 ^ 32) :
    ∃ visits reader, BytecodeReader.read f.code = some (visits, reader) ∧
      JumpsResolved (fun v => v.toNat) calls w f visits ∧
      (w.code.length < 2 ^ 31 → JumpsResolved BitVec.toInt calls w f visits) := by
  obtain ⟨items, h, hitems⟩ := Emitted.run hb hr hcode hpool
  obtain ⟨f', reader, hg', hread, -, hfcode, hfpool, hdecodes⟩ :=
    h.read_decodes hitems (h.labelsFit hcode) fun _ hit _ hlbl => h.bound hg hit hlbl
  obtain rfl : f = f' := Option.some.inj (hg.symm.trans hg')
  refine ⟨w.visits items, reader, hread, ?_, fun hsmall => ?_⟩
  · exact h.jumpsResolved hitems hr hcode hfcode hfpool hdecodes fun d hd =>
      readsBack_toNat (by omega)
  · exact h.jumpsResolved hitems hr hcode hfcode hfpool hdecodes fun d hd =>
      readsBack_toInt (by omega)

theorem jumpsResolved_generate_sampleCalls :
    ∃ w f visits reader, new.run sampleCalls = some w ∧ w.generate = some f ∧
      BytecodeReader.read f.code = some (visits, reader) ∧
      JumpsResolved BitVec.toInt sampleCalls w f visits := by
  have hb : ∀ c ∈ sampleCalls, c.Bounded := by
    simp [sampleCalls, Call.Bounded, Call.view, operands, Forward.cond]
  obtain ⟨visits, reader, hread, -, h⟩ := jumpsResolved_generate hb rfl rfl (by decide) (by decide)
  exact ⟨_, _, visits, reader, rfl, rfl, hread, h (by decide)⟩

/-! ## A jump too far for a signed constant -/

/-- A jump over `n` bytes of code. -/
def farCalls (n : ℕ) : List Call :=
  .createLabel :: .emitJump ⟨0⟩ :: (replicate n .emitLoopStart ++ [.bindLabel ⟨0⟩])

theorem run_replicate_loopStart (hp : w.position = none) (n : ℕ) :
    w.run (replicate n .emitLoopStart) = some (w.append (replicate n loopStart.toU8)) := by
  induction n generalizing w with
  | zero => exact congrArg some w.append_nil.symm
  | succ n ih =>
    have hexec : w.exec .emitLoopStart = some (w.append [loopStart.toU8]) := by
      simp [exec, emitOp, emitValues_eq, settlePosition, needsPosition, hp]
    rw [replicate_succ, run, foldlM_cons, hexec]
    refine (ih (w := w.append [loopStart.toU8]) hp).trans ?_
    simp [replicate_succ]

/-- The writer after the far jump. -/
def farWriter (n : ℕ) : BytecodeWriter :=
  { code := [jumpConst.toU8, 0] ++ replicate n loopStart.toU8
    labelOffsets := [some (n + 2)]
    unresolvedJumpConsts := [(0, ⟨0⟩, ⟨0⟩)]
    constPool := [.int32 0] }

theorem run_farCalls (hn : n + 2 < 2 ^ 32) : new.run (farCalls n) = some (farWriter n) := by
  let v : BytecodeWriter :=
    { code := [jumpConst.toU8, 0], labelOffsets := [none],
      unresolvedJumpConsts := [(0, ⟨0⟩, ⟨0⟩)], constPool := [.int32 0] }
  have hloops := run_replicate_loopStart (w := v) rfl n
  have hbind : (v.append (replicate n loopStart.toU8)).exec (.bindLabel ⟨0⟩) =
      some (farWriter n) := by
    have hoffset : (v.append (replicate n loopStart.toU8)).offset = n + 2 := by
      simp only [offset, append, v, length_append, length_replicate, length_cons, length_nil]
      rw [asU32_of_lt (by omega)]
      omega
    simp only [exec, bindLabel, hoffset]
    rfl
  change v.run (replicate n .emitLoopStart ++ [.bindLabel ⟨0⟩]) = _
  rw [run, foldlM_append]
  change (v.run (replicate n .emitLoopStart)).bind _ = _
  rw [hloops]
  simpa using hbind

theorem generate_farWriter (hn : n + 2 < 2 ^ 32) (hfar : 255 < n + 2) :
    (farWriter n).generate = some
      { code := (farWriter n).code, constPool := [.int32 (BitVec.ofNat 32 (n + 2))],
        registers := [], arguments := 0, positions := [], params := [], returnType := none } := by
  have hround := resolveJumpConst_item
    (w := { farWriter n with unresolvedJumpConsts := [] })
    (show _ = [] ++ ((Item.const .jump ⟨0⟩ ⟨0⟩).coded.bytes ++ _) from rfl) rfl (by simp) hn
    Nat.zero_lt_one
  have hfit : fitsU8 (n + 2) = false := decide_eq_false (by omega)
  simp only [length_nil, Nat.sub_zero, hfit] at hround
  have hresolve : (farWriter n).resolveForwardJumps =
      (resolveJumpConst { farWriter n with unresolvedJumpConsts := [] }
        (0, ⟨0⟩, ⟨0⟩)).bind some := rfl
  rw [generate, hresolve, hround]
  rfl

theorem read_farWriter (n : ℕ) : ∃ visits reader,
    BytecodeReader.read (farWriter n).code = some ((0, .jumpConst ⟨0⟩) :: visits, reader) := by
  have hloops : (replicate n (Coded.mk .normal .loopStart)).flatMap Coded.bytes =
      replicate n loopStart.toU8 := by
    induction n with
    | zero => rfl
    | succ n ih => rw [replicate_succ, flatMap_cons, ih, replicate_succ]; rfl
  have hfits : ∀ item ∈ Coded.mk .normal (.jumpConst ⟨0⟩) ::
      replicate n (Coded.mk .normal .loopStart), item.Fits := by
    intro item hitem
    rcases mem_cons.mp hitem with rfl | hitem
    · simp [Coded.Fits, Fits, operands, OperandWidth.Fits]
    · rw [eq_of_mem_replicate hitem]
      simp [Coded.Fits, Fits, operands]
  obtain ⟨reader, hread, -⟩ := BytecodeReader.read_encode _ hfits
  rw [flatMap_cons, hloops] at hread
  exact ⟨_, reader, hread⟩

/-- The jump over `2 ^ 31` bytes: read as a signed number, its constant is negative. -/
theorem not_jumpsResolved_far :
    ∃ calls w f, (∀ c ∈ calls, c.Bounded) ∧ new.run calls = some w ∧
      w.generate = some f ∧ ¬ ∃ visits reader, BytecodeReader.read f.code = some (visits, reader) ∧
        JumpsResolved BitVec.toInt calls w f visits := by
  refine ⟨farCalls (2 ^ 31), farWriter (2 ^ 31), _, ?_, run_farCalls (by omega),
    generate_farWriter (by omega) (by omega), ?_⟩
  · intro c hc
    simp only [farCalls, mem_cons, mem_append, not_mem_nil, or_false] at hc
    rcases hc with rfl | rfl | hc | rfl
    · trivial
    · simp [Call.Bounded, Call.view, Forward.cond]
    · rw [eq_of_mem_replicate hc]
      simp [Call.Bounded, Call.view, operands]
    · trivial
  · rintro ⟨visits, reader, hread, h⟩
    obtain ⟨visits', reader', hread'⟩ := read_farWriter (2 ^ 31)
    obtain ⟨rfl, -⟩ := Prod.mk.inj (Option.some.inj (hread.symm.trans hread'))
    obtain ⟨c, lbl, t, -, -, -, htarget, -⟩ := h.jumps 0 0 _ rfl rfl
    have hneg : (BitVec.ofNat 32 (2 ^ 31 + 2)).toInt = -2 ^ 31 + 2 := by decide
    simp only [jumpTarget, distanceConst,
      getElem?_cons_zero, map_some, Option.some.injEq] at htarget
    omega

end Dora.Bytecode
