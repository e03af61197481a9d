import Dora.Asm.X64Assembler
import Dora.Asm.X64Operands

/-!
# Labels of the x64 assembler

What a call has appended is a slice of the code, before and after the displacements are filled in.
For a jump this slice is decoded.

## Main definitions

* `LabelsResolved`: the jumps of some calls in the final code

## Main results

* `AssemblerX64.step_jump`: what a jump does, whatever its kind
* `resolvable_iff`: when the jumps can be resolved
* `x64_labels_resolved`: `finalize` returns exactly then, and the labels are resolved
-/

namespace Dora.Asm

open Emission Fixups X64 List Option ForwardJump Int32
open Assembler hiding append resolveJumps alignTo finalize
open Code (Grows)

namespace ForwardJump

/-- The size of the displacement. -/
def size (j : ForwardJump) : ℕ :=
  match j.distance with
  | .near => 1
  | .far => 4

/-- The displacement for the position of the label. -/
def displacement (j : ForwardJump) (target : ℕ) : Int32 :=
  ofNat target - (ofNat j.offset + ofNat j.size)

/-- The bytes of the displacement, if the label is bound and the displacement fits. -/
def encode (labels : List (Option ℕ)) (j : ForwardJump) : Option (List UInt8) :=
  match labels[j.label]? with
  | some (some target) =>
    match j.distance with
    | .near =>
      if -128 ≤ j.displacement target ∧ j.displacement target < 128 then
        some [(j.displacement target).toUInt32.toUInt8]
      else none
    | .far => some (le32 (j.displacement target).toUInt32)
  | _ => none

theorem length_encode {labels : List (Option ℕ)} {j : ForwardJump} {bytes : List UInt8}
    (h : j.encode labels = some bytes) : bytes.length = j.size := by
  obtain ⟨offset, label, distance⟩ := j
  rw [encode] at h
  split at h
  · cases distance with
    | near =>
      dsimp only at h
      split at h
      · cases h
        rfl
      · cases h
    | far =>
      cases h
      rfl
  · cases h

instance : Fixup UInt8 ForwardJump where
  start := offset
  size := size
  encode := encode
  length_encode _ _ _ := length_encode

end ForwardJump

namespace AssemblerX64

variable {a a' : AssemblerX64}

theorem emit_bytes (h : a.AtEnd) (bs : List UInt8) : a.emit (bytes bs) = some (a.append bs) :=
  write_eq h bs

theorem exists_append_of_emit (h : a.AtEnd) {e : Emission} (he : a.emit e = some a') :
    ∃ bs, e = bytes bs ∧ a' = a.append bs := by
  cases e with
  | none => cases he
  | some bs => exact ⟨bs, rfl, (Option.some.inj ((emit_bytes h bs).symm.trans he)).symm⟩

theorem grows_append (a : AssemblerX64) (bs : List UInt8) :
    Grows a.view (a.append bs).view := Grows.append a.view bs

/-! ### Jumps -/

/-- A jump with a missing displacement: an opcode, the field, and the fixup. -/
def forward (a : AssemblerX64) (opcode zeros : List UInt8) (target : Label)
    (distance : JumpDistance) : AssemblerX64 where
  unresolvedJumps := a.unresolvedJumps ++ [⟨a.size + opcode.length, target, distance⟩]
  buffer := (a.append (opcode ++ zeros)).buffer

theorem forward_eq (h : a.AtEnd) (opcode zeros : List UInt8) (target : Label)
    (distance : JumpDistance)
    (hstep : ((a.emit (bytes opcode)).bind fun a => (a.pushJump target distance).bind fun a =>
      a.emit (bytes zeros)) = some a') :
    a' = a.forward opcode zeros target distance := by
  rw [emit_bytes h, bind_some, pushJump, toU32] at hstep
  rw [show (a.append opcode).position = _ from a.size_append opcode] at hstep
  by_cases hlt : a.size + opcode.length < 2 ^ 32
  · rw [if_pos hlt] at hstep
    have hend : AtEnd ⟨a.unresolvedJumps ++
        [⟨a.size + opcode.length, target, distance⟩], (a.append opcode).buffer⟩ := rfl
    have h' := (emit_bytes hend zeros).symm.trans hstep
    cases h'
    simp [Assembler.append, Assembler.size, forward]
  · rw [if_neg hlt] at hstep
    cases hstep

theorem length_forward (a : AssemblerX64) (opcode zeros : List UInt8) (target : Label)
    (distance : JumpDistance) : (a.forward opcode zeros target distance).size =
      a.size + opcode.length + zeros.length := by
  rw [Nat.add_assoc, ← List.length_append]
  exact a.size_append (opcode ++ zeros)

theorem grows_forward (a : AssemblerX64) (opcode : List UInt8) {zeros : List UInt8}
    (target : Label) {distance : JumpDistance}
    (hsize : ∀ offset, (ForwardJump.mk offset target distance).size = zeros.length) :
    Grows a.view (a.forward opcode zeros target distance).view := by
  refine Grows.jump a.view (opcode ++ zeros) (Nat.le_add_right _ _) ?_
  have h := hsize (a.size + opcode.length)
  rw [List.length_append, ← Nat.add_assoc, ← h]
  exact Nat.le_refl _

/-- How a kind of jump is encoded. -/
structure Opcodes (kind : JumpKind) (short far : List UInt8) : Prop where
  length_short : short.length = 1
  decode_short : ∀ d, decodeJump (short ++ [d]) = some ⟨kind, short.length, signed 8 (leNat [d])⟩
  decode_far : ∀ f, f.length = 4 →
    decodeJump (far ++ f) = some ⟨kind, far.length, signed 32 (leNat f)⟩

/-- A jump back: the label is bound and the displacement leads to it, unless the code is too large.
A near jump, and any other jump in the short form, only leads as far as 8 bits allow. -/
def Backward (a a' : AssemblerX64) (kind : JumpKind) (near : Prop) (l : Label) : Prop :=
  ∃ t bs opcodeSize, a.view.target l = some t ∧ a' = a.append bs ∧ ((a.append bs).size < 2 ^ 31 →
      decodeJump bs = some ⟨kind, opcodeSize, (t : ℤ) - (a.append bs).size⟩) ∧
    (near ∨ bs.length = 2 → -128 ≤ (t : ℤ) - (a.append bs).size)

/-- A jump forward: the label is not bound yet, and the displacement is left open. -/
def Forward (a a' : AssemblerX64) (kind : JumpKind) (near : Prop) (l : Label) : Prop :=
  ∃ opcode zeros distance, a.view.target l = none ∧ a' = a.forward opcode zeros l distance ∧
    (near ↔ distance = .near) ∧
    (∀ offset, (ForwardJump.mk offset l distance).size = zeros.length) ∧
    ∀ f, f.length = zeros.length →
      decodeJump (opcode ++ f) = some ⟨kind, opcode.length, signed (8 * zeros.length) (leNat f)⟩

theorem signed_ofInt8 {d : ℤ} (h : -128 ≤ d) (h' : d < 128) :
    signed 8 (leNat [UInt8.ofInt d]) = d := by
  have hn : leNat [UInt8.ofInt d] = (d % 256).toNat := by
    simp only [leNat, UInt8.ofInt, UInt8.toNat_ofNat']
    omega
  rw [hn, signed]
  split <;> omega

theorem signed_ofInt32 {d : ℤ} (h : -2 ^ 31 ≤ d) (h' : d < 2 ^ 31) :
    signed 32 (leNat (le32 (UInt32.ofInt d))) = d := by
  have hn : (UInt32.ofInt d).toNat = (d % 2 ^ 32).toNat := by
    simp only [UInt32.ofInt, UInt32.toNat_ofNat']
    omega
  rw [leNat_le32, hn, signed]
  split <;> omega

section JumpTo

variable {kind : JumpKind} {short far : List UInt8} {l : Label}

theorem backward_short (hop : Opcodes kind short far) (near : Prop) {t : ℕ}
    (ht : a.view.target l = some t) (hle : t ≤ a.size)
    (h : -128 ≤ -((a.size + 2 - t : ℕ) : ℤ)) :
    Backward a (a.append (short ++ [UInt8.ofInt (-((a.size + 2 - t : ℕ) : ℤ))])) kind
      near l := by
  generalize hd : -((a.size + 2 - t : ℕ) : ℤ) = d at h ⊢
  have hlen : (a.append (short ++ [UInt8.ofInt d])).size = a.size + 2 := by
    simp [hop.length_short]
  refine ⟨t, _, short.length, ht, rfl, fun _ => ?_, fun _ => ?_⟩
  · rw [hop.decode_short, signed_ofInt8 h (by omega), hlen]
    congr 2
    omega
  · rw [hlen]
    omega

theorem jumpTo_inv (hend : a.AtEnd) (hop : Opcodes kind short far)
    (hstep : a.jumpTo short far (far.length + 4) l = some a') :
    Backward a a' kind False l ∨ Forward a a' kind False l := by
  obtain ⟨v, hv, hstep⟩ := bind_eq_some_iff.mp hstep
  have htarget := target_of_offset hv
  have hpos : a.position = a.size := hend
  cases v with
  | none =>
    right
    have h := forward_eq hend far (le32 0) l .far hstep
    exact ⟨far, le32 0, .far, htarget, h, by simp, fun _ => rfl, hop.decode_far⟩
  | some t =>
    left
    dsimp only at hstep
    rw [hpos] at hstep
    split_ifs at hstep with hle h2 h128
    · obtain rfl := Option.some.inj ((emit_bytes hend _).symm.trans hstep)
      exact backward_short hop False htarget hle h128
    · -- the far form ends `far.length + 4` bytes later
      generalize hd : -((a.size + (far.length + 4) - t : ℕ) : ℤ) = d at hstep
      obtain rfl := Option.some.inj ((emit_bytes hend _).symm.trans hstep)
      have hlen : (a.append (far ++ le32 (UInt32.ofInt d))).size = a.size + (far.length + 4) := by
        simp [le32]
      refine ⟨t, _, far.length, htarget, rfl, fun hsize => ?_, fun hshort => ?_⟩
      · rw [hlen] at hsize
        rw [hop.decode_far _ rfl, signed_ofInt32 (by omega) (by omega), hlen]
        congr 2
        omega
      · rcases hshort with hshort | hshort
        · exact hshort.elim
        · simp [le32] at hshort

theorem jumpNearTo_inv (hend : a.AtEnd) (hop : Opcodes kind short far)
    (hstep : a.jumpNearTo short l = some a') :
    Backward a a' kind True l ∨ Forward a a' kind True l := by
  obtain ⟨v, hv, hstep⟩ := bind_eq_some_iff.mp hstep
  have htarget := target_of_offset hv
  have hpos : a.position = a.size := hend
  cases v with
  | none =>
    right
    have h := forward_eq hend short [0] l .near hstep
    refine ⟨short, [0], .near, htarget, h, by simp, fun _ => rfl, fun f hf => ?_⟩
    obtain ⟨d, rfl⟩ := length_eq_one_iff.mp hf
    exact hop.decode_short d
  | some t =>
    left
    dsimp only at hstep
    rw [hpos] at hstep
    split_ifs at hstep with hle h2
    obtain rfl := Option.some.inj ((emit_bytes hend _).symm.trans hstep)
    exact backward_short hop True htarget hle h2.1

end JumpTo

end AssemblerX64

/-! ### Calls -/

/-- The jump that a call stands for. -/
structure JumpCall where
  kind : JumpKind
  near : Bool
  target : Label

def Call.jump : Call → Option JumpCall
  | .jcc condition target => some ⟨.jcc condition.int.toNat, false, target⟩
  | .jccNear condition target => some ⟨.jcc condition.int.toNat, true, target⟩
  | .jmp target => some ⟨.jmp, false, target⟩
  | .jmpNear target => some ⟨.jmp, true, target⟩
  | _ => none

namespace AssemblerX64

variable {a a' : AssemblerX64} {c : Call} {calls : List Call}

theorem opcodes_jmp : Opcodes .jmp [0xEB] [0xE9] := by
  refine ⟨rfl, fun d => rfl, fun f hf => ?_⟩
  exact if_pos hf

theorem opcodes_jcc (condition : Condition) :
    Opcodes (.jcc condition.int.toNat) [0x70 + condition.int] [0x0F, 0x80 + condition.int] := by
  refine ⟨rfl, fun d => ?_, fun f hf => ?_⟩
  · cases condition <;> rfl
  · cases condition <;> exact if_pos hf

/-- **What a jump does**, whatever its kind. -/
theorem step_jump {j : JumpCall} (hc : c.jump = some j) (hend : a.AtEnd)
    (hstep : a.step c = some a') :
    Backward a a' j.kind (j.near = true) j.target ∨
      Forward a a' j.kind (j.near = true) j.target := by
  have hf : (false = true) = False := by simp
  have ht : (true = true) = True := by simp
  cases c with
  | jcc condition target =>
    cases hc
    rw [hf]
    exact jumpTo_inv hend (opcodes_jcc condition) hstep
  | jccNear condition target =>
    cases hc
    rw [ht]
    exact jumpNearTo_inv hend (opcodes_jcc condition) hstep
  | jmp target =>
    cases hc
    rw [hf]
    exact jumpTo_inv hend opcodes_jmp hstep
  | jmpNear target =>
    cases hc
    rw [ht]
    exact jumpNearTo_inv hend opcodes_jmp hstep
  | _ => cases hc

/-- **What a call does**: it appends code, jumps, or creates or binds a label. -/
inductive Effect (a : AssemblerX64) : Call → AssemblerX64 → Prop
  | append {c : Call} (bs : List UInt8) (hc : c.jump = none) : Effect a c (a.append bs)
  | backward {c : Call} {j : JumpCall} {a' : AssemblerX64} (hc : c.jump = some j)
    (h : Backward a a' j.kind (j.near = true) j.target) : Effect a c a'
  | forward {c : Call} {j : JumpCall} {a' : AssemblerX64} (hc : c.jump = some j)
    (h : Forward a a' j.kind (j.near = true) j.target) : Effect a c a'
  | create : Effect a .createLabel (a.withLabels (a.buffer.labels ++ [none]))
  | createBound : Effect a .createAndBindLabel
      (a.withLabels (a.buffer.labels ++ [some a.size]))
  | bind {l : Label} (h : a.buffer.labels[l]? = some none) : Effect a (.bindLabel l)
      (a.withLabels (a.buffer.labels.set l (some a.size)))

theorem step_effect (hend : a.AtEnd) (hstep : a.step c = some a') : Effect a c a' := by
  have hwrite {bs : List UInt8} (h : a.withBuffer (a.buffer.write bs) = some a')
      (hc : c.jump = none) : Effect a c a' := by
    obtain rfl := Option.some.inj ((write_eq hend bs).symm.trans h)
    exact .append bs hc
  have hemit {e : Emission} (h : a.emit e = some a') (hc : c.jump = none) : Effect a c a' := by
    obtain ⟨bs, -, rfl⟩ := exists_append_of_emit hend h
    exact .append bs hc
  cases hc : c.jump with
  | some j =>
    rcases step_jump hc hend hstep with h | h
    · exact .backward hc h
    · exact .forward hc h
  | none =>
    cases c with
    | inst inst | mem inst form => exact hemit hstep rfl
    | emitU8 value | emitU32 value | emitU64 value => exact hwrite hstep rfl
    | createLabel =>
      cases hstep
      rw [createLabel_eq hend]
      exact .create
    | createAndBindLabel =>
      obtain rfl := createAndBindLabel_inv hend hstep
      exact .createBound
    | bindLabel l =>
      obtain ⟨hl, rfl⟩ := bindLabel_inv hend hstep
      exact .bind hl
    | jcc | jccNear | jmp | jmpNear => cases hc

/-- **Every call lets the code grow.** -/
theorem step_grows (hend : a.AtEnd) (hstep : a.step c = some a') :
    a'.AtEnd ∧ Grows a.view a'.view := by
  cases step_effect hend hstep with
  | append bs => exact ⟨rfl, grows_append a bs⟩
  | backward hc h =>
    obtain ⟨t, bs, opcodeSize, -, rfl, -⟩ := h
    exact ⟨rfl, grows_append a bs⟩
  | forward hc h =>
    obtain ⟨opcode, zeros, distance, -, rfl, -, hsize, -⟩ := h
    exact ⟨rfl, grows_forward a opcode _ hsize⟩
  | create => exact ⟨rfl, Grows.create a.view fun t h => nomatch h⟩
  | createBound => exact ⟨rfl, Grows.create a.view fun t h => (Option.some.inj h).symm⟩
  | bind h => exact ⟨rfl, Grows.bind a.view h⟩

theorem run_grows (h : run step calls a = some a') (hend : a.AtEnd) :
    a'.AtEnd ∧ Grows a.view a'.view := by
  refine run_induction
    (P := fun a a' => a.AtEnd → a'.AtEnd ∧ Grows a.view a'.view)
    (fun a h => ⟨h, .refl _⟩) (fun a1 a2 a3 h₁ h₂ h => ?_)
    (fun a c a' hstep hend => step_grows hend hstep) h hend
  obtain ⟨h2', hg1⟩ := h₁ h
  obtain ⟨h3', hg2⟩ := h₂ h2'
  exact ⟨h3', hg1.trans hg2⟩

/-! ### Resolving -/

theorem resolveJump_eq (b : AssemblerBuffer) (j : ForwardJump)
    (h : j.offset + j.size ≤ b.code.length) :
    (resolveJump b j).map AssemblerBuffer.view =
      (j.encode b.labels).map fun bytes => (patch b.code j.offset bytes, b.labels) := by
  obtain ⟨offset, label, distance⟩ := j
  rw [resolveJump, encode, AssemblerBuffer.offset]
  cases hl : b.labels[label]? with
  | none => rfl
  | some v =>
    cases v with
    | none => rfl
    | some t =>
      cases distance with
      | near =>
        change Option.map _ (ite _ ((b.setPosition offset).write [_]) none) =
          Option.map _ (ite (-128 ≤ ofNat t - (ofNat offset + 1) ∧
            ofNat t - (ofNat offset + 1) < 128) (some [_]) none)
        split
        · exact AssemblerBuffer.write_within [_] (Nat.succ_pos 0) h
        · rfl
      | far => exact AssemblerBuffer.write_within (le32 _) (Nat.succ_pos 3) h

/-- The remainder is not zero and grows by one. -/
theorem padding_lt {size alignment : ℕ} (h0 : alignment ≠ 0) (hr : size % alignment ≠ 0) :
    (alignment - (size + 1) % alignment) % alignment <
      (alignment - size % alignment) % alignment := by
  have hlt := Nat.mod_lt size (Nat.pos_of_ne_zero h0)
  rw [Nat.mod_eq_of_lt (show alignment - size % alignment < alignment by omega), ← Nat.mod_add_mod]
  by_cases hlast : size % alignment + 1 = alignment
  · rw [hlast, Nat.mod_self, Nat.sub_zero, Nat.mod_self]
    omega
  · rw [Nat.mod_eq_of_lt (a := size % alignment + 1) (by omega), Nat.mod_eq_of_lt (by omega)]
    omega

theorem alignTo_eq {alignment : ℕ} (h0 : alignment ≠ 0) (hend : a.AtEnd) :
    ∃ pad a', a.alignTo alignment = some a' ∧ a'.buffer.code = a.buffer.code ++ pad := by
  rw [alignTo, Assembler.alignTo, if_neg h0]
  have hstep : ∀ a' : AssemblerX64, (a'.AtEnd ∧ ∃ pad, a'.buffer.code = a.buffer.code ++ pad) →
      decide (a'.buffer.code.length % alignment ≠ 0) = true →
      ∃ a'', emit a' Inst.int3.emit = some a'' ∧
        (a''.AtEnd ∧ ∃ pad, a''.buffer.code = a.buffer.code ++ pad) ∧
        (alignment - a''.size % alignment) % alignment <
          (alignment - a'.size % alignment) % alignment := by
    rintro a' ⟨hend', pad, hpad⟩ hcond
    refine ⟨a'.append [0xCC], emit_bytes hend' [0xCC], ⟨rfl, pad ++ [0xCC], ?_⟩, ?_⟩
    · rw [Assembler.append, hpad, List.append_assoc]
    · rw [Assembler.size_append]
      exact padding_lt h0 (of_decide_eq_true hcond)
  obtain ⟨a', ha', ⟨-, pad, hpad⟩, -⟩ := whileLoop_total _ hstep
    ⟨hend, [], (List.append_nil _).symm⟩
    (Nat.lt_succ_of_lt (Nat.mod_lt _ (Nat.pos_of_ne_zero h0)))
  exact ⟨pad, a', ha', hpad⟩

/-- `finalize` returns the resolved code, filled up behind its end, or fails. -/
theorem finalize_eq (hg : Grows Code.empty a.view) (hend : a.AtEnd) {alignment : Option ℕ}
    (h0 : alignment ≠ some 0) :
    if a.view.Resolvable then ∃ pad, a.finalize alignment = some (a.view.resolved ++ pad)
    else a.finalize alignment = none := by
  have h := resolveJumps_eq resolveJump_eq hg
  by_cases hres : a.view.Resolvable
  · rw [if_pos hres] at h ⊢
    cases alignment with
    | none =>
      refine ⟨[], ?_⟩
      rw [finalize, finalize_none_eq resolveJump_eq hg, if_pos hres, append_nil]
    | some n =>
      obtain ⟨pad, a', ha', hpad⟩ := alignTo_eq
        (a := ⟨[], a.view.resolved, a.position, a.buffer.labels⟩) (fun hn => h0 (congrArg some hn))
        (hend.trans (Grows.length_resolved hres hg).symm)
      refine ⟨pad, ?_⟩
      rw [finalize, Assembler.finalize, h, ← hpad]
      change (alignTo _ n).map _ = _
      rw [ha']
      rfl
  · rw [if_neg hres] at h ⊢
    rw [finalize, Assembler.finalize, h]
    rfl

/-! ### Runs -/

theorem new_grows (hrun : run step calls new = some a) :
    a.AtEnd ∧ Grows Code.empty a.view := run_grows hrun rfl

theorem Occurs.grows {a1 a2 : AssemblerX64} (h : Occurs step new calls a c a1 a2) :
    a1.AtEnd ∧ Grows Code.empty a1.view ∧ a1.step c = some a2 ∧ Grows a2.view a.view := by
  obtain ⟨pre, post, -, hpre, hstep, hpost⟩ := h
  obtain ⟨hend, hg⟩ := new_grows hpre
  exact ⟨hend, hg, hstep, (run_grows hpost (step_grows hend hstep).1).2⟩

/-- A fixup is recorded by a jump forward, and its field is at the end of what the jump appends. -/
theorem step_new_jump {f : ForwardJump} (hend : a.AtEnd) (hstep : a.step c = some a')
    (hf : f ∉ a.unresolvedJumps) (hf' : f ∈ a'.unresolvedJumps) :
    ∃ j, c.jump = some j ∧ Forward a a' j.kind (j.near = true) j.target ∧ f.label = j.target ∧
      (j.near = true ↔ f.distance = .near) ∧ f.offset + f.size = a'.size := by
  cases step_effect hend hstep with
  | backward hc h =>
    obtain ⟨t, bs, opcodeSize, -, rfl, -⟩ := h
    exact absurd hf' hf
  | forward hc h =>
    refine ⟨_, hc, h, ?_⟩
    obtain ⟨opcode, zeros, distance, -, rfl, hnear, hsize, -⟩ := h
    rcases mem_append.mp hf' with hf' | hf'
    · exact absurd hf' hf
    · obtain rfl := mem_singleton.mp hf'
      refine ⟨rfl, hnear, ?_⟩
      rw [hsize, length_forward]
  | _ => exact absurd hf' hf

/-- A label is bound by the calls that bind it, to the end of the code. -/
theorem step_new_target {l t : ℕ} (hend : a.AtEnd) (hstep : a.step c = some a')
    (ht : a.view.target l ≠ some t) (ht' : a'.view.target l = some t) :
    a.size = t ∧ (c = .bindLabel l ∨ c = .createAndBindLabel ∧ l = a.buffer.labels.length) := by
  cases step_effect hend hstep with
  | append bs => exact absurd ht' ht
  | backward hc h =>
    obtain ⟨t, bs, opcodeSize, -, rfl, -⟩ := h
    exact absurd ht' ht
  | forward hc h =>
    obtain ⟨opcode, zeros, distance, -, rfl, -⟩ := h
    exact absurd ht' ht
  | create => cases (Code.eq_of_target_create ht ht').2
  | createBound =>
    obtain ⟨hl, hv⟩ := Code.eq_of_target_create ht ht'
    exact ⟨Option.some.inj hv, .inr ⟨rfl, hl⟩⟩
  | bind hk =>
    obtain ⟨rfl, hlen⟩ := Code.eq_of_target_set (List.getElem?_eq_some_iff.mp hk).1 ht ht'
    exact ⟨hlen, .inl rfl⟩

end AssemblerX64

namespace ForwardJump

variable {j : ForwardJump} {labels : List (Option ℕ)} {t : ℕ} {bytes : List UInt8}

/-- In code that is not too large the displacement does not overflow. -/
theorem toInt_displacement (ht : t < 2 ^ 31) (hj : j.offset + j.size < 2 ^ 31) :
    (j.displacement t).toInt = (t : ℤ) - ((j.offset + j.size : ℕ) : ℤ) := by
  have h {n : ℕ} (hn : n < 2 ^ 31) : (ofNat n).toInt = n := toInt_ofNat_of_lt hn
  have hadd : (ofNat j.offset + ofNat j.size).toInt = ((j.offset + j.size : ℕ)) := by
    rw [toInt_add, h (by omega), h (by omega), Int.natCast_add]
    exact Int.bmod_eq_of_le (by omega) (by omega)
  rw [displacement, toInt_sub, h ht, hadd]
  exact Int.bmod_eq_of_le (by omega) (by omega)

theorem isSome_encode_iff (ht : labels[j.label]? = some (some t)) :
    (j.encode labels).isSome ↔
      (j.distance = .near → -128 ≤ (j.displacement t).toInt ∧ (j.displacement t).toInt < 128) := by
  rw [encode, ht]
  cases hd : j.distance with
  | near =>
    simp only [le_iff_toInt_le, lt_iff_toInt_lt]
    split
    next h => exact iff_of_true rfl fun _ => h
    next h => exact iff_of_false (fun h' => nomatch h') fun h' => h (h' trivial)
  | far => exact iff_of_true rfl fun h => nomatch h

theorem signed_encode (ht : labels[j.label]? = some (some t)) (h : j.encode labels = some bytes) :
    signed (8 * j.size) (leNat bytes) = (j.displacement t).toInt := by
  rw [encode, ht] at h
  rw [size]
  cases hd : j.distance with
  | near =>
    rw [hd] at h
    dsimp only at h ⊢
    split at h
    next hfit =>
      cases h
      rw [← toUInt8_toInt8]
      exact signed_int8 _ ⟨le_iff_toInt_le.mp hfit.1, lt_iff_toInt_lt.mp hfit.2⟩
    next => cases h
  | far =>
    rw [hd] at h
    cases h
    exact signed_le32 _

end ForwardJump

/-! ### The final code -/

open AssemblerX64

/-- **The labels are resolved** in the final code of a sequence of calls, which ends in the
assembler `a` before the jumps are resolved. -/
structure LabelsResolved (calls : List Call) (a : AssemblerX64) (code : List UInt8) : Prop where
  /-- Every jump leads from its end to the position of its label. -/
  jump : ∀ c a1 a2 j, Occurs step .new calls a c a1 a2 → c.jump = some j →
    ∃ t insn, a.view.target j.target = some t ∧
      decodeJump (slice code a1.size (a2.size - a1.size)) = some insn ∧
      insn.kind = j.kind ∧ (a2.size : ℤ) + insn.disp = t
  /-- The short form is used for a jump back only if the distance fits in 8 bits. -/
  short : ∀ c a1 a2 j t, Occurs step .new calls a c a1 a2 → c.jump = some j →
    a1.view.target j.target = some t →
    a2.size - a1.size = 2 → -128 ≤ (t : ℤ) - a2.size ∧ (t : ℤ) - a2.size < 128
  /-- The position of a label is where it was bound. -/
  bound : ∀ l t, a.view.target l = some t → ∃ c a1 a2, Occurs step .new calls a c a1 a2 ∧
    a1.size = t ∧
    (c = .bindLabel l ∨ c = .createAndBindLabel ∧ l = a1.buffer.labels.length)
  /-- Only displacements of jumps are changed. -/
  unchanged : ∀ i < a.size, code[i]? ≠ a.buffer.code[i]? →
    ∃ c a1 a2 j insn, Occurs step .new calls a c a1 a2 ∧ c.jump = some j ∧
      decodeJump (slice code a1.size (a2.size - a1.size)) = some insn ∧
      a1.size + insn.opcodeSize ≤ i ∧ i < a2.size

section Final

variable {calls : List Call} {a a1 a2 : AssemblerX64} {c : Call} {j : JumpCall}
    (hrun : run step calls .new = some a) (hsize : a.size < 2 ^ 31)

/-- The fixup of a jump forward is resolvable exactly if the label is bound in the end and, for a
near jump, not too far away. -/
theorem isSome_encode_of_forward (hg : Grows Code.empty a.view)
    (hsize : a.size < 2 ^ 31) {f : ForwardJump} (hf : f ∈ a.unresolvedJumps) :
    (f.encode a.buffer.labels).isSome ↔ ∃ t, a.view.target f.label = some t ∧ (f.distance = .near →
        -128 ≤ (t : ℤ) - (f.offset + f.size : ℕ) ∧ (t : ℤ) - (f.offset + f.size : ℕ) < 128) := by
  have hfield : f.offset + f.size ≤ a.size := hg.fields.le _ (mem_map_of_mem hf)
  cases ht : a.view.target f.label with
  | none =>
    refine iff_of_false (fun h => ?_) fun ⟨t, h, _⟩ => nomatch h
    obtain ⟨bytes, hbytes⟩ := isSome_iff_exists.mp h
    rw [encode] at hbytes
    split at hbytes
    next t hl =>
      rw [Code.target, view, hl] at ht
      cases ht
    next => cases hbytes
  | some t =>
    have hle : t ≤ a.size := hg.target_le ht
    rw [isSome_encode_iff (getElem?_of_target ht), toInt_displacement (by omega) (by omega)]
    constructor
    · intro h
      exact ⟨t, rfl, h⟩
    · rintro ⟨t', ht', h⟩
      cases ht'
      exact h

include hrun hsize

/-- **When the jumps can be resolved**: every label that is used is bound, and no near jump goes too
far. -/
theorem resolvable_iff :
    a.view.Resolvable ↔ ∀ c a1 a2 j, Occurs step .new calls a c a1 a2 → c.jump = some j →
      ∃ t, a.view.target j.target = some t ∧ (j.near = true →
        -128 ≤ (t : ℤ) - a2.size ∧ (t : ℤ) - a2.size < 128) := by
  obtain ⟨-, hg⟩ := new_grows hrun
  constructor
  · intro hres c a1 a2 j hocc hc
    obtain ⟨hend, hg1, hstep, hg2⟩ := Occurs.grows hocc
    rcases step_jump hc hend hstep with h | h
    · obtain ⟨t, bs, opcodeSize, ht, rfl, -, hnear⟩ := h
      have hgrow : Grows a1.view a.view := (grows_append a1 bs).trans hg2
      have hle : t ≤ a1.size := hg1.target_le ht
      have hlen := a1.size_append bs
      exact ⟨t, hgrow.target _ _ ht, fun hn => ⟨hnear (.inl hn), by omega⟩⟩
    · obtain ⟨opcode, zeros, distance, -, rfl, hnear, hzeros, -⟩ := h
      have hmem := hg2.mem_jumps (mem_append_right a1.unresolvedJumps (mem_singleton_self _))
      obtain ⟨t, ht, hfit⟩ := (isSome_encode_of_forward hg hsize hmem).mp (hres _ hmem)
      rw [hzeros] at hfit
      rw [length_forward]
      exact ⟨t, ht, fun hn => hfit (hnear.mp hn)⟩
  · intro h f hf
    obtain ⟨c, a1, a2, hocc, hf1, hf2⟩ := exists_occurs
      (Q := fun a : AssemblerX64 => f ∈ a.unresolvedJumps) hrun not_mem_nil hf
    obtain ⟨hend, -, hstep, -⟩ := Occurs.grows hocc
    obtain ⟨j, hc, -, hlabel, hnear, hend'⟩ := step_new_jump hend hstep hf1 hf2
    obtain ⟨t, ht, hfit⟩ := h c a1 a2 j hocc hc
    refine (isSome_encode_of_forward hg hsize hf).mpr ⟨t, hlabel ▸ ht, fun hn => ?_⟩
    rw [hend']
    exact hfit (hnear.mpr hn)

/-- Each jump decodes to one that goes to its label. -/
theorem decodeJump_resolved (hres : a.view.Resolvable) (hocc : Occurs step .new calls a c a1 a2)
    (hc : c.jump = some j) :
    ∃ t insn, a.view.target j.target = some t ∧
      decodeJump (slice a.view.resolved a1.size (a2.size - a1.size)) = some insn ∧
      insn.kind = j.kind ∧ (a2.size : ℤ) + insn.disp = t ∧
      ∀ f ∈ a2.unresolvedJumps, f ∉ a1.unresolvedJumps → f.offset = a1.size + insn.opcodeSize := by
  obtain ⟨-, hg⟩ := new_grows hrun
  obtain ⟨hend, hg1, hstep, hg2⟩ := Occurs.grows hocc
  rcases step_jump hc hend hstep with h | h
  · obtain ⟨t, bs, opcodeSize, ht, rfl, hdecode, -⟩ := h
    have hlen := a1.size_append bs
    have hslice : slice a.view.resolved a1.size bs.length = bs :=
      Grows.slice_resolved hres hg hg1 hg2 rfl rfl
    have hle := hg2.length_le
    refine ⟨t, ⟨j.kind, opcodeSize, t - (a1.append bs).size⟩,
      ((grows_append a1 bs).trans hg2).target _ _ ht, ?_, rfl, ?_, ?_⟩
    · have hsub : (a1.append bs).size - a1.size = bs.length := by
        rw [hlen, Nat.add_sub_cancel_left]
      rw [hsub]
      exact (congrArg decodeJump hslice).trans (hdecode (Nat.lt_of_le_of_lt hle hsize))
    · dsimp only
      omega
    · exact fun f hf hf' => absurd hf hf'
  · obtain ⟨opcode, zeros, distance, -, rfl, hnear, hzeros, hdecode⟩ := h
    have hlen := length_forward a1 opcode zeros j.target distance
    have hmem := hg2.mem_jumps (mem_append_right a1.unresolvedJumps (mem_singleton_self _))
    generalize hf : mk (a1.size + opcode.length) j.target distance = f at hmem
    have hfsize : f.size = zeros.length := by rw [← hf, hzeros]
    obtain ⟨bytes, hbytes⟩ := isSome_iff_exists.mp (hres f hmem)
    have hblen : bytes.length = zeros.length := (length_encode hbytes).trans hfsize
    obtain ⟨t, ht, -⟩ := (isSome_encode_of_forward hg hsize hmem).mp (hres f hmem)
    have hfield : f.offset + f.size ≤ a.size := hg.fields.le _ (mem_map_of_mem hmem)
    have htle : t ≤ a.size := hg.target_le ht
    have hslice : slice a.view.resolved a1.size (opcode ++ zeros).length = opcode ++ bytes :=
      Grows.slice_resolved_jump hres hg hg1 hg2 (j := f) rfl (by rw [← hf]; rfl)
        (by rw [← hfsize, ← hf]; rfl) hbytes
    have hlabel : f.label = j.target := by rw [← hf]
    refine ⟨t, ⟨j.kind, opcode.length, signed (8 * zeros.length) (leNat bytes)⟩, hlabel ▸ ht, ?_,
      rfl, ?_, ?_⟩
    · rw [hlen, Nat.add_assoc, Nat.add_sub_cancel_left, ← List.length_append]
      exact (congrArg decodeJump hslice).trans (hdecode bytes hblen)
    · have hd := signed_encode (getElem?_of_target ht) hbytes
      rw [toInt_displacement (by omega) (by omega), hfsize] at hd
      rw [hlen, hd, ← hf]
      dsimp only
      omega
    · intro g hg hg'
      rcases mem_append.mp hg with hg | hg
      · exact absurd hg hg'
      · rw [mem_singleton.mp hg]

theorem labelsResolved (hres : a.view.Resolvable) (pad : List UInt8) :
    LabelsResolved calls a (a.view.resolved ++ pad) := by
  obtain ⟨-, hg⟩ := new_grows hrun
  have hlen : a.view.resolved.length = a.size := Grows.length_resolved hres hg
  have hslice {a1 a2 : AssemblerX64} {c : Call} (hocc : Occurs step .new calls a c a1 a2) :
      slice (a.view.resolved ++ pad) a1.size (a2.size - a1.size) =
        slice a.view.resolved a1.size (a2.size - a1.size) := by
    obtain ⟨hend, -, hstep, hg2⟩ := Occurs.grows hocc
    have h₁ : a1.size ≤ a2.size := (step_grows hend hstep).2.length_le
    have h₂ : a2.size ≤ a.size := hg2.length_le
    exact slice_append_left (by omega)
  refine ⟨fun c a1 a2 j hocc hc => ?_, fun c a1 a2 j t hocc hc ht h2 => ?_, fun l t ht => ?_,
    fun i hi hne => ?_⟩
  · obtain ⟨t, insn, ht, hdecode, hkind, hdisp, -⟩ := decodeJump_resolved hrun hsize hres hocc hc
    exact ⟨t, insn, ht, (hslice hocc).symm ▸ hdecode, hkind, hdisp⟩
  · obtain ⟨hend, hg1, hstep, -⟩ := Occurs.grows hocc
    have hle : t ≤ a1.size := hg1.target_le ht
    rcases step_jump hc hend hstep with h | h
    · obtain ⟨t', bs, opcodeSize, ht', rfl, -, hshort⟩ := h
      obtain rfl := Option.some.inj (ht.symm.trans ht')
      have hlen := a1.size_append bs
      exact ⟨hshort (.inr (by omega)), by omega⟩
    · -- the label was not bound
      obtain ⟨opcode, zeros, distance, hnone, -⟩ := h
      cases hnone.symm.trans ht
  · obtain ⟨c, a1, a2, hocc, ht1, ht2⟩ := exists_occurs
      (Q := fun a : AssemblerX64 => a.view.target l = some t) hrun not_target_new ht
    obtain ⟨hend, -, hstep, -⟩ := Occurs.grows hocc
    obtain ⟨hlen, hc⟩ := step_new_target hend hstep ht1 ht2
    exact ⟨c, a1, a2, hocc, hlen, hc⟩
  · -- a byte that has changed lies in the field of a fixup
    rw [getElem?_append_left (by omega)] at hne
    obtain ⟨f, hf, hlo, hhi⟩ := Grows.exists_field hres hg hne
    change f.offset ≤ i at hlo
    change i < f.offset + f.size at hhi
    obtain ⟨c, a1, a2, hocc, hf1, hf2⟩ := exists_occurs
      (Q := fun a : AssemblerX64 => f ∈ a.unresolvedJumps) hrun not_mem_nil hf
    obtain ⟨hend, -, hstep, -⟩ := Occurs.grows hocc
    obtain ⟨j, hc, -, -, -, hend'⟩ := step_new_jump hend hstep hf1 hf2
    obtain ⟨t, insn, -, hdecode, -, -, hoffset⟩ := decodeJump_resolved hrun hsize hres hocc hc
    have hoff := hoffset f hf2 hf1
    exact ⟨c, a1, a2, j, insn, hocc, hc, (hslice hocc).symm ▸ hdecode, by omega, by omega⟩

end Final

/-- A near jump back succeeds exactly if its distance fits in 8 bits. -/
theorem step_near_iff {a : AssemblerX64} {c : Call} {j : JumpCall} {t : ℕ} (hend : a.AtEnd)
    (hg : Grows Code.empty a.view) (hc : c.jump = some j)
    (hnear : j.near = true) (ht : a.view.target j.target = some t) :
    (∃ a', a.step c = some a') ↔ -128 ≤ (t : ℤ) - (a.size + 2) := by
  have hoffset := getElem?_of_target ht
  have hle : t ≤ a.size := hg.target_le ht
  have hpos : a.position = a.size := hend
  have key (short : List UInt8) : (∃ a', a.jumpNearTo short j.target = some a') ↔
      -128 ≤ (t : ℤ) - (a.size + 2) := by
    have hstep : a.jumpNearTo short j.target =
        if -128 ≤ -((a.size + 2 - t : ℕ) : ℤ) ∧ -((a.size + 2 - t : ℕ) : ℤ) ≤ -2 then
          a.emit (bytes short ++ emitU8 (UInt8.ofInt (-((a.size + 2 - t : ℕ)))))
        else none := by
      rw [jumpNearTo, AssemblerBuffer.offset, hoffset]
      simp only [bind_eq_bind, bind_some, hpos, if_pos hle]
    rw [hstep]
    by_cases hfit : -128 ≤ (t : ℤ) - (a.size + 2)
    · rw [if_pos (by omega)]
      exact iff_of_true ⟨_, emit_bytes hend _⟩ hfit
    · rw [if_neg (by omega)]
      exact iff_of_false (fun ⟨_, h⟩ => nomatch h) hfit
  cases c with
  | jccNear condition target =>
    cases hc
    exact key _
  | jmpNear target =>
    cases hc
    exact key _
  | jcc | jmp =>
    cases hc
    cases hnear
  | _ => cases hc

/-- **Labels**: after any sequence of calls, with code of less than 2^31 bytes, `finalize` returns
exactly if all labels that are used are bound and no near jump goes too far; otherwise an assertion
fails. In the code that it returns every jump leads to the position at which its label was bound,
and no byte other than displacements has changed. A near jump back whose distance does not fit fails
when it is emitted. -/
theorem x64_labels_resolved {calls : List Call} {a : AssemblerX64}
    (hrun : run step calls .new = some a) (hsize : a.size < 2 ^ 31)
    {alignment : Option ℕ} (halign : alignment ≠ some 0) :
    ((∃ code, a.finalize alignment = some code) ↔
      ∀ c a1 a2 j, Occurs step .new calls a c a1 a2 → c.jump = some j →
        ∃ t, a.view.target j.target = some t ∧ (j.near = true →
          -128 ≤ (t : ℤ) - a2.size ∧ (t : ℤ) - a2.size < 128)) ∧
    (∀ code, a.finalize alignment = some code → LabelsResolved calls a code) ∧
    ∀ c j t, c.jump = some j → j.near = true → a.view.target j.target = some t →
      ((∃ a', a.step c = some a') ↔ -128 ≤ (t : ℤ) - (a.size + 2)) := by
  obtain ⟨hend, hg⟩ := new_grows hrun
  have hfinal := finalize_eq hg hend halign
  refine ⟨?_, fun code hcode => ?_, fun c j t hc hnear ht => step_near_iff hend hg hc hnear ht⟩
  · rw [← resolvable_iff hrun hsize]
    by_cases hres : a.view.Resolvable
    · rw [if_pos hres] at hfinal
      obtain ⟨pad, hpad⟩ := hfinal
      exact iff_of_true ⟨_, hpad⟩ hres
    · rw [if_neg hres] at hfinal
      exact iff_of_false (fun ⟨_, h⟩ => nomatch hfinal.symm.trans h) hres
  · by_cases hres : a.view.Resolvable
    · rw [if_pos hres] at hfinal
      obtain ⟨pad, hpad⟩ := hfinal
      obtain rfl := Option.some.inj (hpad.symm.trans hcode)
      exact labelsResolved hrun hsize hres pad
    · rw [if_neg hres] at hfinal
      cases hfinal.symm.trans hcode

/-- A jump forward over a loop. -/
def loopCalls : List Call :=
  [.createLabel, .jmp 0, .createAndBindLabel, .inst .nop, .jccNear .equal 1, .bindLabel 0,
    .inst .retq]

theorem x64_labels_resolved_loop :
    ∃ a code, run step loopCalls .new = some a ∧ a.finalize (some 16) = some code ∧
      LabelsResolved loopCalls a code := by
  have hrun : (run step loopCalls .new).map (fun a =>
      decide (a.size < 2 ^ 31 ∧ (a.finalize (some 16)).isSome)) = some true := by
    decide +kernel
  obtain ⟨a, ha, hend⟩ := map_eq_some_iff.mp hrun
  obtain ⟨hsize, hcode⟩ := of_decide_eq_true hend
  obtain ⟨code, hcode⟩ := isSome_iff_exists.mp hcode
  have halign : some 16 ≠ some 0 := by decide
  exact ⟨a, code, ha, hcode, (x64_labels_resolved ha hsize halign).2.1 code hcode⟩

end Dora.Asm
