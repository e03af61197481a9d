import Dora.Lib.Layout
import Dora.Stdlib.Strings

/-!
# Round trips through a string

The mask of the first of four bytes keeps two bits, not three.

## Main definitions

* `RoundTrip`: characters survive a string buffer

## Main results

* `encodeUtf8_eq`: the encoder writes UTF-8
* `CodepointIterator.readChar_eq`: the decoder reads it back, without bit 20
* `roundTrip_iff`: which characters survive
-/

namespace Dora.Stdlib

open String (utf8EncodeChar)
open List Option UInt8 StringBuffer

/-- The code point of a character. -/
def code (c : Char) : BitVec 32 := c.val.toBitVec

/-- **A sequence of characters survives** being appended to a new buffer and read back from its
string. -/
structure RoundTrip (cs : List Char) (value : List UInt8) : Prop where
  encoded : ((cs.map code).foldlM appendChar .new).bind toString = some value
  valid : value.toByteArray.IsValidUTF8
  decoded : codePoints value = some (cs.map code)
  peek : ∀ start ch it, (CodepointIterator.mk value start).next = some (some ch, it) →
    (CodepointIterator.mk value start).peek = some ch

/-! ## Arithmetic of the bits -/

section Bits

variable {val : BitVec 32} (c : Char) {n : ℕ}

theorem code_lt : (code c).toNat < 0x110000 := by
  rcases c.valid with h | ⟨-, h⟩
  · exact Nat.lt_trans h (by decide)
  · exact h

theorem slt_ofNat (hval : val.toNat < 2 ^ 31) (hn : n < 2 ^ 31) :
    val.slt (BitVec.ofNat 32 n) = decide (val.toNat < n) := by
  have hv : val.toInt = val.toNat := by
    rw [BitVec.toInt_eq_toNat_cond, if_pos (by omega)]
  have hy : (BitVec.ofNat 32 n).toInt = n := by
    rw [BitVec.toInt_eq_toNat_cond, BitVec.toNat_ofNat, Nat.mod_eq_of_lt (by omega),
      if_pos (by omega)]
  rw [BitVec.slt, hv, hy, decide_eq_decide]
  omega

theorem code_slt (h : c.toNat < n) (hn : n < 2 ^ 31 := by decide) :
    (code c).slt (BitVec.ofNat 32 n) = true := by
  have hlt := code_lt c
  rw [slt_ofNat (by omega) hn]
  exact decide_eq_true h

theorem code_not_slt (h : n ≤ c.toNat) (hn : n < 2 ^ 31 := by decide) :
    ¬ (code c).slt (BitVec.ofNat 32 n) = true := by
  have hlt := code_lt c
  rw [slt_ofNat (by omega) hn, decide_eq_true_iff]
  exact Nat.not_lt.mpr h

/-- The byte with `m` bits of a code point, from bit `k` on, behind the marker `a`. -/
abbrev marked (n k m a : ℕ) : UInt8 := ofNat (n / 2 ^ k % 2 ^ m + 2 ^ m * a)

theorem toUInt8_marked (hval : val.toNat < 2 ^ 31) (k m a : ℕ) (hm : 2 ^ m * a < 256)
    (hm' : m ≤ 8) :
    toUInt8 (BitVec.ofNat 32 (2 ^ m * a) ||| (val.sshiftRight k &&& BitVec.ofNat 32 (2 ^ m - 1))) =
      marked val.toNat k m a := by
  have hpow : 2 ^ m ≤ 2 ^ 8 := Nat.pow_le_pow_right (by decide) hm'
  have hpos : 0 < 2 ^ m := Nat.two_pow_pos m
  have hmsb : val.msb = false := by
    rw [BitVec.msb_eq_decide, decide_eq_false_iff_not]
    omega
  apply UInt8.toNat_inj.mp
  rw [toUInt8, UInt8.toNat_ofBitVec, BitVec.toNat_setWidth, BitVec.toNat_or, BitVec.toNat_and,
    BitVec.sshiftRight_eq_of_msb_false hmsb, BitVec.toNat_ushiftRight, BitVec.toNat_ofNat,
    BitVec.toNat_ofNat, Nat.mod_eq_of_lt (by omega : 2 ^ m * a < 2 ^ 32),
    Nat.mod_eq_of_lt (by omega : 2 ^ m - 1 < 2 ^ 32), Nat.and_two_pow_sub_one_eq_mod,
    ← Nat.two_pow_add_eq_or_of_lt (Nat.mod_lt _ hpos), Nat.shiftRight_eq_div_pow,
    UInt8.toNat_ofNat', Nat.add_comm]

theorem toUInt8_eq (val : BitVec 32) : toUInt8 val = UInt8.ofNat val.toNat := by
  apply UInt8.toNat_inj.mp
  rw [toUInt8, UInt8.toNat_ofBitVec, BitVec.toNat_setWidth, UInt8.toNat_ofNat']

/-- The last `m` bits of a byte. -/
theorem toNat_toInt32_and (b : UInt8) (m : ℕ) (hm : m ≤ 8) :
    (toInt32 b &&& BitVec.ofNat 32 (2 ^ m - 1)).toNat = b.toNat % 2 ^ m := by
  have hpow : 2 ^ m ≤ 2 ^ 8 := Nat.pow_le_pow_right (by decide) hm
  have hb := b.toNat_lt
  rw [toInt32, BitVec.toNat_and, BitVec.toNat_setWidth, toNat_toBitVec, BitVec.toNat_ofNat,
    Nat.mod_eq_of_lt (by omega),
    Nat.mod_eq_of_lt (by omega), Nat.and_two_pow_sub_one_eq_mod]

/-- Bits put in front of `s` other ones. -/
theorem toNat_shiftLeft_or {x y : BitVec 32} {s : ℕ} (hy : y.toNat < 2 ^ s)
    (hx : x.toNat * 2 ^ s < 2 ^ 32) : (x <<< s ||| y).toNat = x.toNat * 2 ^ s + y.toNat := by
  rw [BitVec.toNat_or, BitVec.toNat_shiftLeft, Nat.shiftLeft_eq, Nat.mod_eq_of_lt hx,
    Nat.mul_comm, Nat.two_pow_add_eq_or_of_lt hy]

end Bits

/-! ## The encoder writes UTF-8 -/

theorem setByte_append {pre post : List UInt8} {x b : UInt8} {k : ℕ} (hk : k = pre.length) :
    setByte (pre ++ x :: post) k b = some (pre ++ b :: post) := by
  subst hk
  rw [setByte, if_pos (by simp), set_append_right _ _ (Nat.le_refl _), Nat.sub_self, set_cons_zero]

variable (c : Char) (cs : List Char)

theorem utf8EncodeChar_cases :
    (c.toNat < 0x80 ∧ utf8EncodeChar c = [ofNat c.toNat]) ∨
    (0x80 ≤ c.toNat ∧ c.toNat < 0x800 ∧
      utf8EncodeChar c = [marked c.toNat 6 5 6, marked c.toNat 0 6 2]) ∨
    (0x800 ≤ c.toNat ∧ c.toNat < 0x10000 ∧
      utf8EncodeChar c = [marked c.toNat 12 4 14, marked c.toNat 6 6 2, marked c.toNat 0 6 2]) ∨
    (0x10000 ≤ c.toNat ∧ utf8EncodeChar c =
      [marked c.toNat 18 3 30, marked c.toNat 12 6 2, marked c.toNat 6 6 2,
        marked c.toNat 0 6 2]) := by
  simp only [utf8EncodeChar, marked, Nat.pow_zero, Nat.div_one, Char.toNat_val]
  by_cases h1 : c.toNat ≤ 0x7F
  · rw [if_pos h1]
    exact .inl ⟨by omega, rfl⟩
  · rw [if_neg h1]
    by_cases h2 : c.toNat ≤ 0x7FF
    · rw [if_pos h2]
      exact .inr (.inl ⟨by omega, by omega, rfl⟩)
    · rw [if_neg h2]
      by_cases h3 : c.toNat ≤ 0xFFFF
      · rw [if_pos h3]
        exact .inr (.inr (.inl ⟨by omega, by omega, rfl⟩))
      · rw [if_neg h3]
        exact .inr (.inr (.inr ⟨by omega, rfl⟩))

theorem lenUtf8_eq : Char.lenUtf8 (code c) = (utf8EncodeChar c).length := by
  rw [Char.lenUtf8]
  rcases utf8EncodeChar_cases c with ⟨h, he⟩ | ⟨h, h', he⟩ | ⟨h, h', he⟩ | ⟨h, he⟩
  · rw [he, if_pos (code_slt c h)]
    rfl
  · rw [he, if_neg (code_not_slt c h), if_pos (code_slt c h')]
    rfl
  · rw [he, if_neg (code_not_slt c (by omega)), if_neg (code_not_slt c h), if_pos (code_slt c h')]
    rfl
  · rw [he, if_neg (code_not_slt c (by omega)),
      if_neg (code_not_slt c (by omega)), if_neg (code_not_slt c h)]
    rfl

/-- **The encoder writes UTF-8** over the bytes at the offset. -/
theorem encodeUtf8_eq {pre old post : List UInt8}
    (hold : old.length = (utf8EncodeChar c).length) :
    Char.encodeUtf8 (code c) (pre ++ old ++ post) pre.length =
      some (pre ++ utf8EncodeChar c ++ post) := by
  have hlt := code_lt c
  have hsmall : (code c).toNat < 2 ^ 31 := by omega
  -- the last byte has no shift, which is a shift by zero
  have htail : toUInt8 (0x80 ||| (code c &&& 0x3F)) =
      marked c.toNat 0 6 2 := by
    have h := toUInt8_marked hsmall 0 6 2 (by decide) (by decide)
    rwa [BitVec.sshiftRight_zero] at h
  have hmid : ∀ k, toUInt8 (0x80 ||| ((code c).sshiftRight k &&& 0x3F)) =
      marked c.toNat k 6 2 :=
    fun k => toUInt8_marked hsmall k 6 2 (by decide) (by decide)
  rcases utf8EncodeChar_cases c with ⟨h, he⟩ | ⟨h, h', he⟩ | ⟨h, h', he⟩ | ⟨h, he⟩
  · rw [he] at hold ⊢
    obtain ⟨x, rfl⟩ := length_eq_one_iff.mp hold
    rw [Char.encodeUtf8, if_pos (code_slt c h), toUInt8_eq, append_assoc,
      append_assoc, singleton_append, setByte_append rfl]
    rfl
  · rw [he] at hold ⊢
    obtain ⟨x0, x1, rfl⟩ := length_eq_two.mp hold
    have hlead : toUInt8 (0xC0 ||| ((code c).sshiftRight 6 &&& 0x1F)) =
        marked c.toNat 6 5 6 :=
      toUInt8_marked hsmall 6 5 6 (by decide) (by decide)
    rw [Char.encodeUtf8, if_neg (code_not_slt c h), if_pos (code_slt c h'), hlead, htail]
    simp only [append_assoc, cons_append, setByte_append rfl, bind_eq_bind, bind_some]
    rw [append_cons, setByte_append (by simp)]
    simp
  · rw [he] at hold ⊢
    obtain ⟨x0, x1, x2, rfl⟩ := length_eq_three.mp hold
    have hlead : toUInt8 (0xE0 ||| ((code c).sshiftRight 12 &&& 0x0F)) =
        marked c.toNat 12 4 14 :=
      toUInt8_marked hsmall 12 4 14 (by decide) (by decide)
    rw [Char.encodeUtf8, if_neg (code_not_slt c (by omega)),
      if_neg (code_not_slt c h), if_pos (code_slt c h'), hlead, hmid 6,
      htail]
    simp only [append_assoc, cons_append, setByte_append rfl, bind_eq_bind, bind_some]
    rw [append_cons, setByte_append (by simp), bind_some, append_cons, setByte_append (by simp)]
    simp
  · rw [he] at hold ⊢
    obtain ⟨x0, x1, x2, x3, rfl⟩ : ∃ x0 x1 x2 x3, old = [x0, x1, x2, x3] := by
      match old, hold with
      | [x0, x1, x2, x3], _ => exact ⟨x0, x1, x2, x3, rfl⟩
    have hlead : toUInt8 (0xF0 ||| ((code c).sshiftRight 18 &&& 0x07)) =
        marked c.toNat 18 3 30 :=
      toUInt8_marked hsmall 18 3 30 (by decide) (by decide)
    rw [Char.encodeUtf8, if_neg (code_not_slt c (by omega)),
      if_neg (code_not_slt c (by omega)), if_neg (code_not_slt c h), hlead,
      hmid 12, hmid 6, htail]
    simp only [append_assoc, cons_append, setByte_append rfl, bind_eq_bind, bind_some]
    rw [append_cons, setByte_append (by simp), bind_some, append_cons,
      setByte_append (by simp), bind_some, append_cons, setByte_append (by simp)]
    simp

/-! ## Buffers -/

namespace StringBuffer

/-- The bytes in a buffer. -/
structure Holds (b : StringBuffer) (bytes : List UInt8) : Prop where
  len : b.len = bytes.length
  buf : bytes <+: b.buf

variable {b : StringBuffer} {bytes : List UInt8}

theorem holds_new : new.Holds [] := ⟨rfl, nil_prefix⟩

/-- The loop of `reserve` after `k` rounds. -/
theorem copyBytes_take (buf : List UInt8) {n k : ℕ} (hk : k ≤ buf.length) (hn : buf.length ≤ n) :
    (List.range k).foldlM (fun newbuf i => do setByte newbuf i (← buf[i]?)) (List.replicate n 0) =
      some (buf.take k ++ List.replicate (n - k) 0) := by
  induction k with
  | zero => rfl
  | succ k ih =>
    have hlt : k < buf.length := hk
    have hrep : List.replicate (n - k) (0 : UInt8) = 0 :: List.replicate (n - (k + 1)) 0 := by
      rw [← replicate_succ]
      congr 1
      omega
    have htake : k = (buf.take k).length := (length_take_of_le (Nat.le_of_lt hlt)).symm
    rw [range_succ, foldlM_append, ih (Nat.le_of_lt hlt), hrep,
      take_succ_eq_append_getElem hlt, append_assoc]
    simp only [bind_eq_bind, bind_some, foldlM_cons, getElem?_eq_getElem hlt, setByte_append htake]
    rfl

theorem copyBytes_eq {buf : List UInt8} {n : ℕ} (hn : buf.length ≤ n) :
    copyBytes buf (List.replicate n 0) = some (buf ++ List.replicate (n - buf.length) 0) := by
  rw [copyBytes, copyBytes_take buf (Nat.le_refl _) hn, take_length]

theorem le_newCapacity (b : StringBuffer) (n : ℕ) : b.len + n ≤ b.newCapacity n := by
  simp only [newCapacity]
  split <;> split <;> first | omega | (split <;> omega)

/-- **Room is reserved** behind the bytes of a buffer. -/
theorem exists_reserve (h : b.Holds bytes) (n : ℕ) :
    ∃ b', b.reserve n = some b' ∧ b'.Holds bytes ∧ bytes.length + n ≤ b'.buf.length := by
  have hlen := h.len
  rw [reserve]
  by_cases hroom : (b.buf.length : ℤ) - b.len ≥ n
  · rw [if_pos hroom]
    exact ⟨b, rfl, h, by omega⟩
  · have hcap := b.le_newCapacity n
    rw [if_neg hroom, copyBytes_eq (by omega)]
    refine ⟨_, rfl, ⟨hlen, h.buf.trans (prefix_append _ _)⟩, ?_⟩
    rw [length_append, length_replicate]
    omega

/-- **Appending a character** appends its encoding. -/
theorem exists_appendChar (h : b.Holds bytes) (c : Char) :
    ∃ b', b.appendChar (code c) = some b' ∧ b'.Holds (bytes ++ utf8EncodeChar c) := by
  obtain ⟨b', hb', h', hroom⟩ := exists_reserve h (Char.lenUtf8 (code c))
  rw [lenUtf8_eq] at hroom
  obtain ⟨rest, hrest⟩ := h'.buf
  have hlen : (utf8EncodeChar c).length ≤ rest.length := by
    rw [← hrest, length_append] at hroom
    omega
  have hbuf : b'.buf = bytes ++ rest.take (utf8EncodeChar c).length ++
      rest.drop (utf8EncodeChar c).length := by
    rw [append_assoc, take_append_drop, hrest]
  refine ⟨⟨bytes ++ utf8EncodeChar c ++ rest.drop (utf8EncodeChar c).length,
    b'.len + Char.lenUtf8 (code c)⟩, ?_, ?_, prefix_append _ _⟩
  · rw [appendChar, hb', bind_eq_bind, bind_some, hbuf, h'.len,
      encodeUtf8_eq c (length_take_of_le hlen)]
    rfl
  · rw [h'.len, lenUtf8_eq, length_append]

/-- **The bytes in a buffer** after some characters were appended. -/
theorem exists_appendChars (h : b.Holds bytes) (cs : List Char) :
    ∃ b', (cs.map code).foldlM appendChar b = some b' ∧
      b'.Holds (bytes ++ cs.flatMap utf8EncodeChar) := by
  induction cs generalizing b bytes with
  | nil => exact ⟨b, rfl, by simpa using h⟩
  | cons c cs ih =>
    obtain ⟨b1, h1, hb1⟩ := exists_appendChar h c
    obtain ⟨b2, h2, hb2⟩ := ih hb1
    refine ⟨b2, ?_, ?_⟩
    · rw [map_cons, foldlM_cons, h1]
      exact h2
    · rwa [flatMap_cons, ← append_assoc]

theorem toString_eq (h : b.Holds bytes) (hvalid : bytes.toByteArray.IsValidUTF8) :
    b.toString = some bytes := by
  obtain ⟨rest, hrest⟩ := h.buf
  have hslice : (b.buf.drop 0).take (min (b.buf.length - 0) b.len) = bytes := by
    rw [drop_zero, Nat.sub_zero, h.len, ← hrest, length_append,
      Nat.min_eq_right (Nat.le_add_right _ _), take_left]
  rw [toString, fromBytesPart, if_neg (Nat.not_lt_zero _)]
  simp only [hslice]
  rw [if_pos (ByteArray.validateUTF8_eq_true_iff.mpr hvalid)]

end StringBuffer

/-- The encoding of characters is valid, and it is what a buffer holds. -/
theorem toString_encode :
    ((cs.map code).foldlM appendChar .new).bind toString = some (cs.flatMap utf8EncodeChar) ∧
      (cs.flatMap utf8EncodeChar).toByteArray.IsValidUTF8 := by
  have hvalid : (cs.flatMap utf8EncodeChar).toByteArray.IsValidUTF8 := .intro cs rfl
  obtain ⟨b, hb, h⟩ := exists_appendChars holds_new cs
  rw [nil_append] at h
  exact ⟨by rw [hb, bind_some, toString_eq h hvalid], hvalid⟩

/-! ## The decoder -/

/-- What the decoder makes of a character: the mask `0x03` drops bit 20. -/
def decodedCode (c : Char) : BitVec 32 := code c &&& 0xFFFFF#32

theorem toNat_decodedCode : (decodedCode c).toNat = c.toNat % 2 ^ 20 := by
  exact Nat.and_two_pow_sub_one_eq_mod _ 20

theorem decodedCode_eq_iff : decodedCode c = code c ↔ c.toNat < 0x100000 := by
  have htoNat : (code c).toNat = c.toNat := rfl
  rw [← BitVec.toNat_inj, toNat_decodedCode, htoNat]
  omega

namespace CodepointIterator

/-- `peek` reads what `readChar` reads. -/
theorem peek_eq (it : CodepointIterator) : it.peek = it.readChar.map Prod.fst := by
  rw [peek, readChar]
  cases it.value[it.start]? with
  | none => rfl
  | some ch =>
    simp only [bind_eq_bind, bind_some]
    split
    · rfl
    · split
      · rfl
      · split
        · cases it.continuation 1 <;> rfl
        · split
          · cases it.continuation 1 <;> cases it.continuation 2 <;> rfl
          · split
            · cases it.continuation 1 <;> cases it.continuation 2 <;>
                cases it.continuation 3 <;> rfl
            · rfl

theorem peek_of_next {it it' : CodepointIterator} {ch : BitVec 32}
    (h : it.next = some (some ch, it')) : it.peek = some ch := by
  rw [next] at h
  split at h
  · obtain ⟨p, hp, h⟩ := bind_eq_some_iff.mp h
    rw [peek_eq, hp]
    exact congrArg some (Option.some.inj (Prod.mk.inj (Option.some.inj h)).1)
  · cases h

variable (pre : List UInt8) {post : List UInt8} {n : ℕ}

theorem getElem?_behind (i : ℕ) (l : List UInt8) : (pre ++ l)[pre.length + i]? = l[i]? := by
  rw [getElem?_append_right (Nat.le_add_right _ _), Nat.add_sub_cancel_left]

theorem continuation_eq {l : List UInt8} {i : ℕ} (h : l[i]? = some (ofNat (n + 2 ^ 6 * 2)))
    (hn : n < 2 ^ 6) :
    ∃ x, (CodepointIterator.mk (pre ++ l) pre.length).continuation i = some x ∧ x.toNat = n := by
  refine ⟨_, by rw [continuation, getElem?_behind, h]; rfl, ?_⟩
  rw [show 0x3F = BitVec.ofNat 32 (2 ^ 6 - 1) from rfl,
    toNat_toInt32_and _ 6 (by decide), toNat_ofNat']
  omega

theorem not_ofNat_le {k : UInt8} (hn : n < 256) (h : k.toNat < n) : ¬ ofNat n ≤ k := by
  rw [le_iff_toNat_le, toNat_ofNat', Nat.mod_eq_of_lt hn]
  exact Nat.not_le.mpr h

theorem ofNat_le {k : UInt8} (hn : n < 256) (h : n ≤ k.toNat) : ofNat n ≤ k := by
  rwa [le_iff_toNat_le, toNat_ofNat', Nat.mod_eq_of_lt hn]

theorem toNat_lead (m : ℕ) (hn : n < 256) (hm : m ≤ 8) :
    (toInt32 (ofNat n) &&& BitVec.ofNat 32 (2 ^ m - 1)).toNat = n % 2 ^ m := by
  rw [toNat_toInt32_and _ m hm, toNat_ofNat', Nat.mod_eq_of_lt hn]

section Classes

variable {n x y z : ℕ} {l : List UInt8}

theorem readChar_one (hn : n < 0x80) :
    readChar ⟨pre ++ ofNat n :: post, pre.length⟩ =
      some (BitVec.ofNat 32 n, ⟨pre ++ ofNat n :: post, pre.length + 1⟩) := by
  rw [readChar]
  simp only [getElem?_append_right (Nat.le_refl _), Nat.sub_self, getElem?_cons_zero,
    bind_eq_bind, bind_some]
  rw [if_pos (ofNat_le (by omega) (Nat.le_of_lt_succ hn))]
  refine congrArg (fun x => some (x, _)) (BitVec.eq_of_toNat_eq ?_)
  rw [toInt32, BitVec.toNat_setWidth, toNat_toBitVec, toNat_ofNat', BitVec.toNat_ofNat]
  omega

theorem readChar_two (hn : 0xBF < n) (hn' : n ≤ 0xDF) (hx : x < 2 ^ 6)
    (hl : l = ofNat n :: ofNat (x + 2 ^ 6 * 2) :: post) :
    ∃ cp, readChar ⟨pre ++ l, pre.length⟩ = some (cp, ⟨pre ++ l, pre.length + 2⟩) ∧
      cp.toNat = n % 2 ^ 5 * 2 ^ 6 + x := by
  obtain ⟨x1, h1, hx1⟩ := continuation_eq pre (l := l) (i := 1) (by rw [hl]; rfl) hx
  have hlead : (toInt32 (ofNat n) &&& 0x1F).toNat = n % 2 ^ 5 := toNat_lead 5 (by omega) (by decide)
  refine ⟨(toInt32 (ofNat n) &&& 0x1F) <<< 6 ||| x1, ?_, ?_⟩
  · have hfirst : (pre ++ l)[pre.length]? = some (ofNat n) := by simp [hl]
    simp only [readChar, hfirst, bind_eq_bind, bind_some]
    rw [if_neg (not_ofNat_le (by omega) (Nat.lt_trans (by decide) hn)),
      if_neg (not_ofNat_le (by omega) hn), if_pos (ofNat_le (by omega) hn'), h1]
    rfl
  · exact (toNat_shiftLeft_or (by omega) (by rw [hlead]; omega)).trans (by rw [hlead, hx1])

theorem readChar_three (hn : 0xDF < n) (hn' : n ≤ 0xEF) (hx : x < 2 ^ 6) (hy : y < 2 ^ 6)
    (hl : l = ofNat n :: ofNat (x + 2 ^ 6 * 2) :: ofNat (y + 2 ^ 6 * 2) :: post) :
    ∃ cp, readChar ⟨pre ++ l, pre.length⟩ = some (cp, ⟨pre ++ l, pre.length + 3⟩) ∧
      cp.toNat = (n % 2 ^ 4 * 2 ^ 6 + x) * 2 ^ 6 + y := by
  obtain ⟨x1, h1, hx1⟩ := continuation_eq pre (l := l) (i := 1) (by rw [hl]; rfl) hx
  obtain ⟨x2, h2, hx2⟩ := continuation_eq pre (l := l) (i := 2) (by rw [hl]; rfl) hy
  have hlead : (toInt32 (ofNat n) &&& 0xF).toNat = n % 2 ^ 4 := toNat_lead 4 (by omega) (by decide)
  refine ⟨(toInt32 (ofNat n) &&& 0xF) <<< 12 ||| x1 <<< 6 ||| x2, ?_, ?_⟩
  · have hfirst : (pre ++ l)[pre.length]? = some (ofNat n) := by simp [hl]
    simp only [readChar, hfirst, bind_eq_bind, bind_some]
    rw [if_neg (not_ofNat_le (by omega) (Nat.lt_trans (by decide) hn)),
      if_neg (not_ofNat_le (by omega) (Nat.lt_trans (by decide) hn)),
      if_neg (not_ofNat_le (by omega) hn), if_pos (ofNat_le (by omega) hn'), h1, h2]
    rfl
  · -- the fields are put together from the last one on
    have h12 : (x1 <<< 6 ||| x2).toNat = x * 2 ^ 6 + y := by
      rw [toNat_shiftLeft_or (by omega) (by omega), hx1, hx2]
    rw [BitVec.or_assoc]
    refine (toNat_shiftLeft_or (by omega) (by rw [hlead]; omega)).trans ?_
    omega

theorem readChar_four (hn : 0xEF < n) (hn' : n ≤ 0xF7) (hx : x < 2 ^ 6) (hy : y < 2 ^ 6)
    (hz : z < 2 ^ 6)
    (hl : l = ofNat n :: ofNat (x + 2 ^ 6 * 2) ::
      ofNat (y + 2 ^ 6 * 2) :: ofNat (z + 2 ^ 6 * 2) :: post) :
    ∃ cp, readChar ⟨pre ++ l, pre.length⟩ = some (cp, ⟨pre ++ l, pre.length + 4⟩) ∧
      cp.toNat = ((n % 2 ^ 2 * 2 ^ 6 + x) * 2 ^ 6 + y) * 2 ^ 6 + z := by
  obtain ⟨x1, h1, hx1⟩ := continuation_eq pre (l := l) (i := 1) (by rw [hl]; rfl) hx
  obtain ⟨x2, h2, hx2⟩ := continuation_eq pre (l := l) (i := 2) (by rw [hl]; rfl) hy
  obtain ⟨x3, h3, hx3⟩ := continuation_eq pre (l := l) (i := 3) (by rw [hl]; rfl) hz
  have hlead : (toInt32 (ofNat n) &&& 0x03).toNat = n % 2 ^ 2 := toNat_lead 2 (by omega) (by decide)
  refine ⟨(toInt32 (ofNat n) &&& 0x03) <<< 18 ||| x1 <<< 12 ||| x2 <<< 6 ||| x3, ?_, ?_⟩
  · have hfirst : (pre ++ l)[pre.length]? = some (ofNat n) := by simp [hl]
    simp only [readChar, hfirst, bind_eq_bind, bind_some]
    rw [if_neg (not_ofNat_le (by omega) (Nat.lt_trans (by decide) hn)),
      if_neg (not_ofNat_le (by omega) (Nat.lt_trans (by decide) hn)),
      if_neg (not_ofNat_le (by omega) (Nat.lt_trans (by decide) hn)),
      if_neg (not_ofNat_le (by omega) hn), if_pos (ofNat_le (by omega) hn'), h1, h2, h3]
    rfl
  · have h23 : (x2 <<< 6 ||| x3).toNat = y * 2 ^ 6 + z := by
      rw [toNat_shiftLeft_or (by omega) (by omega), hx2, hx3]
    have h13 : (x1 <<< 12 ||| (x2 <<< 6 ||| x3)).toNat = x * 2 ^ 12 + (y * 2 ^ 6 + z) := by
      rw [toNat_shiftLeft_or (by omega) (by omega), hx1, h23]
    rw [BitVec.or_assoc, BitVec.or_assoc]
    refine (toNat_shiftLeft_or (by omega) (by rw [hlead]; omega)).trans ?_
    omega

end Classes

/-- **The decoder reads a character back**, without bit 20. -/
theorem readChar_eq (c : Char) {l : List UInt8} (hl : l = utf8EncodeChar c ++ post) :
    readChar ⟨pre ++ l, pre.length⟩ = some (decodedCode c,
      ⟨pre ++ l, pre.length + (utf8EncodeChar c).length⟩) := by
  have hdec := toNat_decodedCode c
  have hbits : ∀ n, n % 2 ^ 6 < 2 ^ 6 := fun n => Nat.mod_lt n (by decide)
  rcases utf8EncodeChar_cases c with ⟨h, he⟩ | ⟨h, h', he⟩ | ⟨h, h', he⟩ | ⟨h, he⟩
  · rw [hl, he, singleton_append, readChar_one pre h]
    refine congrArg (fun x => some (x, _)) (BitVec.eq_of_toNat_eq ?_)
    rw [hdec, BitVec.toNat_ofNat]
    omega
  · rw [he] at hl
    obtain ⟨cp, hcp, hval⟩ := readChar_two pre (by omega) (by omega) (hbits _) hl
    obtain rfl : cp = decodedCode c := BitVec.eq_of_toNat_eq (by omega)
    rw [hcp, he]
    rfl
  · rw [he] at hl
    obtain ⟨cp, hcp, hval⟩ := readChar_three pre (by omega) (by omega) (hbits _) (hbits _) hl
    obtain rfl : cp = decodedCode c := BitVec.eq_of_toNat_eq (by omega)
    rw [hcp, he]
    rfl
  · rw [he] at hl
    obtain ⟨cp, hcp, hval⟩ := readChar_four pre (by omega) (by omega) (hbits _) (hbits _)
      (hbits _) hl
    obtain rfl : cp = decodedCode c := BitVec.eq_of_toNat_eq (by omega)
    rw [hcp, he]
    rfl

/-- **The iteration** reads the characters of a string back, without bit 20. -/
theorem collect_eq (cs : List Char) {fuel : ℕ}
    (hfuel : (cs.flatMap utf8EncodeChar).length < fuel) :
    collect fuel ⟨pre ++ cs.flatMap utf8EncodeChar, pre.length⟩ =
      some (cs.map decodedCode) := by
  induction cs generalizing pre fuel with
  | nil =>
    obtain ⟨fuel, rfl⟩ := Nat.exists_eq_succ_of_ne_zero (Nat.ne_of_gt hfuel)
    simp [collect, next]
  | cons c cs ih =>
    obtain ⟨fuel, rfl⟩ := Nat.exists_eq_succ_of_ne_zero (Nat.ne_of_gt (Nat.zero_lt_of_lt hfuel))
    have hpos : 0 < (utf8EncodeChar c).length := by
      rw [String.length_utf8EncodeChar]
      exact c.utf8Size_pos
    rw [flatMap_cons, length_append] at hfuel
    have hread := readChar_eq pre c
      (rfl : _ = utf8EncodeChar c ++ cs.flatMap utf8EncodeChar)
    have hrest := ih (pre ++ utf8EncodeChar c)
      (Nat.lt_of_lt_of_le (by omega) (Nat.le_refl fuel))
    rw [append_assoc, length_append] at hrest
    have hinside : pre.length <
        (pre ++ (utf8EncodeChar c ++ cs.flatMap utf8EncodeChar)).length := by
      rw [length_append, length_append]
      omega
    rw [flatMap_cons, collect, next]
    simp only [if_pos hinside, hread, bind_eq_bind, bind_some, hrest]
    rfl

end CodepointIterator

theorem codePoints_encode :
    codePoints (cs.flatMap utf8EncodeChar) = some (cs.map decodedCode) :=
  CodepointIterator.collect_eq [] cs (Nat.lt_succ_self _)

/-! ## Round trips -/

theorem RoundTrip.lt {cs : List Char} {value : List UInt8} (h : RoundTrip cs value) :
    ∀ c ∈ cs, c.toNat < 0x100000 := by
  obtain rfl : cs.flatMap utf8EncodeChar = value :=
    Option.some.inj ((toString_encode cs).1.symm.trans h.encoded)
  have hmap := Option.some.inj ((codePoints_encode cs).symm.trans h.decoded)
  exact fun c hc => (decodedCode_eq_iff c).mp (map_inj_left.mp hmap c hc)

/-- **The characters that survive**: written to a buffer and read back, a sequence of characters is
the same exactly when its characters are below `U+100000`. -/
theorem roundTrip_iff (cs : List Char) :
    (∃ value, RoundTrip cs value) ↔ ∀ c ∈ cs, c.toNat < 0x100000 := by
  refine ⟨fun ⟨_, h⟩ => h.lt, fun h => ⟨cs.flatMap utf8EncodeChar, ?_⟩⟩
  obtain ⟨hencoded, hvalid⟩ := toString_encode cs
  refine ⟨hencoded, hvalid, ?_, fun start ch it => CodepointIterator.peek_of_next⟩
  rw [codePoints_encode]
  exact congrArg some (map_congr_left fun c hc => (decodedCode_eq_iff c).mpr (h c hc))

/-- `U+100000` does not survive: it is read back as `U+0000`. -/
theorem not_roundTrip_plane16 : ¬ ∃ value, RoundTrip [Char.ofNat 0x100000] value := by
  rintro ⟨value, h⟩
  exact absurd (h.lt _ mem_cons_self) (by decide)

end Dora.Stdlib
