import Mathlib.Data.List.Basic
import Mathlib.Tactic.Ring
import Dora.Lib.Program

/-!
# Byte cursors

A reader walks over a sequence of bytes with a position that only moves forward, and fails when it
runs past the end.

## Main definitions

* `Cursor`: the bytes still ahead, how to move on, and a mode that moving on keeps
* `Reads`: what a program reads from given bytes; it composes along `bind`

## Main results

* `reads_readMany`: a counted loop reads the encodings of its items
-/

namespace Bytes

/-- The `n` low bytes of a natural number, least significant first. -/
def ofNatLE : ℕ → ℕ → List UInt8
  | 0, _ => []
  | n + 1, v => UInt8.ofNat v :: ofNatLE n (v / 256)

/-- The natural number that little-endian bytes spell. -/
def toNatLE : List UInt8 → ℕ
  | [] => 0
  | b :: bs => b.toNat + 256 * toNatLE bs

@[simp] theorem length_ofNatLE (n v : ℕ) : (ofNatLE n v).length = n := by
  induction n generalizing v with
  | zero => rfl
  | succ n ih => simp [ofNatLE, ih]

/-- Little-endian bytes read back as the number, reduced to the width they hold. -/
theorem toNatLE_ofNatLE (n v : ℕ) : toNatLE (ofNatLE n v) = v % 256 ^ n := by
  induction n generalizing v with
  | zero => simp [ofNatLE, toNatLE, Nat.mod_one]
  | succ n ih =>
    rw [ofNatLE, toNatLE, ih, Nat.pow_succ, Nat.mul_comm (256 ^ n) 256, Nat.mod_mul]
    simp

/-- Shifting a byte over a smaller number and combining the two by `or` is addition. -/
theorem shiftLeft_or {a b k : ℕ} (hb : b < 2 ^ k) : a <<< k ||| b = 2 ^ k * a + b := by
  rw [← Nat.shiftLeft_add_eq_or_of_lt hb, Nat.shiftLeft_eq, Nat.mul_comm]

/-- The bytes at their places from bit `k` on, combined by `or`, the least significant last. -/
def orLE (w : ℕ) : ℕ → List UInt8 → BitVec w
  | _, [] => 0
  | k, b :: bs => orLE w (k + 8) bs ||| b.toBitVec.setWidth w <<< k

theorem toNat_orLE {w k : ℕ} {bs : List UInt8} (h : k + 8 * bs.length ≤ w) :
    (orLE w k bs).toNat = 2 ^ k * toNatLE bs := by
  induction bs generalizing k with
  | nil => simp [orLE, toNatLE]
  | cons b bs ih =>
    rw [List.length_cons] at h
    have hb : b.toNat < 2 ^ 8 := b.toNat_lt
    have hw : 2 ^ (k + 8) ≤ 2 ^ w := Nat.pow_le_pow_right (by decide) (by omega)
    have h8 : 2 ^ 8 ≤ 2 ^ w := Nat.pow_le_pow_right (by decide) (by omega)
    have hs : b.toNat * 2 ^ k < 2 ^ (k + 8) := by
      rw [Nat.pow_add, Nat.mul_comm (2 ^ k)]
      exact (Nat.mul_lt_mul_right (Nat.two_pow_pos k)).mpr hb
    have hshift : (b.toBitVec.setWidth w <<< k).toNat = b.toNat * 2 ^ k := by
      rw [BitVec.toNat_shiftLeft, BitVec.toNat_setWidth, UInt8.toNat_toBitVec,
        Nat.mod_eq_of_lt (by omega : b.toNat < 2 ^ w), Nat.shiftLeft_eq,
        Nat.mod_eq_of_lt (by omega)]
    rw [orLE, BitVec.toNat_or, ih (by omega), hshift, ← Nat.two_pow_add_eq_or_of_lt hs, toNatLE,
      Nat.pow_add]
    ring

theorem orLE_ofNatLE (n v : ℕ) : orLE (8 * n) 0 (ofNatLE n v) = BitVec.ofNat (8 * n) v := by
  apply BitVec.eq_of_toNat_eq
  rw [toNat_orLE (by simp), toNatLE_ofNatLE, BitVec.toNat_ofNat, Nat.pow_zero, Nat.one_mul,
    Nat.pow_mul]

end Bytes

/-- A reader state: the bytes ahead of the position, how the position moves on, and a mode that
moving on keeps. -/
class Cursor (σ : Type) (ω : outParam Type) where
  /-- The bytes ahead of the position. -/
  remaining : σ → List UInt8
  /-- Move the position `n` bytes on. -/
  advance : ℕ → σ → σ
  /-- What reading a field may depend on besides the bytes. -/
  mode : σ → ω
  remaining_advance : ∀ n s, remaining (advance n s) = (remaining s).drop n
  advance_zero : ∀ s, advance 0 s = s
  advance_advance : ∀ m n s, advance n (advance m s) = advance (m + n) s
  mode_advance : ∀ n s, mode (advance n s) = mode s

open Cursor (remaining advance mode)

attribute [simp] Cursor.remaining_advance Cursor.advance_zero Cursor.advance_advance
  Cursor.mode_advance

section Reads

variable {σ ω α β : Type} [Cursor σ ω] {m : StateT σ Option α} {w : ω} {a : α} {bs : List UInt8}

variable {f : α → StateT σ Option β} {cs : List UInt8} {b : β}

/-- **The specification of a reading program**: started in mode `w` before the bytes `bs`, it
returns `a` and stops right after them. -/
def Reads (w : ω) (m : StateT σ Option α) (bs : List UInt8) (a : α) : Prop :=
  ∀ s rest, mode s = w → remaining s = bs ++ rest → m s = some (a, advance bs.length s)

theorem Reads.pure (w : ω) (a : α) : Reads (σ := σ) w (pure a) [] a := by
  intro s rest _ _
  simp

theorem Reads.bind (hm : Reads w m bs a)
    (hf : Reads w (f a) cs b) :
    Reads w (m >>= f) (bs ++ cs) b := by
  intro s rest hw hs
  have h1 := hm s (cs ++ rest) hw (by rw [hs, List.append_assoc])
  have h2 := hf (advance bs.length s) rest (by simpa using hw) (by simp [hs])
  show (m s).bind (fun p => f p.1 p.2) = _
  rw [h1]
  simp [h2]

theorem Reads.bind_pure (hm : Reads w m bs a)
    (hf : Reads w (f a) [] b) :
    Reads w (m >>= f) bs b := by
  have h := hm.bind hf
  rwa [List.append_nil] at h

theorem Reads.congr {b : α} (hm : Reads w m bs a) (hbs : bs = cs) (ha : a = b) :
    Reads w m cs b := by
  subst hbs ha
  exact hm

theorem Reads.unique {rest : List UInt8} {b : α} {s s' : σ} (hm : Reads w m bs a) (hw : mode s = w)
    (hs : remaining s = bs ++ rest) (h : m s = some (b, s')) :
    b = a ∧ s' = advance bs.length s := by
  rw [hm s rest hw hs] at h
  cases h
  exact ⟨rfl, rfl⟩

/-- Read `n` items in a row. -/
def readMany (m : StateT σ Option α) : ℕ → StateT σ Option (List α)
  | 0 => Pure.pure []
  | n + 1 => do
    let a ← m
    let as ← readMany m n
    Pure.pure (a :: as)

/-- **A counted loop** reads the concatenation of the encodings of its items. -/
theorem reads_readMany {γ : Type} (enc : γ → List UInt8) (val : γ → α) (cs : List γ)
    (h : ∀ c ∈ cs, Reads w m (enc c) (val c)) :
    Reads w (readMany m cs.length) (cs.flatMap enc) (cs.map val) := by
  induction cs with
  | nil => exact Reads.pure w []
  | cons c cs ih =>
    have hc := h c List.mem_cons_self
    have hcs := ih fun d hd => h d (List.mem_cons_of_mem _ hd)
    exact hc.bind (hcs.bind_pure (Reads.pure w _))

/-- A counted loop returns as many items as it is told to, and what holds of each item its body
returns holds of them. -/
theorem readMany_spec {P : α → Prop} (hm : ∀ s a s', m s = some (a, s') → P a) {n : ℕ} {s s' : σ}
    {as : List α} (h : readMany m n s = some (as, s')) : as.length = n ∧ ∀ a ∈ as, P a := by
  induction n generalizing s s' as with
  | zero =>
    cases h
    exact ⟨rfl, by simp⟩
  | succ n ih =>
    obtain ⟨a, s1, ha, h⟩ := bind_eq_some.mp h
    obtain ⟨as', s2, has, h⟩ := bind_eq_some.mp h
    cases h
    obtain ⟨hlen, hall⟩ := ih has
    exact ⟨by rw [List.length_cons, hlen], List.forall_mem_cons.mpr ⟨hm s a s1 ha, hall⟩⟩

end Reads
