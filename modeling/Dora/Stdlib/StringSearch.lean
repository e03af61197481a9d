import Dora.Stdlib.Strings
import Mathlib.Data.List.Infix

/-!
# Comparing and searching strings

`String::compareTo` is the `strcmp` of the C library on strings without terminator: it goes on
behind a string that is a prefix of the other one, and stops at a byte that is zero. `indexOfFirst`
looks at the second byte of the pattern first.

## Main results

* `String.indexOfFirst_iff`: when it finds the first occurrence
* `Str.orderedRightly_iff`: when strings are ordered by their bytes
-/

namespace Dora.Stdlib

open List

namespace String

/-- The loop of `String::compare` and of `equals`. -/
def compare (a : List UInt8) (aPos : ℕ) (b : List UInt8) (bPos : ℕ) : ℕ → Option Bool
  | 0 => some true
  | len + 1 => do
    if (← a[aPos]?) ≠ (← b[bPos]?) then return false
    compare a (aPos + 1) b (bPos + 1) len

def equals (a rhs : List UInt8) : Option Bool :=
  if a.length ≠ rhs.length then some false else compare a 0 rhs 0 a.length

/-- The loop of `indexOfFirst`. -/
def search (s val : List UInt8) (k ell : ℕ) : ℕ → ℕ → Option (Option ℕ)
  | 0, _ => none
  | fuel + 1, j =>
    if j ≤ s.length - val.length then do
      if (← val[1]?) ≠ (← s[j + 1]?) then search s val k ell fuel (j + k)
      else if (← compare val 2 s (j + 2) (val.length - 2)) && (← val[0]?) == (← s[j]?) then
        return some j
      else search s val k ell fuel (j + ell)
    else return none

/-- The position grows in every round, so the length of the string bounds their number. -/
def indexOfFirst (s val : List UInt8) : Option (Option ℕ) :=
  if val.length = 0 then some (some 0)
  else if val.length > s.length then some none
  else do
    if (← val[0]?) = (← val[1]?) then search s val 2 1 (s.length + 1) 0
    else search s val 1 2 (s.length + 1) 0

/-! ## Equality -/

theorem compare_spec {a b q t : List UInt8} {aPos bPos : ℕ} (ha : a.drop aPos = q)
    (hb : b.drop bPos = t) (hlen : q.length ≤ t.length) :
    compare a aPos b bPos q.length = some (decide (q <+: t)) := by
  induction q generalizing aPos bPos t with
  | nil => simp [compare]
  | cons x q ih =>
    obtain ⟨y, t, rfl⟩ := exists_cons_of_length_pos (Nat.lt_of_lt_of_le (Nat.succ_pos _) hlen)
    have hx : a[aPos]? = some x := by rw [← Nat.add_zero aPos, ← getElem?_drop, ha]; rfl
    have hy : b[bPos]? = some y := by rw [← Nat.add_zero bPos, ← getElem?_drop, hb]; rfl
    have hnext : compare a (aPos + 1) b (bPos + 1) q.length = some (decide (q <+: t)) :=
      ih (by rw [← tail_drop, ha]; rfl) (by rw [← tail_drop, hb]; rfl) (Nat.le_of_succ_le_succ hlen)
    by_cases hxy : x = y
    · simp [compare, hx, hy, hxy, hnext]
    · simp [compare, hx, hy, hxy]

theorem equals_eq (a b : List UInt8) : equals a b = some (decide (a = b)) := by
  by_cases hlen : a.length = b.length
  · have hcompare := compare_spec (drop_zero) (drop_zero) hlen.le
    rw [equals, if_neg (not_not_intro hlen), hcompare, Option.some.injEq, decide_eq_decide]
    exact ⟨fun h => h.eq_of_length hlen, fun h => h ▸ prefix_rfl⟩
  · rw [equals, if_pos hlen, decide_eq_false fun h => hlen (congrArg List.length h)]

/-! ## Search -/

/-- The least position at which a string goes on with `p`, if there is one. -/
def FirstAt (s p : List UInt8) : Option ℕ → Prop
  | some j => p <+: s.drop j ∧ ∀ i < j, ¬ p <+: s.drop i
  | none => ∀ j, ¬ p <+: s.drop j

/-- The loop, when all positions before `j` are ruled out. -/
theorem search_spec {s q : List UInt8} {p0 p1 : UInt8} {k ell fuel j : ℕ}
    (hlen : q.length + 2 ≤ s.length) (hk : k = if p0 = p1 then 2 else 1)
    (hell : ell = if p0 = p1 then 1 else 2) (hj : j ≤ s.length) (hfuel : s.length < j + fuel)
    (hbefore : ∀ i < j, ¬ p0 :: p1 :: q <+: s.drop i) :
    ∃ r, search s (p0 :: p1 :: q) k ell fuel j = some r ∧ FirstAt s (p0 :: p1 :: q) r := by
  induction fuel generalizing j with
  | zero => omega
  | succ fuel ih =>
    by_cases hend : j ≤ s.length - (p0 :: p1 :: q).length
    · rw [length_cons, length_cons] at hend
      obtain ⟨s0, s1, t, hdrop⟩ : ∃ s0 s1 t, s.drop j = s0 :: s1 :: t := by
        refine ⟨s[j], s[j + 1], s.drop (j + 2), ?_⟩
        rw [drop_eq_getElem_cons (by omega), drop_eq_getElem_cons (by omega)]
      have hget (i : ℕ) : s[j + i]? = (s0 :: s1 :: t)[i]? := by rw [← hdrop, getElem?_drop]
      have h0 : s[j]? = some s0 := hget 0
      have h1 : s[j + 1]? = some s1 := hget 1
      have htail : s.drop (j + 1) = s1 :: t := by rw [← tail_drop, hdrop]; rfl
      have hcompare : compare (p0 :: p1 :: q) 2 s (j + 2) q.length = some (decide (q <+: t)) := by
        have hlong := congrArg List.length hdrop
        simp only [length_drop, length_cons] at hlong
        exact compare_spec rfl (by rw [← tail_drop, htail]; rfl) (by omega)
      -- the next position may be left out if the byte there is not the first one of the pattern
      have hgo {step : ℕ} (hstep : 1 ≤ step ∧ step ≤ 2) (hskip : step = 2 → p0 ≠ s1)
          (hnot : ¬ p0 :: p1 :: q <+: s0 :: s1 :: t) :=
        ih (j := j + step) (by omega) (by omega) fun i hi => by
          rcases Nat.lt_trichotomy i j with hlt | rfl | hgt
          · exact hbefore i hlt
          · rwa [hdrop]
          · obtain rfl : i = j + 1 := by omega
            rw [htail, cons_prefix_cons]
            exact fun h => hskip (by omega) h.1
      have hround : search s (p0 :: p1 :: q) k ell (fuel + 1) j =
          if p1 ≠ s1 then search s (p0 :: p1 :: q) k ell fuel (j + k)
          else if q <+: t ∧ p0 = s0 then some (some j)
          else search s (p0 :: p1 :: q) k ell fuel (j + ell) := by
        simp [search, hend, h0, h1, hcompare]
      have hstarts : p0 :: p1 :: q <+: s0 :: s1 :: t ↔ p0 = s0 ∧ p1 = s1 ∧ q <+: t := by
        rw [cons_prefix_cons, cons_prefix_cons]
      rw [hround]
      split_ifs with hsecond hrest
      · refine hgo (by split_ifs at hk <;> omega) (fun h2 => ?_) fun h => hsecond (hstarts.mp h).2.1
        split_ifs at hk with heq
        · exact heq ▸ hsecond
        · omega
      · refine ⟨_, rfl, hdrop ▸ hstarts.mpr ⟨hrest.2, not_not.mp hsecond, hrest.1⟩, hbefore⟩
      · refine hgo (by split_ifs at hell <;> omega) (fun h2 => ?_) fun h =>
          hrest ⟨(hstarts.mp h).2.2, (hstarts.mp h).1⟩
        split_ifs at hell with heq
        · omega
        · exact not_not.mp hsecond ▸ heq
    · refine ⟨none, if_neg hend, fun i hi => ?_⟩
      have hle := hi.length_le
      rw [length_drop] at hle
      simp only [length_cons] at hle hend
      exact hbefore i (by omega) hi

/-- **`indexOfFirst` finds the first occurrence**, unless the pattern has one byte and the string is
not empty. -/
theorem indexOfFirst_iff (s p : List UInt8) :
    (∃ r, indexOfFirst s p = some r ∧ FirstAt s p r) ↔ ¬ (p.length = 1 ∧ s ≠ []) := by
  match p with
  | [] => exact iff_of_true ⟨some 0, rfl, by simp [FirstAt]⟩ (by simp)
  | [p0] =>
    cases s with
    | nil => exact iff_of_true ⟨none, rfl, by simp [FirstAt]⟩ (by simp)
    | cons x s => exact iff_of_false (by simp [indexOfFirst]) (by simp)
  | p0 :: p1 :: q =>
    refine iff_of_true ?_ (by simp)
    by_cases hlen : s.length < (p0 :: p1 :: q).length
    · refine ⟨none, by rw [indexOfFirst, if_neg (by simp), if_pos hlen], fun j hj => ?_⟩
      have hle := hj.length_le
      rw [length_drop] at hle
      omega
    · have hspec (k ell : ℕ) (hk : k = if p0 = p1 then 2 else 1)
          (hell : ell = if p0 = p1 then 1 else 2) :
          ∃ r, search s (p0 :: p1 :: q) k ell (s.length + 1) 0 = some r ∧ FirstAt s _ r :=
        search_spec (Nat.not_lt.mp hlen) hk hell (Nat.zero_le _) (by omega) (by simp)
      rw [indexOfFirst, if_neg (by simp), if_neg hlen]
      by_cases heq : p0 = p1
      · simpa [heq] using hspec 2 1 (by simp [heq]) (by simp [heq])
      · simpa [heq] using hspec 1 2 (by simp [heq]) (by simp [heq])

/-- A pattern of one byte. -/
theorem not_firstAt_one : ¬ ∃ r, indexOfFirst [0x61] [0x61] = some r ∧ FirstAt [0x61] [0x61] r := by
  simp [indexOfFirst]

end String

/-! ## Order -/

/-- A `Str` object: its bytes stand behind the two words of the header and the length. -/
structure Str where
  address : ℕ
  length : ℕ

namespace Str

variable (m : ℕ → UInt8)

def data (s : Str) : ℕ := s.address + 24

def content (s : Str) : List UInt8 := (List.range' s.data s.length).map m

/-- The order of bytes without a sign. -/
def byteOrder (x y : UInt8) : Ordering := if x < y then .lt else if x = y then .eq else .gt

/-- `strcmp` of the C library: the order of the first bytes that differ or are zero, and the number
of bytes that are read of either string. -/
def strcmp (lhs rhs : ℕ) : ℕ → Option (Ordering × ℕ)
  | 0 => none
  | fuel + 1 =>
    if m lhs ≠ m rhs ∨ m lhs = 0 then some (byteOrder (m lhs) (m rhs), 1)
    else (strcmp (lhs + 1) (rhs + 1) fuel).map fun (r, n) => (r, n + 1)

def compareTo (lhs rhs : Str) (fuel : ℕ) : Option (Ordering × ℕ) := strcmp m lhs.data rhs.data fuel

/-- **The order is right**: the comparison returns, its result is the lexicographic order of the
bytes, it is zero for equal strings only, and no byte outside of the strings is read. -/
def OrderedRightly (a b : Str) : Prop :=
  ∃ fuel r n, compareTo m a b fuel = some (r, n) ∧
    r = List.compareLex byteOrder (a.content m) (b.content m) ∧
    (r = .eq ↔ String.equals (a.content m) (b.content m) = some true) ∧ n ≤ a.length ∧ n ≤ b.length

/-- The first bytes that differ or are zero belong to both strings, and strings that are the same up
to a zero are equal. -/
def Decided : List UInt8 → List UInt8 → Prop
  | x :: a, y :: b => x ≠ y ∨ if x = 0 then a = b else Decided a b
  | _, _ => False

variable {m}

theorem byteOrder_eq_iff {x y : UInt8} : byteOrder x y = .eq ↔ x = y := by
  unfold byteOrder
  split_ifs with hlt heq
  · exact iff_of_false nofun (UInt8.ne_of_lt hlt)
  · exact iff_of_true rfl heq
  · exact iff_of_false nofun heq

theorem compareLex_eq_iff {a b : List UInt8} : List.compareLex byteOrder a b = .eq ↔ a = b := by
  induction a generalizing b with
  | nil => cases b <;> simp [List.compareLex]
  | cons x a ih =>
    cases b with
    | nil => simp [List.compareLex]
    | cons y b =>
      rw [List.compareLex_cons_cons, Ordering.then_eq_eq, byteOrder_eq_iff, ih, List.cons.injEq]

/-- One round of `strcmp`. -/
theorem exists_strcmp {x y : ℕ} {P : Ordering → ℕ → Prop} :
    (∃ fuel r n, strcmp m x y fuel = some (r, n) ∧ P r n) ↔
      if m x ≠ m y ∨ m x = 0 then P (byteOrder (m x) (m y)) 1
      else ∃ fuel r n, strcmp m (x + 1) (y + 1) fuel = some (r, n) ∧ P r (n + 1) := by
  constructor
  · rintro ⟨_ | fuel, r, n, h, hP⟩
    · cases h
    · rw [strcmp] at h
      split_ifs at h ⊢
      · cases h
        exact hP
      · obtain ⟨p, hp, heq⟩ := Option.map_eq_some_iff.mp h
        cases heq
        exact ⟨fuel, p.1, p.2, hp, hP⟩
  · split_ifs with hstop
    · exact fun hP => ⟨1, _, _, if_pos hstop, hP⟩
    · rintro ⟨fuel, r, n, h, hP⟩
      exact ⟨fuel + 1, r, n + 1, by rw [strcmp, if_neg hstop, h]; rfl, hP⟩

theorem strcmp_iff {x y k l : ℕ} :
    (∃ fuel r n, strcmp m x y fuel = some (r, n) ∧
      r = List.compareLex byteOrder ((List.range' x k).map m) ((List.range' y l).map m) ∧
      n ≤ k ∧ n ≤ l) ↔ Decided ((List.range' x k).map m) ((List.range' y l).map m) := by
  induction k generalizing x y l with
  | zero => exact iff_of_false (by rw [exists_strcmp]; split_ifs <;> simp) (by simp [Decided])
  | succ k ih =>
    cases l with
    | zero => exact iff_of_false (by rw [exists_strcmp]; split_ifs <;> simp) (by simp [Decided])
    | succ l =>
      rw [exists_strcmp]
      simp only [List.range'_succ, List.map_cons, Decided, List.compareLex_cons_cons]
      by_cases heq : m x = m y
      · have hsame : byteOrder (m x) (m y) = .eq := byteOrder_eq_iff.mpr heq
        rw [hsame, Ordering.eq_then]
        by_cases hzero : m x = 0
        · rw [if_pos (.inr hzero), if_pos hzero, eq_comm, compareLex_eq_iff]
          simp [heq]
        · rw [if_neg (not_or_intro (not_not_intro heq) hzero), if_neg hzero, ← ih]
          simp [heq]
      · have hfirst : byteOrder (m x) (m y) ≠ .eq := mt byteOrder_eq_iff.mp heq
        rw [if_pos (.inl heq)]
        cases hb : byteOrder (m x) (m y) <;> simp_all

/-- **Strings are ordered rightly** exactly if bytes of both strings decide about their order. -/
theorem orderedRightly_iff (m : ℕ → UInt8) (a b : Str) :
    OrderedRightly m a b ↔ Decided (a.content m) (b.content m) := by
  rw [content, content, ← strcmp_iff]
  refine exists_congr fun fuel => exists_congr fun r => exists_congr fun n =>
    and_congr_right fun _ => and_congr_right fun hr => and_iff_right ?_
  rw [hr, compareLex_eq_iff, String.equals_eq, Option.some.injEq, decide_eq_true_iff]

/-- Two objects side by side, with two bytes each: their strings start with a zero and differ behind
it. -/
theorem not_orderedRightly_nul :
    ¬ OrderedRightly (fun i => if i = 4112 ∨ i = 4144 then 2 else if i = 4121 then 1 else 0)
      ⟨4096, 2⟩ ⟨4128, 2⟩ := by
  rintro ⟨_ | fuel, r, n, h, hr, -⟩
  · cases h
  · cases h
    exact absurd hr (by decide)

end Str

end Dora.Stdlib
