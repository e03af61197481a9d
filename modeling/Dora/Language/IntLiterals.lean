import Dora.Parser.Spans
import Dora.Language.Matching

/-!
# Integer literals

From the token of an integer literal, possibly under a unary minus, to the constant in the bytecode.

## Main definitions

* `parseLitInt`, `checkLitInt`: the parser and the check
* `Site.compile`: both with code generation, in a function body or a constant
* `Site.Faithful`: a literal that is accepted means its number

## Main results

* `faithful_iff`: which literals are faithful
* `not_faithful_uint8`: `0x100u8` and `-1u8`
-/

namespace Dora.Language

open Dora.Parser (IntBase IntSuffix TokenKind Token Reader isDigitOf)
open BitVec

/-! ## The parser -/

/-- `char::to_digit`. -/
def digitValue (ch : Char) : ℕ :=
  if '0' ≤ ch && ch ≤ '9' then ch.toNat - '0'.toNat
  else if 'a' ≤ ch && ch ≤ 'z' then ch.toNat - 'a'.toNat + 10
  else ch.toNat - 'A'.toNat + 10

/-- `u64::from_str_radix` on characters without a sign: an error for the empty text, for a character
that is no digit and for a number that does not fit. -/
def fromStrRadix (radix : ℕ) : List Char → Option ℕ
  | [] => none
  | src => src.foldlM (fun n ch =>
      if isDigitOf radix ch && n * radix + digitValue ch < 2 ^ 64 then
        some (n * radix + digitValue ch)
      else none) 0

/-- `ExprLitIntType`. -/
structure ExprLitInt where
  value : ℕ
  base : IntBase
  suffix : IntSuffix
deriving DecidableEq, Repr

/-- `parse_lit_int`, on the parts of the token. The error is a number overflow. -/
def parseLitInt (value : List Char) (base : IntBase) (suffix : IntSuffix) : Option ExprLitInt :=
  (fromStrRadix base.num (value.filter (· ≠ '_'))).map fun n => ⟨n, base, suffix⟩

/-! ## The checks -/

/-- The types of integer literals. -/
inductive IntType
  | UInt8
  | Int32
  | Int64
deriving DecidableEq, Repr

def IntType.toSourceType : IntType → SourceType
  | .UInt8 => .const .uint8
  | .Int32 => .const .int32
  | .Int64 => .const .int64

inductive ErrorMessage
  | NumberOverflow (ty : IntType)
  | UnOpType (ty : IntType)
  | AssignType (constTy : SourceType) (ty : IntType)

def determineSuffixTypeIntLiteral : IntSuffix → Option IntType
  | .UInt8 => some .UInt8
  | .Int32 => some .Int32
  | .Int64 => some .Int64
  | .None => none

def determineTypeLiteralInt (suffix : IntSuffix) (expectedType : SourceType) : IntType :=
  let defaultType :=
    if expectedType = .const .uint8 then .UInt8
    else if expectedType = .const .int32 then .Int32
    else .Int64
  (determineSuffixTypeIntLiteral suffix).getD defaultType

/-- What `check_lit_int` returns, with the errors that it has reported. -/
structure Checked where
  errors : List ErrorMessage
  ty : IntType
  value : BitVec 64

/-- `check_lit_int`. The assertion on the sign of hexadecimal and binary literals can fail. -/
def checkLitInt (e : ExprLitInt) (negate : Bool) (expectedType : SourceType) : Option Checked :=
  let ty := determineTypeLiteralInt e.suffix expectedType
  let value := BitVec.ofNat 64 e.value
  if e.base = .Dec then
    let max :=
      match ty with
      | .UInt8 => 256
      | .Int32 => 2 ^ 31
      | .Int64 => 2 ^ 63
    let overflow := (negate && e.value > max) || (!negate && e.value ≥ max)
    some {
      errors := if overflow then [.NumberOverflow ty] else []
      ty := ty
      value := if negate then -value else value }
  else if negate then none
  else
    let max :=
      match ty with
      | .UInt8 => 256
      | .Int32 => 2 ^ 32 - 1
      | .Int64 => 2 ^ 64 - 1
    some {
      errors := if e.value > max then [.NumberOverflow ty] else []
      ty := ty
      value := value }

/-- Where a literal stands: in a function body, with the type that is expected there, or as the
value of a constant, with the declared type. -/
inductive Site
  | body (expectedTy : SourceType)
  | const (ty : SourceType)

def Site.expectedType : Site → SourceType
  | body ty | const ty => ty

/-- The check of a literal, under a minus or not. For a constant it is `ConstCheck::check_expr`,
which rejects a minus before a `UInt8` and a value that does not have the declared type. -/
def Site.check (site : Site) (e : ExprLitInt) (negate : Bool) : Option Checked :=
  match site with
  | .body expectedTy => checkLitInt e negate expectedTy
  | .const constTy =>
    let ty := determineTypeLiteralInt e.suffix constTy
    let first := if negate && ty = .UInt8 then [ErrorMessage.UnOpType ty] else []
    (checkLitInt e negate constTy).map fun c =>
      let last := if constTy = c.ty.toSourceType then [] else [ErrorMessage.AssignType constTy c.ty]
      { c with errors := first ++ c.errors ++ last }

/-! ## The constant -/

/-- The operand of `ConstUInt8`, `ConstInt32` or `ConstInt64`. -/
inductive Constant
  | UInt8 (value : BitVec 8)
  | Int32 (value : BitVec 32)
  | Int64 (value : BitVec 64)
deriving DecidableEq

/-- The value as an operand of the given type. -/
def emitConst (ty : IntType) (value : BitVec 64) : Constant :=
  match ty with
  | .UInt8 => .UInt8 (value.setWidth 8)
  | .Int32 => .Int32 (value.setWidth 32)
  | .Int64 => .Int64 value

/-- `visit_expr_lit_int` for a literal in a function body. -/
def visitExprLitInt (ty : IntType) (e : ExprLitInt) (neg : Bool) : Constant :=
  let value := if neg then -BitVec.ofNat 64 e.value else BitVec.ofNat 64 e.value
  emitConst ty value

/-- The constant of a literal that has been checked: in a body it is computed from the literal, for
a constant it is what the check has computed (`visit_expr_ident_const`). -/
def Site.generate (site : Site) (e : ExprLitInt) (neg : Bool) (c : Checked) : Constant :=
  match site with
  | .body _ => visitExprLitInt c.ty e neg
  | .const _ => emitConst c.ty c.value

inductive Outcome
  | syntaxError
  | rejected (errors : List ErrorMessage)
  | panics
  | constant (c : Constant)

/-- From the token to the constant. -/
def Site.compile (site : Site) (neg : Bool) (value : List Char) (base : IntBase)
    (suffix : IntSuffix) : Outcome :=
  match parseLitInt value base suffix with
  | none => .syntaxError
  | some e =>
    match site.check e neg with
    | none => .panics
    | some c => if c.errors.isEmpty then .constant (site.generate e neg c) else .rejected c.errors

/-! ## What a literal says -/

/-- The mathematical value of digits, which may have underscores between them. -/
def literalValue (base : IntBase) (digits : List Char) : ℕ :=
  (digits.filter (· ≠ '_')).foldl (fun n ch => n * base.num + digitValue ch) 0

def IntType.width : IntType → ℕ
  | .UInt8 => 8
  | .Int32 => 32
  | .Int64 => 64

/-- The numbers of a type. -/
def IntType.Holds (ty : IntType) (z : ℤ) : Prop :=
  match ty with
  | .UInt8 => 0 ≤ z ∧ z < 2 ^ 8
  | .Int32 => -2 ^ 31 ≤ z ∧ z < 2 ^ 31
  | .Int64 => -2 ^ 63 ≤ z ∧ z < 2 ^ 63

/-- The number of a literal, negated under a minus. -/
@[simp]
def signedValue (neg : Bool) (n : ℕ) : ℤ := if neg then -(n : ℤ) else n

/-- A literal is in range: a decimal one is a number of the type, a hexadecimal or binary one is a
bit pattern of its width. -/
def InRange (ty : IntType) (base : IntBase) (neg : Bool) (n : ℕ) : Prop :=
  match base with
  | .Dec => ty.Holds (signedValue neg n)
  | .Hex | .Bin => n < 2 ^ ty.width

namespace Constant

def ty : Constant → IntType
  | UInt8 _ => .UInt8
  | Int32 _ => .Int32
  | Int64 _ => .Int64

/-- The number that a constant stands for. -/
def number : Constant → ℤ
  | UInt8 v => v.toNat
  | Int32 v | Int64 v => v.toInt

/-- Its bits, as a number. -/
def pattern : Constant → ℕ
  | UInt8 v | Int32 v | Int64 v => v.toNat

/-- A constant is the value of a literal. -/
def Represents (c : Constant) (base : IntBase) (neg : Bool) (n : ℕ) : Prop :=
  match base with
  | .Dec => c.number = signedValue neg n
  | .Hex | .Bin => (c.pattern : ℤ) = signedValue neg n % 2 ^ c.ty.width

end Constant

/-- **A literal means what it says**: the constant that is compiled has the literal's type and
value, which are in range, and a literal out of range is rejected with an error. -/
def Site.Faithful (site : Site) (neg : Bool) (value : List Char) (base : IntBase)
    (suffix : IntSuffix) : Prop :=
  let ty := determineTypeLiteralInt suffix site.expectedType
  let n := literalValue base value
  (∀ c, site.compile neg value base suffix = .constant c →
    c.ty = ty ∧ InRange ty base neg n ∧ c.Represents base neg n) ∧
  (¬ InRange ty base neg n → site.compile neg value base suffix = .syntaxError ∨
    ∃ errors, site.compile neg value base suffix = .rejected errors)

/-- A constant that is declared with another type than `UInt8` rejects the literal. -/
def acceptsUInt8 : Set Site := {site | ∀ ty, site = .const ty → ty = .const .uint8}

/-- The literals that are treated rightly. -/
structure Site.Sound (site : Site) (neg : Bool) (base : IntBase) (n : ℕ) (ty : IntType) : Prop where
  /-- a minus before a decimal `UInt8` is rejected in constants only -/
  minus : ty = .UInt8 → base = .Dec → neg = true → (∃ t, site = .body t) → n = 0 ∨ 256 < n
  /-- one pattern too many is accepted for `UInt8` -/
  pattern : ty = .UInt8 → base ≠ .Dec → neg = false → site ∈ acceptsUInt8 → n ≠ 256
  /-- a minus before a hexadecimal or binary literal fails an assertion -/
  assertion : base ≠ .Dec → neg = true → n < 2 ^ ty.width ∨ 2 ^ 64 ≤ n

/-! ## The token of a literal -/

section Lexing

open Dora.Parser
open Except (bind_eq_ok)

variable {r r' : Reader} {tok : Token} {value : List Char} {base : IntBase} {suffix : IntSuffix}

theorem kind_of_token {first r1 : Reader} {kind : TokenKind}
    (h : r1.token first kind = .ok (tok, r')) : tok.kind = kind := by
  simp only [Reader.token, bind_eq_ok] at h
  obtain ⟨span, -, rfl, rfl⟩ := h
  rfl

theorem numberKind_eq_litInt {value' : List Char} {base' : IntBase} {word : List Char}
    (h : numberKind value' base' word = some (.LitInt value base suffix)) :
    value = value' ∧ base = base' := by
  unfold numberKind at h
  split_ifs at h <;> cases h <;> exact ⟨rfl, rfl⟩

/-- The token of a literal has digits of its base, and underscores. -/
theorem digits_of_readNumber (h : readNumber r = .ok (tok, r'))
    (hkind : tok.kind = .LitInt value base suffix) :
    ∀ c ∈ value, isDigitOrUnderscore base c := by
  simp only [readNumber, bind_eq_ok, Prod.exists] at h
  obtain ⟨base', r1, hr1, value', r2, hr2, isFloat, -, h⟩ := h
  obtain ⟨-, hall, -⟩ := advances_of_readWhile hr2
  split_ifs at h
  · -- a number with a point is no integer literal
    simp only [readNumberAsFloat, bind_eq_ok, Prod.exists] at h
    obtain ⟨_, -, _, _, -, _, r3, -, h⟩ := h
    split_ifs at h
    · simp only [bind_eq_ok, Prod.exists] at h
      obtain ⟨_, r4, -, h⟩ := h
      split_ifs at h <;> cases hkind.symm.trans (kind_of_token h)
    · cases hkind.symm.trans (kind_of_token h)
  · simp only [bind_eq_ok, Prod.exists] at h
    obtain ⟨word, r3, hr3, h⟩ := h
    split at h
    · rename_i kind hnumber
      rw [← kind_of_token h, hkind] at hnumber
      obtain ⟨rfl, rfl⟩ := numberKind_eq_litInt hnumber
      exact hall
    · exact absurd h throw_ne_ok
  · cases hkind.symm.trans (kind_of_token h)
    exact hall

end Lexing

/-! ## The number that is parsed -/

theorem le_foldl_digits {radix : ℕ} (hradix : 0 < radix) (l : List Char) (n : ℕ) :
    n ≤ l.foldl (fun n ch => n * radix + digitValue ch) n := by
  induction l generalizing n with
  | nil => exact Nat.le_refl n
  | cons c l ih =>
    calc n ≤ n * radix := Nat.le_mul_of_pos_right n hradix
      _ ≤ n * radix + digitValue c := Nat.le_add_right _ _
      _ ≤ _ := ih _

theorem fromStrRadix_eq {radix : ℕ} (hradix : 0 < radix) {l : List Char}
    (hl : ∀ c ∈ l, isDigitOf radix c) :
    fromStrRadix radix l =
      if l ≠ [] ∧ l.foldl (fun n ch => n * radix + digitValue ch) 0 < 2 ^ 64 then
        some (l.foldl (fun n ch => n * radix + digitValue ch) 0)
      else none := by
  have hfold (l : List Char) (hl : ∀ c ∈ l, isDigitOf radix c) (n : ℕ) (hn : n < 2 ^ 64) :
      l.foldlM (fun n ch =>
        if isDigitOf radix ch && n * radix + digitValue ch < 2 ^ 64 then
          some (n * radix + digitValue ch)
        else none) n =
      if l.foldl (fun n ch => n * radix + digitValue ch) n < 2 ^ 64 then
        some (l.foldl (fun n ch => n * radix + digitValue ch) n)
      else none := by
    induction l generalizing n with
    | nil => exact (if_pos hn).symm
    | cons c l ih =>
      obtain ⟨hc, hl⟩ := List.forall_mem_cons.mp hl
      rw [List.foldlM_cons, List.foldl_cons]
      by_cases hfits : n * radix + digitValue c < 2 ^ 64
      · simp only [hc, hfits]
        exact ih hl _ hfits
      · have hle := le_foldl_digits hradix l (n * radix + digitValue c)
        have hnot : ¬ l.foldl (fun n ch => n * radix + digitValue ch) (n * radix + digitValue c) <
          2 ^ 64 := fun h => hfits (Nat.lt_of_le_of_lt hle h)
        rw [if_neg hnot, decide_eq_false hfits, Bool.and_false]
        rfl
  cases l with
  | nil => rfl
  | cons c l =>
    have := hfold (c :: l) hl 0 (by decide)
    simpa [fromStrRadix] using this

theorem parseLitInt_eq {value : List Char} {base : IntBase} (suffix : IntSuffix)
    (hvalue : ∀ c ∈ value, Parser.isDigitOrUnderscore base c) :
    parseLitInt value base suffix =
      if value.filter (· ≠ '_') ≠ [] ∧ literalValue base value < 2 ^ 64 then
        some ⟨literalValue base value, base, suffix⟩
      else none := by
  have hradix : 0 < base.num := by cases base <;> decide
  have hdigits : ∀ c ∈ value.filter (· ≠ '_'), isDigitOf base.num c := by
    intro c hc
    obtain ⟨hmem, hne⟩ := List.mem_filter.mp hc
    have := hvalue c hmem
    simp only [Parser.isDigitOrUnderscore, Bool.or_eq_true, decide_eq_true_eq] at this
    exact this.resolve_right (of_decide_eq_true hne)
  rw [parseLitInt, fromStrRadix_eq hradix hdigits]
  split_ifs with h1 h2 h2
  · rfl
  · exact absurd h1 h2
  · exact absurd h2 h1
  · rfl

/-! ## Checking and generating -/

/-- The limits of `check_lit_int`. -/
@[simp]
def Overflows (ty : IntType) (base : IntBase) (neg : Bool) (n : ℕ) : Prop :=
  match base, ty, neg with
  | .Dec, .UInt8, true => 256 < n
  | .Dec, .UInt8, false => 256 ≤ n
  | .Dec, .Int32, true => 2 ^ 31 < n
  | .Dec, .Int32, false => 2 ^ 31 ≤ n
  | .Dec, .Int64, true => 2 ^ 63 < n
  | .Dec, .Int64, false => 2 ^ 63 ≤ n
  | _, .UInt8, _ => 256 < n
  | _, .Int32, _ => 2 ^ 32 - 1 < n
  | _, .Int64, _ => 2 ^ 64 - 1 < n

/-- No error is reported for a literal. -/
def Site.Accepts (site : Site) (neg : Bool) (base : IntBase) (n : ℕ) (ty : IntType) : Prop :=
  ¬ Overflows ty base neg n ∧
    ∀ constTy, site = .const constTy → ¬ (neg = true ∧ ty = .UInt8) ∧ constTy = ty.toSourceType

/-- The value that both the check and the code generation compute. -/
def literalBits (neg : Bool) (n : ℕ) : BitVec 64 :=
  if neg then -BitVec.ofNat 64 n else BitVec.ofNat 64 n

/-- The check fails an assertion for a minus before a hexadecimal or binary literal. Otherwise it
returns the type and the value, and reports what exceeds the limits. -/
theorem checkLitInt_eq {neg : Bool} (e : ExprLitInt) (expectedType : SourceType)
    (h : e.base = .Dec ∨ neg = false) :
    ∃ errors, checkLitInt e neg expectedType =
        some ⟨errors, determineTypeLiteralInt e.suffix expectedType, literalBits neg e.value⟩ ∧
      (errors = [] ↔
        ¬ Overflows (determineTypeLiteralInt e.suffix expectedType) e.base neg e.value) := by
  obtain ⟨value, base, suffix⟩ := e
  generalize hty : determineTypeLiteralInt suffix expectedType = ty
  simp only [checkLitInt, hty]
  cases base with
  | Dec =>
    refine ⟨_, rfl, ?_⟩
    cases ty <;> cases neg <;> simp
  | Hex | Bin =>
    obtain rfl : neg = false := by simpa using h
    refine ⟨_, rfl, ?_⟩
    cases ty <;> simp

variable {site : Site} {neg : Bool} {value : List Char} {base : IntBase} {suffix : IntSuffix}
  {ty : IntType} {n : ℕ}

/-- What becomes of a literal: a panic, a constant, or errors. -/
theorem compile_cases (site : Site) (neg : Bool)
    (hparse : parseLitInt value base suffix = some ⟨n, base, suffix⟩) :
    (base ≠ .Dec ∧ neg = true ∧ site.compile neg value base suffix = .panics) ∨
    (base = .Dec ∨ neg = false) ∧
      (site.Accepts neg base n (determineTypeLiteralInt suffix site.expectedType) ∧
        site.compile neg value base suffix = .constant
          (emitConst (determineTypeLiteralInt suffix site.expectedType) (literalBits neg n)) ∨
       ¬ site.Accepts neg base n (determineTypeLiteralInt suffix site.expectedType) ∧
        ∃ errors, site.compile neg value base suffix = .rejected errors) := by
  by_cases hsign : base = .Dec ∨ neg = false
  · right
    refine ⟨hsign, ?_⟩
    obtain ⟨errors, hcheck, herrors⟩ := checkLitInt_eq ⟨n, base, suffix⟩ site.expectedType hsign
    -- the errors of the site, which for a constant has two of its own
    obtain ⟨errors', hsite, herrors'⟩ : ∃ errors', site.check ⟨n, base, suffix⟩ neg =
        some ⟨errors', determineTypeLiteralInt suffix site.expectedType, literalBits neg n⟩ ∧
        (errors' = [] ↔
          site.Accepts neg base n (determineTypeLiteralInt suffix site.expectedType)) := by
      cases site with
      | body t => exact ⟨errors, hcheck, by rw [herrors]; simp [Site.Accepts]⟩
      | const t =>
        simp only [Site.expectedType] at hcheck herrors ⊢
        refine ⟨_, by rw [Site.check, hcheck]; rfl, ?_⟩
        simp only [Site.Accepts]
        simp
        tauto
    have hgenerate : site.generate ⟨n, base, suffix⟩ neg
        ⟨errors', determineTypeLiteralInt suffix site.expectedType, literalBits neg n⟩ =
        emitConst (determineTypeLiteralInt suffix site.expectedType) (literalBits neg n) := by
      cases site <;> rfl
    unfold Site.compile
    rw [hparse]
    simp only [hsite, hgenerate, List.isEmpty_iff]
    by_cases hempty : errors' = []
    · exact .inl ⟨herrors'.mp hempty, if_pos hempty⟩
    · exact .inr ⟨fun h => hempty (herrors'.mpr h), errors', if_neg hempty⟩
  · obtain ⟨hbase, hneg⟩ := not_or.mp hsign
    have hneg : neg = true := by simpa using hneg
    refine .inl ⟨hbase, hneg, ?_⟩
    unfold Site.compile
    rw [hparse]
    cases site <;> simp [Site.check, checkLitInt, hbase, hneg]

/-! ## The constant is the value -/

theorem literalBits_eq (neg : Bool) (n : ℕ) :
    literalBits neg n = BitVec.ofInt 64 (signedValue neg n) := by
  cases neg with
  | false => simp [literalBits]
  | true => simp [literalBits, ofInt_neg]

theorem number_emitConst {z : ℤ} (hz : ty.Holds z) :
    (emitConst ty (BitVec.ofInt 64 z)).number = z := by
  cases ty with
  | UInt8 =>
    obtain ⟨h0, h1⟩ := hz
    simp only [emitConst, Constant.number, toNat_setWidth, toNat_ofInt]
    omega
  | Int32 =>
    obtain ⟨h0, h1⟩ := hz
    simp only [emitConst, Constant.number]
    rw [toInt_setWidth, toNat_ofInt, Int.bmod_def]
    split_ifs <;> omega
  | Int64 =>
    obtain ⟨h0, h1⟩ := hz
    simp only [emitConst, Constant.number]
    rw [toInt_ofInt, Int.bmod_eq_of_le] <;> omega

theorem pattern_emitConst (hn : n < 2 ^ ty.width) :
    (emitConst ty (BitVec.ofNat 64 n)).pattern = n := by
  cases ty with
  | UInt8 | Int32 =>
    simp only [IntType.width] at hn
    simp only [emitConst, Constant.pattern, toNat_setWidth, toNat_ofNat]
    omega
  | Int64 => exact (toNat_ofNat n 64).trans (Nat.mod_eq_of_lt hn)

theorem represents_of_inRange (hsign : base = .Dec ∨ neg = false) (h : InRange ty base neg n) :
    (emitConst ty (literalBits neg n)).Represents base neg n := by
  have hpattern (hlt : n < 2 ^ ty.width) (hneg : neg = false) :
      ((emitConst ty (literalBits neg n)).pattern) =
        signedValue neg n % 2 ^ (emitConst ty (literalBits neg n)).ty.width := by
    subst hneg
    have hty : (emitConst ty (literalBits false n)).ty = ty := by cases ty <;> rfl
    rw [hty, literalBits, if_neg Bool.false_ne_true, pattern_emitConst hlt, signedValue,
      if_neg Bool.false_ne_true, Int.emod_eq_of_lt (Int.natCast_nonneg n) (by exact_mod_cast hlt)]
  cases base with
  | Dec =>
    rw [literalBits_eq]
    exact number_emitConst h
  | Hex | Bin => exact hpattern h (by simpa using hsign)

/-! ## Which literals mean what they say -/

/-- An accepted literal is in range unless it meets one of the two limits that are wrong. -/
theorem inRange_iff_of_accepts (hn : n < 2 ^ 64) (hsign : base = .Dec ∨ neg = false)
    (h : site.Accepts neg base n ty) :
    InRange ty base neg n ↔ site.Sound neg base n ty := by
  obtain ⟨hlimit, hconst⟩ := h
  refine ⟨fun hrange => ⟨?_, ?_, ?_⟩, fun hsound => ?_⟩
  · rintro rfl rfl rfl ⟨t, rfl⟩
    simp only [InRange, IntType.Holds, signedValue, if_true] at hrange
    omega
  · rintro rfl hbase rfl - rfl
    cases base with
    | Dec => exact hbase rfl
    | Hex | Bin => exact absurd hrange (Nat.lt_irrefl 256)
  · rintro hbase rfl
    exact absurd hsign (by simp [hbase])
  · cases base with
    | Dec =>
      cases neg with
      | false =>
        cases ty <;> simp [InRange, IntType.Holds] at hlimit ⊢ <;> omega
      | true =>
        cases ty with
        | UInt8 =>
          -- constants reject the minus
          cases site with
          | const t => exact absurd ⟨rfl, rfl⟩ (hconst t rfl).1
          | body t =>
            have := hsound.minus rfl rfl rfl ⟨t, rfl⟩
            simp only [Overflows] at hlimit
            simp only [InRange, IntType.Holds, signedValue]
            omega
        | Int32 | Int64 =>
          simp [InRange, IntType.Holds] at hlimit ⊢
          omega
    | Hex | Bin =>
      obtain rfl : neg = false := by simpa using hsign
      cases ty with
      | UInt8 =>
        have := hsound.pattern rfl (by simp) rfl fun t ht => (hconst t ht).2
        simp only [Overflows, InRange, IntType.width] at hlimit ⊢
        omega
      | Int32 | Int64 =>
        simp only [Overflows, InRange, IntType.width] at hlimit ⊢
        omega

/-- A literal that is rejected, or that does not fit 64 bits, is not one of the exceptions. -/
theorem sound_of_not_accepts (hsign : base = .Dec ∨ neg = false) (h : ¬ site.Accepts neg base n ty)
    : site.Sound neg base n ty := by
  refine ⟨?_, ?_, ?_⟩
  · rintro rfl rfl rfl ⟨t, rfl⟩
    by_contra hn
    exact h ⟨by simp only [Overflows]; omega, fun _ ht => by cases ht⟩
  · rintro rfl hbase rfl haccepts rfl
    refine h ⟨?_, fun t ht => ⟨by simp, haccepts t ht⟩⟩
    cases base with
    | Dec => exact absurd rfl hbase
    | Hex | Bin => simp
  · rintro hbase rfl
    exact absurd hsign (by simp [hbase])

/-- **Exactly the sound literals mean what they say**, for every token that the lexer reads as an
integer literal. -/
theorem faithful_iff {r r' : Reader} {tok : Token} (h : Parser.readNumber r = .ok (tok, r'))
    (hkind : tok.kind = .LitInt value base suffix) (site : Site) (neg : Bool) :
    site.Faithful neg value base suffix ↔ site.Sound neg base (literalValue base value)
        (determineTypeLiteralInt suffix site.expectedType) := by
  have hparse := parseLitInt_eq suffix (digits_of_readNumber h hkind)
  generalize hn : literalValue base value = n at hparse
  split_ifs at hparse with hfits
  · obtain ⟨-, hlt⟩ := hfits
    rcases compile_cases site neg hparse with
      ⟨hbase, hneg, hpanics⟩ | ⟨hsign, ⟨haccepts, hconstant⟩ | ⟨hrejects, errors, hrejected⟩⟩
    · -- the assertion fails, which is no error
      have hrange : InRange (determineTypeLiteralInt suffix site.expectedType) base neg n ↔
          n < 2 ^ (determineTypeLiteralInt suffix site.expectedType).width := by
        cases base with
        | Dec => exact absurd rfl hbase
        | Hex | Bin => rfl
      unfold Site.Faithful
      simp only [hpanics, hn, hrange]
      refine ⟨fun ⟨_, h⟩ => ⟨?_, ?_, fun _ _ => ?_⟩, fun hsound => ⟨by simp, fun hout => ?_⟩⟩
      · exact fun _ h => absurd h hbase
      · exact fun _ _ h => absurd (hneg.symm.trans h) (by simp)
      · by_contra hout
        have := h (fun hin => hout (.inl hin))
        simp at this
      · exact absurd (hsound.assertion hbase hneg) (by omega)
    · rw [← inRange_iff_of_accepts hlt hsign haccepts]
      have hty (ty : IntType) (v : BitVec 64) : (emitConst ty v).ty = ty := by cases ty <;> rfl
      unfold Site.Faithful
      simp only [hconstant, hn, Outcome.constant.injEq, forall_eq', hty, true_and]
      refine ⟨fun h => h.1.1, fun h => ⟨⟨h, represents_of_inRange hsign h⟩, fun hout => ?_⟩⟩
      exact absurd h hout
    · refine ⟨fun _ => sound_of_not_accepts hsign hrejects, fun _ => ?_⟩
      unfold Site.Faithful
      simp only [hrejected]
      exact ⟨by simp, fun _ => .inr ⟨errors, rfl⟩⟩
  · -- a syntax error: no digits, or too many
    have hcompile : site.compile neg value base suffix = .syntaxError := by
      unfold Site.compile
      rw [hparse]
    have hn' : n = 0 ∨ 2 ^ 64 ≤ n := by
      by_cases hnil : value.filter (· ≠ '_') = []
      · left
        rw [← hn, literalValue, hnil]
        rfl
      · right
        by_contra hlt
        exact hfits ⟨hnil, by omega⟩
    refine ⟨fun _ => ⟨fun _ _ _ _ => by omega, fun _ _ _ _ => by omega, fun _ _ => ?_⟩, fun _ => ?_⟩
    · rcases hn' with rfl | hn'
      · exact .inl (Nat.two_pow_pos _)
      · exact .inr hn'
    · unfold Site.Faithful
      simp only [hcompile]
      exact ⟨by simp, fun _ => .inl trivial⟩

/-- A literal in front of a semicolon. -/
theorem faithful_iff_hex :
    ∃ tok r', Parser.readNumber (.fromString "0x7Fu8;".toList) = .ok (tok, r') ∧
      tok.kind = .LitInt "7F".toList .Hex .UInt8 ∧
      ((Site.body (.const .any)).Faithful false "7F".toList .Hex .UInt8 ↔
        (Site.body (.const .any)).Sound false .Hex (literalValue .Hex "7F".toList) .UInt8) := by
  have hread : Parser.readNumber (.fromString "0x7Fu8;".toList) =
      .ok (⟨.LitInt "7F".toList .Hex .UInt8, ⟨1, 1⟩, ⟨0, 6⟩⟩, ⟨[';'], 6, ⟨1, 7⟩⟩) := by
    decide +kernel
  exact ⟨_, _, hread, rfl, faithful_iff hread rfl _ _⟩

/-- **`0x100u8` and `-1u8` are accepted**, and compiled to 0 and 255. -/
theorem not_faithful_uint8 :
    ¬ (Site.body (.const .any)).Faithful false "100".toList .Hex .UInt8 ∧
      ¬ (Site.body (.const .any)).Faithful true "1".toList .Dec .UInt8 := by
  have hhex : (Site.body (.const .any)).compile false "100".toList .Hex .UInt8 =
      .constant (.UInt8 0) := rfl
  have hminus : (Site.body (.const .any)).compile true "1".toList .Dec .UInt8 =
      .constant (.UInt8 255) := rfl
  refine ⟨fun h => ?_, fun h => ?_⟩
  · obtain ⟨-, hrange, -⟩ := h.1 _ hhex
    exact Nat.lt_irrefl 256 hrange
  · obtain ⟨-, hrange, -⟩ := h.1 _ hminus
    exact absurd hrange.1 (by decide)

end Dora.Language
