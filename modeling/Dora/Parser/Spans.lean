import Dora.Lib.Program
import Dora.Parser.Lexer

/-!
# The spans of the tokens

Each function of the lexer takes characters from the front of the text and moves the index and the
position over them.

## Main definitions

* `Tiles`: the tokens, and white space and comments between them, make up the text

## Main results

* `readToken_spec`: what one call of `read_token` takes
* `tiles_iff`: the tokens of an ASCII text tile it if it is shorter than `2 ^ 32` bytes
* `not_tiles_spaces`: a longer text
-/

namespace Dora.Parser

open List Position
open Except (bind_eq_ok)

variable {α : Type} {pos : Position} {base : IntBase} {start : ℕ}

attribute [local simp] Except.bind Except.pure bind

/-! ## Places in a text -/

/-- The position behind a character. -/
def Position.step (pos : Position) (c : Char) : Position :=
  if c = '\n' then ⟨pos.line + 1, 1⟩
  else if c = '\t' then ⟨pos.line, 1 + Reader.tabwidth * ((pos.column - 1) / Reader.tabwidth + 1)⟩
  else ⟨pos.line, pos.column + 1⟩

/-- Line and column of the character behind `n` others: lines end with a line feed, and a tab goes
on to the next multiple of the tab width. -/
def positionAt (text : List Char) (n : ℕ) : Position := (text.take n).foldl step ⟨1, 1⟩

/-- White space and complete comments. Only the end of the text can end a line comment without a
line feed. -/
inductive Blank (atEnd : Bool) : List Char → Prop
  | nil : Blank atEnd []
  | white {c : Char} {cs : List Char} : isWhitespace c → Blank atEnd cs → Blank atEnd (c :: cs)
  | line {body cs : List Char} : '\n' ∉ body → cs.head? = some '\n' → Blank atEnd cs →
      Blank atEnd ('/' :: '/' :: (body ++ cs))
  | lastLine {body : List Char} : atEnd = true → '\n' ∉ body → Blank atEnd ('/' :: '/' :: body)
  | multi {body cs : List Char} : ¬ ['*', '/'] <:+: body ++ ['*'] → Blank atEnd cs →
      Blank atEnd ('/' :: '*' :: (body ++ '*' :: '/' :: cs))

/-- The tokens from a place of a text on: in order and inside the text, non-empty but for the last
one, at the positions of their first characters, and with nothing but blanks between them. -/
def Tiles (text : List Char) : ℕ → List Token → Prop
  | _, [] => False
  | start, [t] => t.kind = .End ∧ t.span = ⟨text.length, 0⟩ ∧
      Blank true (text.drop start) ∧ t.position = positionAt text text.length
  | start, t :: ts => t.kind ≠ .End ∧ start ≤ t.span.start ∧ 0 < t.span.count ∧
      t.span.stop ≤ text.length ∧ Blank false ((text.drop start).take (t.span.start - start)) ∧
      t.position = positionAt text t.span.start ∧ Tiles text t.span.stop ts

/-! ## Moving over characters -/

theorem pure_eq_ok {a b : α} : (pure a : Result α) = .ok b ↔ a = b := by
  simp [pure]

/-- The number of bytes of a text. -/
@[simp]
def byteLength (cs : List Char) : ℕ := (cs.map Char.utf8Size).sum

namespace Reader

/-- The reader has moved over characters. -/
structure Advances (r : Reader) (cs : List Char) (r' : Reader) : Prop where
  rest : r.rest = cs ++ r'.rest
  index : r'.index = r.index + byteLength cs
  pos : r'.pos = cs.foldl step r.pos

variable {r r' r'' : Reader} {cs cs' : List Char} {c : Char}

theorem Advances.refl (r : Reader) : r.Advances [] r := ⟨rfl, rfl, rfl⟩

theorem Advances.trans (h : r.Advances cs r') (h' : r'.Advances cs' r'') :
    r.Advances (cs ++ cs') r'' where
  rest := by rw [h.rest, h'.rest, append_assoc]
  index := by
    rw [h'.index, h.index, byteLength, byteLength, byteLength, map_append, sum_append,
      Nat.add_assoc]
  pos := by rw [h'.pos, h.pos, foldl_append]

theorem curr_eq_some : r.curr = some c ↔ ∃ cs, r.rest = c :: cs := by
  rw [curr, head?_eq_some_iff]

theorem curr_eq_none : r.curr = none ↔ r.rest = [] := by
  rw [curr, head?_eq_none_iff]

/-- `advance` moves over one character. -/
theorem advances_of_advance (h : r.advance = .ok r') : ∃ c, r.Advances [c] r' := by
  obtain ⟨rest, index, pos⟩ := r
  cases rest with
  | nil => simp [advance] at h
  | cons c cs =>
    refine ⟨c, ?_⟩
    simp only [advance, bind_eq_ok, pure_eq_ok] at h
    obtain ⟨pos', hpos, rfl⟩ := h
    refine ⟨rfl, by simp, ?_⟩
    simp only [foldl_cons, foldl_nil, step]
    unfold posAfter at hpos
    have hu32 {n m : ℕ} (h : u32 n = .ok m) : m = n := by
      unfold u32 at h
      split at h
      · exact (Except.ok.inj h).symm
      · cases h
    have hnew {l k : ℕ} {p : Position} (h : new l k = .ok p) : p = ⟨l, k⟩ := by
      unfold new at h
      split at h
      · exact (Except.ok.inj h).symm
      · cases h
    split_ifs at hpos ⊢ <;>
    · simp only [bind_eq_ok] at hpos
      obtain ⟨n, hn, hp⟩ := hpos
      rw [hnew hp, hu32 hn]

theorem advances_of_advance_cons (hr : r.rest = c :: cs) (h : r.advance = .ok r') :
    r.Advances [c] r' ∧ r'.rest = cs := by
  obtain ⟨d, hd⟩ := advances_of_advance h
  have hrest := hd.rest
  rw [hr, singleton_append] at hrest
  obtain ⟨rfl, hcs⟩ := List.cons.inj hrest
  exact ⟨hd, hcs.symm⟩

/-- The reader has moved, or has stayed where it was. -/
def Moves (r r' : Reader) : Prop := ∃ cs, r.Advances cs r'

/-- The reader has moved over at least one character. -/
def MovesOn (r r' : Reader) : Prop := ∃ cs, cs ≠ [] ∧ r.Advances cs r'

theorem MovesOn.moves (h : r.MovesOn r') : r.Moves r' := ⟨h.choose, h.choose_spec.2⟩

theorem Moves.refl (r : Reader) : r.Moves r := ⟨[], .refl r⟩

theorem Moves.trans (h : r.Moves r') (h' : r'.Moves r'') : r.Moves r'' :=
  ⟨_, h.choose_spec.trans h'.choose_spec⟩

theorem MovesOn.trans (h : r.MovesOn r') (h' : r'.Moves r'') : r.MovesOn r'' := by
  obtain ⟨cs, hne, hcs⟩ := h
  exact ⟨_, by simp [hne], hcs.trans h'.choose_spec⟩

theorem Moves.trans_movesOn (h : r.Moves r') (h' : r'.MovesOn r'') : r.MovesOn r'' := by
  obtain ⟨cs, hne, hcs⟩ := h'
  exact ⟨_, by simp [hne], h.choose_spec.trans hcs⟩

theorem movesOn_of_advance (h : r.advance = .ok r') : r.MovesOn r' := by
  obtain ⟨c, hc⟩ := advances_of_advance h
  exact ⟨[c], by simp, hc⟩

theorem currIs_cons {p : Char → Bool} (hr : r.rest = c :: cs) : r.currIs p = p c := by
  simp [currIs, curr, hr]

theorem startsWith_eq {d : Char} (hc : c.utf8Size = 1) :
    r.startsWith c d = .ok (decide ([c, d] <+: r.rest)) := by
  obtain ⟨rest, index, pos⟩ := r
  unfold startsWith
  cases rest with
  | nil => simp [curr]
  | cons a as =>
    by_cases ha : a = c
    · subst ha
      cases as with
      | nil => simp [next, hc, pure]
      | cons b bs =>
        simp [curr, next, hc, pure, eq_comm]
    · have hca : c ≠ a := fun h => ha h.symm
      simp [curr, ha, hca]

theorem prefix_pair_iff {d : Char} {l : List Char} : [c, d] <+: l ↔ ∃ cs, l = c :: d :: cs :=
  ⟨fun ⟨cs, h⟩ => ⟨cs, h.symm⟩, fun ⟨cs, h⟩ => ⟨cs, h.symm⟩⟩

end Reader

open Reader

variable {r r' : Reader} {value value0 cs : List Char} {tok : Token} {p : Char → Bool}
  {kind : TokenKind} {c : Char} {fuel n : ℕ} {tokens : List Token}

/-! ## Loops -/

section

variable (h : readWhile p r = .ok (value, r'))
include h

/-- A loop over characters takes the longest part of the text that passes the test. -/
theorem advances_of_readWhile : r.Advances value r' ∧ (∀ c ∈ value, p c) ∧ r'.currIs p = false := by
  unfold readWhile at h
  generalize hl : r.rest = l at h
  induction l generalizing r value with
  | nil =>
    obtain ⟨rfl, rfl⟩ := Prod.mk.inj (Except.ok.inj h)
    exact ⟨.refl r, by simp, by simp [currIs, curr, hl]⟩
  | cons c cs ih =>
    unfold readWhileOn at h
    split_ifs at h with hp
    · simp only [bind_eq_ok, Prod.exists] at h
      obtain ⟨r1, hr1, l, r2, hr2, rfl, rfl⟩ := h
      obtain ⟨hadv, hrest⟩ := advances_of_advance_cons hl hr1
      obtain ⟨htail, hall, hstop⟩ := ih hrest hr2
      exact ⟨hadv.trans htail, forall_mem_cons.mpr ⟨hp, hall⟩, hstop⟩
    · obtain ⟨rfl, rfl⟩ := Prod.mk.inj (Except.ok.inj h)
      refine ⟨.refl r, by simp, ?_⟩
      rw [currIs_cons hl]
      simpa using hp

theorem moves_of_readWhile : r.Moves r' :=
  ⟨value, (advances_of_readWhile h).1⟩

theorem movesOn_of_readWhile (hp : r.currIs p = true) : r.MovesOn r' := by
  obtain ⟨hadv, -, hstop⟩ := advances_of_readWhile h
  refine ⟨value, fun hnil => ?_, hadv⟩
  have hrest := hadv.rest
  rw [hnil, nil_append] at hrest
  simp only [currIs, curr, hrest] at hp hstop
  rw [hp] at hstop
  cases hstop

end

theorem advances_of_skipWhite (h : skipWhite r = .ok r') :
    ∃ gap, r.Advances gap r' ∧ (∀ c ∈ gap, isWhitespace c) ∧ r'.currIs isWhitespace = false := by
  simp only [skipWhite, bind_eq_ok, pure_eq_ok, Prod.exists] at h
  obtain ⟨gap, r1, hr1, rfl⟩ := h
  exact ⟨gap, advances_of_readWhile hr1⟩

theorem advances_of_readComment (hr : r.rest = '/' :: '/' :: cs) (h : readComment r = .ok r') :
    ∃ body, '\n' ∉ body ∧ r.Advances ('/' :: '/' :: body) r' ∧
      (r'.rest = [] ∨ r'.curr = some '\n') := by
  simp only [readComment, bind_eq_ok, pure_eq_ok, Prod.exists] at h
  obtain ⟨l, r1, hr1, rfl⟩ := h
  obtain ⟨hadv, hall, hstop⟩ := advances_of_readWhile hr1
  have hrest := hadv.rest
  rw [hr] at hrest
  -- the loop does not stop in front of a slash
  have hslash {l' : List Char} (hl' : r1.rest = '/' :: l') : False := by
    rw [currIs_cons hl'] at hstop
    cases hstop
  obtain ⟨body, rfl⟩ : ∃ body, l = '/' :: '/' :: body := by
    match l, hrest with
    | [], hrest => exact (hslash hrest.symm).elim
    | [_], hrest =>
      simp only [cons_append, List.cons.injEq] at hrest
      exact (hslash hrest.2.symm).elim
    | a :: b :: body, hrest =>
      simp only [cons_append, List.cons.injEq] at hrest
      exact ⟨body, by rw [← hrest.1, ← hrest.2.1]⟩
  refine ⟨body, fun hmem => ?_, hadv, ?_⟩
  · have := hall '\n' (by simp [hmem])
    cases this
  · cases hrest1 : r1.rest with
    | nil => exact .inl rfl
    | cons c cs =>
      rw [currIs_cons hrest1] at hstop
      refine .inr (curr_eq_some.mpr ⟨cs, ?_⟩)
      rw [hrest1]
      simp only [isNewline, Bool.not_eq_false', decide_eq_true_eq] at hstop
      rw [hstop]

/-- The loop of a long comment stops in front of the first end of a comment. -/
theorem advances_of_skipToCommentEnd (h : skipToCommentEnd r.rest r = .ok r') :
    ∃ body, r.Advances body r' ∧ (r'.rest = [] ∨
      (∃ cs, r'.rest = '*' :: '/' :: cs) ∧ ¬ ['*', '/'] <:+: body ++ ['*']) := by
  generalize hl : r.rest = l at h
  induction l generalizing r with
  | nil =>
    obtain rfl := Except.ok.inj h
    exact ⟨[], .refl r, .inl hl⟩
  | cons c cs ih =>
    unfold skipToCommentEnd at h
    rw [startsWith_eq (by decide)] at h
    simp only [bind_eq_ok, Except.ok.injEq, exists_eq_left'] at h
    split_ifs at h with hend
    · obtain rfl := pure_eq_ok.mp h
      refine ⟨[], .refl r, .inr ⟨prefix_pair_iff.mp (of_decide_eq_true hend), ?_⟩⟩
      intro hinfix
      have := hinfix.length_le
      simp at this
    · simp only [bind_eq_ok] at h
      obtain ⟨r1, hr1, h⟩ := h
      obtain ⟨hadv, hrest⟩ := advances_of_advance_cons hl hr1
      obtain ⟨body, hbody, hstop⟩ := ih hrest h
      refine ⟨c :: body, hadv.trans hbody, hstop.imp_right fun ⟨hcs, hno⟩ => ⟨hcs, ?_⟩⟩
      intro hinfix
      rw [cons_append, infix_cons_iff] at hinfix
      rcases hinfix with hprefix | hinfix
      · -- the end of a comment would have been there before
        obtain ⟨l, hl'⟩ := hprefix
        simp only [cons_append, List.cons.injEq] at hl'
        obtain ⟨rfl, hl'⟩ := hl'
        cases body with
        | nil => simp at hl'
        | cons d body =>
          simp only [cons_append, List.cons.injEq] at hl'
          have hrest1 := hbody.rest
          rw [hrest] at hrest1
          refine hend (decide_eq_true (prefix_pair_iff.mpr ⟨body ++ r'.rest, ?_⟩))
          rw [hl, hrest1, ← hl'.1]
          rfl
      · exact hno hinfix

theorem advances_of_readMultiComment (hr : r.rest = '/' :: '*' :: cs)
    (h : readMultiComment r = .ok r') :
    ∃ body, ¬ ['*', '/'] <:+: body ++ ['*'] ∧
      r.Advances ('/' :: '*' :: (body ++ ['*', '/'])) r' := by
  simp only [readMultiComment, bind_eq_ok] at h
  obtain ⟨r1, hr1, r2, hr2, r3, hr3, h⟩ := h
  obtain ⟨hadv1, hrest1⟩ := advances_of_advance_cons hr hr1
  have hadv2 := (advances_of_advance_cons hrest1 hr2).1
  obtain ⟨body, hbody, hstop⟩ := advances_of_skipToCommentEnd hr3
  split_ifs at h with hnone
  · simp at h
  · simp only [bind_eq_ok] at h
    obtain ⟨r4, hr4, hr'⟩ := h
    rcases hstop with hnil | ⟨⟨cs', hcs'⟩, hno⟩
    · exact absurd (curr_eq_none.mpr hnil) hnone
    · obtain ⟨hadv4, hrest4⟩ := advances_of_advance_cons hcs' hr4
      have hadv' := (advances_of_advance_cons hrest4 hr').1
      refine ⟨body, hno, ?_⟩
      have := hadv1.trans (hadv2.trans (hbody.trans (hadv4.trans hadv')))
      simpa using this

/-! ## One token -/

/-- A token other than the last one, from a reader to a later one. -/
structure Reads (r : Reader) (tok : Token) (r' : Reader) : Prop where
  movesOn : r.MovesOn r'
  kind : tok.kind ≠ .End
  position : tok.position = r.pos
  span : r'.spanFrom r.idx = .ok tok.span

theorem reads_of_token {r1 : Reader} (h : r1.token r kind = .ok (tok, r')) (hmoves : r.MovesOn r1)
    (hkind : kind ≠ .End) : Reads r tok r' := by
  simp only [Reader.token, bind_eq_ok] at h
  obtain ⟨span, hspan, rfl, rfl⟩ := h
  exact ⟨hmoves, hkind, rfl, hspan⟩

theorem throw_ne_ok {e : Failure} {a : α} : (throw e : Result α) ≠ .ok a := by
  simp

theorem reads_of_readIdentifier (hr : r.currIs isIdentifierStart = true)
    (h : readIdentifier r = .ok (tok, r')) : Reads r tok r' := by
  simp only [readIdentifier, bind_eq_ok, Prod.exists] at h
  obtain ⟨value, r1, hr1, h⟩ := h
  have hcurr : r.currIs isIdentifier = true := by
    simp only [currIs, Option.any_eq_true] at hr ⊢
    obtain ⟨c, hc, hstart⟩ := hr
    exact ⟨c, hc, by simp [isIdentifier, hstart]⟩
  refine reads_of_token h (movesOn_of_readWhile hr1 hcurr) ?_
  -- no keyword is the end of the text
  have hkeywords : ∀ kv ∈ keywords, kv.2 ≠ .End := by decide
  cases hlookup : keywords.lookup value with
  | none =>
    split_ifs <;> simp
  | some kind =>
    obtain ⟨l1, l2, hl, -⟩ := lookup_eq_some_iff.mp hlookup
    exact hkeywords (value, kind) (by simp [hl])

theorem movesOn_of_readEscapedChar {unclosed : ParseError}
    (h : readEscapedChar pos unclosed r = .ok (c, r')) : r.MovesOn r' := by
  unfold readEscapedChar at h
  split at h
  · exact absurd h throw_ne_ok
  · simp only [bind_eq_ok] at h
    obtain ⟨r1, hr1, h⟩ := h
    have hmoves := movesOn_of_advance hr1
    split_ifs at h
    · split at h
      · exact absurd h throw_ne_ok
      · simp only [bind_eq_ok] at h
        obtain ⟨r2, hr2, h⟩ := h
        split at h
        · obtain ⟨-, rfl⟩ := Prod.mk.inj (pure_eq_ok.mp h)
          exact hmoves.trans (movesOn_of_advance hr2).moves
        · exact absurd h throw_ne_ok
    · obtain ⟨-, rfl⟩ := Prod.mk.inj (pure_eq_ok.mp h)
      exact hmoves

theorem reads_of_readCharLiteral (h : readCharLiteral r = .ok (tok, r')) : Reads r tok r' := by
  simp only [readCharLiteral, bind_eq_ok, Prod.exists] at h
  obtain ⟨r1, hr1, c, r2, hr2, h⟩ := h
  have hmoves := (movesOn_of_advance hr1).trans (movesOn_of_readEscapedChar hr2).moves
  split_ifs at h
  · simp only [bind_eq_ok] at h
    obtain ⟨r3, hr3, h⟩ := h
    exact reads_of_token h (hmoves.trans (movesOn_of_advance hr3).moves) (by simp)

theorem moves_of_readStringOn {expression : Bool}
    (h : readStringOn pos fuel value0 r = .ok (value, expression, r')) : r.Moves r' := by
  induction fuel generalizing r value0 with
  | zero => cases h
  | succ fuel ih =>
    unfold readStringOn at h
    split_ifs at h
    · rw [startsWith_eq (by decide)] at h
      simp only [bind_eq_ok, Except.ok.injEq, exists_eq_left'] at h
      split_ifs at h
      · simp only [bind_eq_ok] at h
        obtain ⟨r1, hr1, r2, hr2, -, -, rfl⟩ := h
        exact ((movesOn_of_advance hr1).trans (movesOn_of_advance hr2).moves).moves
      · simp only [bind_eq_ok, Prod.exists] at h
        obtain ⟨c, r1, hr1, h⟩ := h
        exact (movesOn_of_readEscapedChar hr1).moves.trans (ih h)
    · simp only [Except.ok.injEq, Prod.mk.injEq] at h
      exact h.2.2 ▸ .refl r

theorem reads_of_readString (h : readString true r = .ok (tok, r')) : Reads r tok r' := by
  simp only [readString, skipStart, if_true, bind_eq_ok, Prod.exists] at h
  obtain ⟨r1, hr1, value, expression, r2, hr2, h⟩ := h
  split_ifs at hr1
  have hmoves := (movesOn_of_advance hr1).trans (moves_of_readStringOn hr2)
  split_ifs at h
  · exact reads_of_token h hmoves (by simp)
  · simp only [bind_eq_ok] at h
    obtain ⟨r3, hr3, h⟩ := h
    exact reads_of_token h (hmoves.trans (movesOn_of_advance hr3).moves) (by simp)

theorem moves_of_advanceBy (h : Reader.advanceBy n r = .ok r') : r.Moves r' := by
  induction n generalizing r with
  | zero => exact Except.ok.inj h ▸ .refl r
  | succ n ih =>
    simp only [Reader.advanceBy, bind_eq_ok] at h
    obtain ⟨r1, hr1, h⟩ := h
    exact (movesOn_of_advance hr1).moves.trans (ih h)

theorem operatorAfter_ne_end {ch nch nnch : Char} (h : operatorAfter ch nch nnch = some (kind, n)) :
    kind ≠ .End := by
  rintro rfl
  unfold operatorAfter at h
  split at h <;> (try split_ifs at h) <;> simp at h

theorem reads_of_readOperator (h : readOperator r = .ok (tok, r')) : Reads r tok r' := by
  unfold readOperator at h
  split at h
  · cases h
  · simp only [bind_eq_ok] at h
    obtain ⟨r1, hr1, nnch, -, h⟩ := h
    split at h
    · exact absurd h throw_ne_ok
    · rename_i kind n hoperator
      simp only [bind_eq_ok] at h
      obtain ⟨r2, hr2, h⟩ := h
      exact reads_of_token h ((movesOn_of_advance hr1).trans (moves_of_advanceBy hr2))
        (operatorAfter_ne_end hoperator)

/-! ## Numbers -/

theorem moves_of_readSign (h : readSign value0 r = .ok (value, r')) : r.Moves r' := by
  unfold readSign at h
  split at h
  · cases h
    exact .refl r
  · split_ifs at h
    · simp only [bind_eq_ok] at h
      obtain ⟨r1, hr1, -, rfl⟩ := h
      exact (movesOn_of_advance hr1).moves
    · cases h
      exact .refl r

theorem moves_of_readExponent (h : readExponent value0 r = .ok (value, r')) : r.Moves r' := by
  unfold readExponent at h
  split at h
  · cases h
    exact .refl r
  · split_ifs at h
    · simp only [bind_eq_ok, Prod.exists] at h
      obtain ⟨r1, hr1, value1, r2, hr2, digits, r3, hr3, -, rfl⟩ := h
      exact (movesOn_of_advance hr1).moves.trans
        ((moves_of_readSign hr2).trans (moves_of_readWhile hr3))
    · cases h
      exact .refl r

theorem reads_of_readNumberAsFloat {first : Reader}
    (h : readNumberAsFloat first value0 r = .ok (tok, r')) (hmoves : first.Moves r) :
    Reads first tok r' := by
  simp only [readNumberAsFloat, bind_eq_ok, Prod.exists] at h
  obtain ⟨r1, hr1, digits, r2, hr2, value, r3, hr3, h⟩ := h
  have hmoves := hmoves.trans_movesOn
    ((movesOn_of_advance hr1).trans ((moves_of_readWhile hr2).trans (moves_of_readExponent hr3)))
  split_ifs at h
  · simp only [bind_eq_ok, Prod.exists] at h
    obtain ⟨suffix, r4, hr4, h⟩ := h
    have hmoves := hmoves.trans (moves_of_readWhile hr4)
    split_ifs at h
    · exact reads_of_token h hmoves (by simp)
    · exact reads_of_token h hmoves (by simp)
  · exact reads_of_token h hmoves (by simp)

theorem movesOn_or_of_readBase (h : readBase r = .ok (base, r')) :
    r.MovesOn r' ∨ base = .Dec ∧ r' = r := by
  unfold readBase at h
  split_ifs at h
  · simp only [bind_eq_ok] at h
    obtain ⟨next, -, h⟩ := h
    have htwo {b : IntBase}
        (h : (do return (b, ← (← r.advance).advance)) = .ok (base, r')) :
        r.MovesOn r' := by
      simp only [bind_eq_ok] at h
      obtain ⟨r1, hr1, r2, hr2, -, rfl⟩ := h
      exact (movesOn_of_advance hr1).trans (movesOn_of_advance hr2).moves
    split_ifs at h
    · exact .inl (htwo h)
    · exact .inl (htwo h)
    · obtain ⟨rfl, rfl⟩ := Prod.mk.inj (pure_eq_ok.mp h)
      exact .inr ⟨rfl, rfl⟩
  · cases h
    exact .inr ⟨rfl, rfl⟩

theorem numberKind_ne_end {suffix : List Char}
    (h : numberKind value base suffix = some kind) : kind ≠ .End := by
  rintro rfl
  unfold numberKind at h
  split_ifs at h <;> simp at h

theorem reads_of_readNumber (hr : r.currIs isDigit = true) (h : readNumber r = .ok (tok, r')) :
    Reads r tok r' := by
  simp only [readNumber, bind_eq_ok, Prod.exists] at h
  obtain ⟨base, r1, hr1, value, r2, hr2, isFloat, -, h⟩ := h
  -- a number without a prefix has its first digit
  have hmoves : r.MovesOn r2 := by
    rcases movesOn_or_of_readBase hr1 with hmoves | ⟨rfl, rfl⟩
    · exact hmoves.trans (moves_of_readWhile hr2)
    · refine movesOn_of_readWhile hr2 ?_
      simp only [currIs, Option.any_eq_true] at hr ⊢
      obtain ⟨c, hc, hdigit⟩ := hr
      have hdigit : isDigitOf 10 c = true := hdigit
      exact ⟨c, hc, by simp [isDigitOrUnderscore, IntBase.num, hdigit]⟩
  split_ifs at h
  · exact reads_of_readNumberAsFloat h hmoves.moves
  · simp only [bind_eq_ok, Prod.exists] at h
    obtain ⟨suffix, r3, hr3, h⟩ := h
    split at h
    · rename_i kind hkind
      exact reads_of_token h (hmoves.trans (moves_of_readWhile hr3)) (numberKind_ne_end hkind)
    · exact absurd h throw_ne_ok
  · exact reads_of_token h hmoves (by simp)

theorem reads_of_readTokenAt (hc : r.curr = some c) (h : readTokenAt c r = .ok (tok, r')) :
    Reads r tok r' := by
  unfold readTokenAt at h
  split_ifs at h with hstart
  · exact reads_of_readIdentifier (by simp [currIs, hc, hstart]) h
  · exact reads_of_readString h
  · exact reads_of_readCharLiteral h
  · exact reads_of_readOperator h

/-! ## Blanks and a token -/

theorem Blank.white_append {atEnd : Bool} {ws : List Char} (hws : ∀ c ∈ ws, isWhitespace c)
    (hcs : Blank atEnd cs) : Blank atEnd (ws ++ cs) := by
  induction ws with
  | nil => exact hcs
  | cons c ws ih =>
    obtain ⟨hc, hws⟩ := forall_mem_cons.mp hws
    exact .white hc (ih hws)

/-- The token for the end of the text. -/
structure Ends (r : Reader) (tok : Token) : Prop where
  rest : r.rest = []
  kind : tok.kind = .End
  position : tok.position = r.pos
  span : Span.at r.idx = .ok tok.span

/-- What a call of `read_token` takes: blanks, and then a token. -/
structure Skips (r : Reader) (tok : Token) (r' : Reader) (gap : List Char) (r1 : Reader) :
    Prop where
  advances : r.Advances gap r1
  stop : r1.currIs isWhitespace = false
  blank : Blank (decide (tok.kind = .End)) gap
  token : Ends r1 tok ∧ r' = r1 ∨ Reads r1 tok r'

/-- Its loop skips blanks until a token starts. -/
theorem exists_skips_of_readTokenOn (h : readTokenOn fuel r = .ok (tok, r')) :
    ∃ gap r1, Skips r tok r' gap r1 := by
  induction fuel generalizing r with
  | zero => cases h
  | succ fuel ih =>
    simp only [readTokenOn, bind_eq_ok] at h
    obtain ⟨r0, hr0, h⟩ := h
    obtain ⟨ws, hadv, hws, hstop⟩ := advances_of_skipWhite hr0
    have hblank {atEnd : Bool} : Blank atEnd ws := by
      simpa using Blank.white_append hws .nil
    split at h
    · rename_i hcurr
      simp only [bind_eq_ok, pure_eq_ok, Prod.mk.injEq] at h
      obtain ⟨span, hspan, rfl, rfl⟩ := h
      exact ⟨ws, r0, hadv, hstop, hblank, .inl ⟨⟨curr_eq_none.mp hcurr, rfl, rfl, hspan⟩, rfl⟩⟩
    · rename_i c hcurr
      split_ifs at h with hdigit
      · exact ⟨ws, r0, hadv, hstop, hblank,
          .inr (reads_of_readNumber (by simp [currIs, hcurr, hdigit]) h)⟩
      rw [startsWith_eq (by decide)] at h
      simp only [bind_eq_ok, Except.ok.injEq, exists_eq_left'] at h
      split_ifs at h with hline
      · -- a line comment, and the rest of the loop
        simp only [bind_eq_ok] at h
        obtain ⟨r2, hr2, h⟩ := h
        obtain ⟨cs, hcs⟩ := prefix_pair_iff.mp (of_decide_eq_true hline)
        obtain ⟨body, hbody, hadv2, hend⟩ := advances_of_readComment hcs hr2
        obtain ⟨gap, r1, hskips⟩ := ih h
        refine ⟨ws ++ ('/' :: '/' :: body ++ gap), r1, hadv.trans (hadv2.trans hskips.advances),
          hskips.stop, .white_append hws ?_, hskips.token⟩
        have hrest := hskips.advances.rest
        rcases hend with hnil | hnewline
        · -- the text has ended with the comment
          obtain ⟨rfl, hr1⟩ := append_eq_nil_iff.mp (hrest.symm.trans hnil)
          have hkind : tok.kind = .End := by
            rcases hskips.token with ⟨hends, -⟩ | hreads
            · exact hends.kind
            · obtain ⟨cs, hne, hcs⟩ := hreads.movesOn
              exact absurd (append_eq_nil_iff.mp (hcs.rest.symm.trans hr1)).1 hne
          rw [append_nil]
          exact .lastLine (decide_eq_true hkind) hbody
        · -- the line feed is the first blank behind the comment
          obtain ⟨cs', hcs'⟩ := curr_eq_some.mp hnewline
          refine Blank.line hbody ?_ hskips.blank
          cases gap with
          | nil =>
            have hstop := hskips.stop
            rw [currIs_cons (hrest.symm.trans hcs')] at hstop
            cases hstop
          | cons g gap =>
            rw [hcs', cons_append] at hrest
            rw [head?_cons, ← (List.cons.inj hrest).1]
      rw [startsWith_eq (by decide)] at h
      simp only [bind_eq_ok, Except.ok.injEq, exists_eq_left'] at h
      split_ifs at h with hmulti
      · simp only [bind_eq_ok] at h
        obtain ⟨r2, hr2, h⟩ := h
        obtain ⟨cs, hcs⟩ := prefix_pair_iff.mp (of_decide_eq_true hmulti)
        obtain ⟨body, hbody, hadv2⟩ := advances_of_readMultiComment hcs hr2
        obtain ⟨gap, r1, hskips⟩ := ih h
        refine ⟨ws ++ ('/' :: '*' :: (body ++ ['*', '/']) ++ gap), r1,
          hadv.trans (hadv2.trans hskips.advances), hskips.stop, .white_append hws ?_,
          hskips.token⟩
        have := Blank.multi hbody hskips.blank
        simpa using this
      · exact ⟨ws, r0, hadv, hstop, hblank, .inr (reads_of_readTokenAt hcurr h)⟩

/-- **One call of `read_token`**: white space and comments, then one token. -/
theorem readToken_spec (h : readToken r = .ok (tok, r')) : ∃ gap r1, Skips r tok r' gap r1 :=
  exists_skips_of_readTokenOn h

/-! ## All tokens -/

theorem start_lt_of_new {count : ℕ} {span : Span} (h : Span.new start count = .ok span) :
    span = ⟨start, count⟩ ∧ start < 2 ^ 32 - 1 := by
  unfold Span.new at h
  split_ifs at h with hlt
  exact ⟨(Except.ok.inj h).symm, hlt⟩

/-- The start of a span is below the greatest `u32`. -/
theorem start_lt_of_readTokensOn (h : readTokensOn fuel r = .ok tokens) :
    ∀ t ∈ tokens, t.span.start < 2 ^ 32 - 1 := by
  induction fuel generalizing r tokens with
  | zero => cases h
  | succ fuel ih =>
    simp only [readTokensOn, bind_eq_ok, Prod.exists] at h
    obtain ⟨tok, r', htok, h⟩ := h
    have hstart : tok.span.start < 2 ^ 32 - 1 := by
      obtain ⟨gap, r1, hskips⟩ := readToken_spec htok
      rcases hskips.token with ⟨hends, -⟩ | hreads
      · obtain ⟨hspan, hlt⟩ := start_lt_of_new hends.span
        exact hspan ▸ hlt
      · have hspan := hreads.span
        unfold Reader.spanFrom at hspan
        split_ifs at hspan
        obtain ⟨hspan, hlt⟩ := start_lt_of_new hspan
        exact hspan ▸ hlt
    split_ifs at h
    · obtain rfl := pure_eq_ok.mp h
      simpa using hstart
    · simp only [bind_eq_ok, pure_eq_ok] at h
      obtain ⟨rest, hrest, rfl⟩ := h
      exact forall_mem_cons.mpr ⟨hstart, ih hrest⟩

theorem Tiles.exists_end {text : List Char} (h : Tiles text start tokens) :
    ∃ t ∈ tokens, t.span.start = text.length := by
  induction tokens generalizing start with
  | nil => exact h.elim
  | cons t ts ih =>
    cases ts with
    | nil => exact ⟨t, by simp, by rw [h.2.1]⟩
    | cons t' ts =>
      obtain ⟨t'', hmem, hstart⟩ := ih h.2.2.2.2.2.2
      exact ⟨t'', mem_cons_of_mem t hmem, hstart⟩

/-- A reader inside an ASCII text. -/
structure Inside (text : List Char) (r : Reader) : Prop where
  index_le : r.index ≤ text.length
  rest : r.rest = text.drop r.index
  pos : r.pos = positionAt text r.index

section Ascii

variable {text : List Char} (hascii : ∀ c ∈ text, c.utf8Size = 1)
include hascii

theorem byteLength_eq_length {cs : List Char} (hcs : ∀ c ∈ cs, c ∈ text) :
    byteLength cs = cs.length := by
  induction cs with
  | nil => rfl
  | cons c cs ih =>
    obtain ⟨hc, hcs⟩ := forall_mem_cons.mp hcs
    have := ih hcs
    simp only [byteLength, map_cons, sum_cons, length_cons] at this ⊢
    rw [hascii c hc, this]
    omega

/-- Moving over characters keeps the reader inside the text, and takes the part of the text between
the two indices. -/
theorem Inside.advances {cs : List Char} (hr : Inside text r) (h : r.Advances cs r') :
    Inside text r' ∧ r'.index = r.index + cs.length ∧ cs = (text.drop r.index).take cs.length := by
  have hrest : text.drop r.index = cs ++ r'.rest := hr.rest.symm.trans h.rest
  have hmem : ∀ c ∈ cs, c ∈ text := fun c hc =>
    mem_of_mem_drop (hrest ▸ mem_append_left _ hc : c ∈ text.drop r.index)
  have hindex : r'.index = r.index + cs.length := by
    rw [h.index, byteLength_eq_length hascii hmem]
  have hlen := congrArg List.length hrest
  rw [length_drop, length_append] at hlen
  refine ⟨⟨?_, ?_, ?_⟩, hindex, by rw [hrest, take_left]⟩
  · have := hr.index_le
    omega
  · rw [hindex, ← drop_drop, hrest, drop_left]
  · rw [h.pos, hr.pos, hindex, positionAt, positionAt, take_add, hrest, take_left, foldl_append]

/-- **The tokens of a run tile the text**, as long as its indices fit. -/
theorem tiles_of_readTokensOn (hlen : text.length < 2 ^ 32) {fuel : ℕ} {tokens : List Token}
    (hr : Inside text r) (h : readTokensOn fuel r = .ok tokens) : Tiles text r.index tokens := by
  induction fuel generalizing r tokens with
  | zero => cases h
  | succ fuel ih =>
    simp only [readTokensOn, bind_eq_ok, Prod.exists] at h
    obtain ⟨tok, r', htok, h⟩ := h
    obtain ⟨gap, r1, hskips⟩ := readToken_spec htok
    obtain ⟨hr1, hindex1, hgap⟩ := hr.advances hascii hskips.advances
    have hidx {r : Reader} (hr : Inside text r) : r.idx = r.index :=
      Nat.mod_eq_of_lt (by have := hr.index_le; omega)
    split_ifs at h with hend
    · -- the end of the text
      obtain rfl := pure_eq_ok.mp h
      rcases hskips.token with ⟨hends, rfl⟩ | hreads
      · have hfull : r'.index = text.length := by
          have hnil := hr1.rest.symm.trans hends.rest
          have := hr1.index_le
          rw [drop_eq_nil_iff] at hnil
          omega
        refine ⟨hend, ?_, ?_, ?_⟩
        · rw [(start_lt_of_new hends.span).1, hidx hr1, hfull]
        · have hblank := hskips.blank
          rw [hgap, decide_eq_true hend] at hblank
          rwa [take_of_length_le] at hblank
          rw [length_drop]
          omega
        · rw [hends.position, hr1.pos, hfull]
      · exact absurd hend hreads.kind
    · simp only [bind_eq_ok, pure_eq_ok] at h
      obtain ⟨rest, hrest, rfl⟩ := h
      rcases hskips.token with ⟨hends, -⟩ | hreads
      · exact absurd hends.kind hend
      · obtain ⟨word, hne, hword⟩ := hreads.movesOn
        obtain ⟨hr', hindex', -⟩ := hr1.advances hascii hword
        have hpos := length_pos_of_ne_nil hne
        have hspan := hreads.span
        unfold Reader.spanFrom at hspan
        rw [hidx hr1, hidx hr', if_pos (by omega)] at hspan
        have hspan := (start_lt_of_new hspan).1
        have hstop : tok.span.stop = r'.index := by
          have hle : r1.index ≤ r'.index := by omega
          rw [hspan]
          exact Nat.add_sub_cancel' hle
        have htiles : Tiles text tok.span.stop rest := hstop ▸ ih hr' hrest
        -- there is always a next token
        cases rest with
        | nil => exact htiles.elim
        | cons t ts =>
          refine ⟨hreads.kind, ?_, ?_, ?_, ?_, ?_, htiles⟩
          · rw [hspan]
            dsimp only
            omega
          · rw [hspan]
            dsimp only
            omega
          · rw [hstop]
            exact hr'.index_le
          · have hblank := hskips.blank
            rw [hgap, decide_eq_false hend] at hblank
            rwa [hspan, hindex1, Nat.add_sub_cancel_left]
          · rw [hreads.position, hr1.pos, hspan]

end Ascii

/-- **The spans tile an ASCII text** exactly if it is shorter than `2 ^ 32` bytes. -/
theorem tiles_iff {text : List Char} {tokens : List Token} (hascii : ∀ c ∈ text, c.toNat < 128)
    (h : readTokens text = .ok tokens) : Tiles text 0 tokens ↔ text.length < 2 ^ 32 := by
  have hsize : ∀ c ∈ text, c.utf8Size = 1 := by
    intro c hc
    have hlt := hascii c hc
    exact Char.utf8Size_eq_one_iff.mpr (UInt32.le_iff_toNat_le.mpr (Nat.le_of_lt_succ hlt))
  refine ⟨fun htiles => ?_, fun hlen => ?_⟩
  · obtain ⟨t, hmem, hstart⟩ := htiles.exists_end
    have := start_lt_of_readTokensOn h t hmem
    omega
  · exact tiles_of_readTokensOn hsize hlen ⟨Nat.zero_le _, rfl, rfl⟩ h

/-- A text with a comment. -/
theorem tiles_iff_comment :
    ∃ tokens, readTokens "a /**/+1".toList = .ok tokens ∧
      (Tiles "a /**/+1".toList 0 tokens ↔ "a /**/+1".toList.length < 2 ^ 32) :=
  ⟨[⟨.Identifier ['a'], ⟨1, 1⟩, ⟨0, 1⟩⟩, ⟨.Add, ⟨1, 7⟩, ⟨6, 1⟩⟩,
    ⟨.LitInt ['1'] .Dec .None, ⟨1, 8⟩, ⟨7, 1⟩⟩, ⟨.End, ⟨1, 9⟩, ⟨8, 0⟩⟩], by decide +kernel,
    tiles_iff (by simp) (by decide +kernel)⟩

/-! ## A text that is too long -/

/-- Line and column are positive numbers of 32 bits. -/
def Position.Fits (pos : Position) : Prop :=
  (1 ≤ pos.line ∧ pos.line < 2 ^ 32) ∧ 1 ≤ pos.column ∧ pos.column < 2 ^ 32

theorem advance_of_fits (cs : List Char) (hr : r.rest = c :: cs) (hfits : (r.pos.step c).Fits) :
    r.advance = .ok ⟨cs, r.index + c.utf8Size, r.pos.step c⟩ := by
  have hnew {n : ℕ} (p : ℕ → Position) (hn : n < 2 ^ 32)
      (hp : 1 ≤ (p n).line ∧ 1 ≤ (p n).column) :
      (u32 n >>= fun n => new (p n).line (p n).column) = .ok (p n) := by
    rw [u32, if_pos hn]
    exact if_pos hp
  have hpos : r.posAfter c = .ok (r.pos.step c) := by
    obtain ⟨⟨hline, hline'⟩, hcolumn, hcolumn'⟩ := hfits
    unfold posAfter
    unfold step at *
    split_ifs at * with hn ht
    · exact hnew (fun n => ⟨n, 1⟩) hline' ⟨hline, hcolumn⟩
    · exact hnew (fun n => ⟨r.pos.line, n⟩) hcolumn' ⟨hline, hcolumn⟩
    · exact hnew (fun n => ⟨r.pos.line, n⟩) hcolumn' ⟨hline, hcolumn⟩
  unfold advance
  rw [hr]
  simp only [hpos]
  rfl

theorem readWhile_of_fits (ws cs : List Char) (hr : r.rest = ws ++ cs) (hws : ∀ c ∈ ws, p c)
    (hcs : cs.head?.any p = false)
    (hfits : ∀ l, l <+: ws → l ≠ [] → (l.foldl step r.pos).Fits) :
    readWhile p r = .ok (ws, ⟨cs, r.index + byteLength ws, ws.foldl step r.pos⟩) := by
  unfold readWhile
  rw [hr]
  induction ws generalizing r with
  | nil =>
    obtain ⟨rest, index, pos⟩ := r
    obtain rfl : rest = cs := hr
    cases rest with
    | nil => rfl
    | cons c cs =>
      have hc : p c = false := hcs
      simp [readWhileOn, hc]
  | cons c ws ih =>
    obtain ⟨hc, hws⟩ := forall_mem_cons.mp hws
    have hadv := advance_of_fits (ws ++ cs) hr (hfits [c] (by simp) (by simp))
    rw [cons_append, readWhileOn, if_pos hc, hadv]
    have hrec := ih (r := ⟨ws ++ cs, r.index + c.utf8Size, r.pos.step c⟩) rfl hws
      fun l hl _ => hfits (c :: l) (cons_prefix_cons.mpr ⟨rfl, hl⟩) (by simp)
    simp only [bind, Except.bind, hrec, pure]
    simp [Nat.add_assoc]

theorem foldl_step_spaces (n : ℕ) (pos : Position) :
    (List.replicate n ' ').foldl step pos = ⟨pos.line, pos.column + n⟩ := by
  induction n generalizing pos with
  | zero => rfl
  | succ n ih =>
    rw [replicate_succ, foldl_cons, ih]
    have hstep : pos.step ' ' = ⟨pos.line, pos.column + 1⟩ := rfl
    rw [hstep, Nat.add_assoc, Nat.add_comm 1 n]

/-- Two lines of `n` spaces. -/
def spaces (n : ℕ) : List Char := List.replicate n ' ' ++ '\n' :: List.replicate n ' '

theorem readTokens_spaces (hn : n + 1 < 2 ^ 32) (hidx : (2 * n + 1) % 2 ^ 32 < 2 ^ 32 - 1) :
    readTokens (spaces n) = .ok [⟨.End, ⟨2, n + 1⟩, ⟨(2 * n + 1) % 2 ^ 32, 0⟩⟩] := by
  have hprefix (l : List Char) (hl : l <+: spaces n) : (l.foldl step ⟨1, 1⟩).Fits := by
    obtain ⟨k, rfl⟩ : ∃ k, l = (spaces n).take k := ⟨l.length, prefix_iff_eq_take.mp hl⟩
    rw [spaces, take_append, foldl_append, take_replicate, foldl_step_spaces, length_replicate]
    cases hk : k - n with
    | zero =>
      simp only [take_zero, foldl_nil, Position.Fits]
      omega
    | succ k' =>
      have hstep (pos : Position) : pos.step '\n' = ⟨pos.line + 1, 1⟩ := rfl
      rw [take_succ_cons, foldl_cons, take_replicate, foldl_step_spaces, hstep]
      simp only [Position.Fits]
      omega
  have hlen : byteLength (spaces n) = 2 * n + 1 := by
    have hspace : (' ').utf8Size = 1 := by decide
    have hnewline : '\n'.utf8Size = 1 := by decide
    simp [spaces, hspace]
    omega
  have hend : (spaces n).foldl step ⟨1, 1⟩ = ⟨2, n + 1⟩ := by
    have hstep (pos : Position) : pos.step '\n' = ⟨pos.line + 1, 1⟩ := rfl
    rw [spaces, foldl_append, foldl_cons, foldl_step_spaces, foldl_step_spaces, hstep,
      Nat.add_comm 1 n]
  have hall : ∀ c ∈ spaces n, isWhitespace c := by
    intro c hc
    rcases mem_append.mp hc with hc | hc
    · rw [eq_of_mem_replicate hc]
      decide
    · rcases mem_cons.mp hc with rfl | hc
      · decide
      · rw [eq_of_mem_replicate hc]
        decide
  have hwhite := readWhile_of_fits (r := .fromString (spaces n)) (spaces n) []
    (append_nil _).symm hall rfl fun l hl _ => hprefix l hl
  have hskip : skipWhite (.fromString (spaces n)) = .ok ⟨[], 2 * n + 1, ⟨2, n + 1⟩⟩ := by
    unfold skipWhite
    rw [hwhite, hlen]
    simp only [fromString, hend, Nat.zero_add]
    rfl
  have hspan : Span.at ((2 * n + 1) % 2 ^ 32) = .ok ⟨(2 * n + 1) % 2 ^ 32, 0⟩ := if_pos hidx
  unfold readTokens readTokensOn readToken readTokenOn
  rw [hskip]
  simp only [bind, Except.bind, idx, hspan]
  rfl

/-- **Spans are wrong in a text of `2 ^ 32 + 1` bytes**: the end is reported at index 1. -/
theorem not_tiles_spaces :
    ∃ tokens, readTokens (spaces (2 ^ 31)) = .ok tokens ∧ ¬ Tiles (spaces (2 ^ 31)) 0 tokens := by
  refine ⟨_, readTokens_spaces (by decide) (by decide), fun h => ?_⟩
  have hspan := congrArg Span.start h.2.1
  have hlen : (spaces (2 ^ 31)).length = 2 ^ 31 + (2 ^ 31 + 1) := by
    rw [spaces, length_append, length_cons, length_replicate]
  rw [hlen] at hspan
  exact absurd hspan (by decide)

end Dora.Parser
