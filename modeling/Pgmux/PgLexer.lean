import Pgmux.Literal
import Pgmux.Scan

namespace Pgmux

section Lexer

/-- The byte can start an identifier or a keyword. -/
def isWordStart (c : UInt8) : Bool := isTagStart c || 0x80 ≤ c

/-- The byte belongs to an identifier or a keyword, if it is not the first one of it. -/
def isWordByte (c : UInt8) : Bool := isTagChar c || c == '$'.toUInt8 || 0x80 ≤ c

def isNewline (c : UInt8) : Bool := c == 10 || c == 13

def isPgSpace (c : UInt8) : Bool := isNewline c || c == 32 || c == 9 || c == 11 || c == 12

/-- How a literal in single quotes is read. A backslash escapes in E'', and B'' and X'' know no
doubled quotes. -/
inductive Quoting where
  | standard
  | escapes
  | bits
  deriving DecidableEq

/-- What stands right before a byte outside literals and comments: nothing that matters, a word of
the letter E, a word of the letter B or X, another word, digits, or a literal in single quotes.
White space and line comments with a newline among them do not end such a literal: another quote
goes on with it. -/
inductive Behind where
  | none
  | escape
  | bits
  | word
  | number
  | literal (quoting : Quoting) (newline : Bool)
  deriving DecidableEq

def Behind.start (c : UInt8) : Behind :=
  if isDigit c then .number
  else if c = 'e'.toUInt8 ∨ c = 'E'.toUInt8 then .escape
  else if c = 'b'.toUInt8 ∨ c = 'B'.toUInt8 ∨ c = 'x'.toUInt8 ∨ c = 'X'.toUInt8 then .bits
  else if isWordStart c then .word
  else .none

/-- A letter behind digits is junk that the server rejects; it is read as a word. -/
def Behind.next : Behind → UInt8 → Behind
  | .none, c => .start c
  | .number, c => if isWordStart c then .word else .start c
  | .literal q newline, c =>
    if isPgSpace c then .literal q (newline || isNewline c) else .start c
  | _, c => if isWordByte c then .word else .none

def Behind.inWord : Behind → Bool
  | .escape | .bits | .word => true
  | _ => false

/-- How the literal is read that a quote opens or continues. -/
def Behind.quoting : Behind → Quoting
  | .escape => .escapes
  | .bits => .bits
  | .literal q true => q
  | _ => .standard

/-- What counts as standing before a line comment. -/
def Behind.beforeLine : Behind → Behind
  | .literal q newline => .literal q newline
  | _ => .none

/-- The delimiter of a dollar-quoted literal at the start of the text. -/
def dollarDelimiter : Bytes → Option Bytes
  | c :: d :: s =>
    if c ≠ '$'.toUInt8 then none
    else if d = '$'.toUInt8 then some [c, d]
    else if !isWordStart d then none
    else
      let name := (d :: s).takeWhile fun c => isTagChar c || 0x80 ≤ c
      if ((d :: s).drop name.length).head? = some '$'.toUInt8 then some (c :: name ++ ['$'.toUInt8])
      else none
  | _ => none

/-- Where the lexer of PostgreSQL 16, whose parser pg_query has, stands between two bytes of a text,
with standard_conforming_strings on. `block d` is inside `d + 1` comments, `skip k m` has
`k + 1` more bytes to pass before it is in `m`. -/
inductive Lex where
  | plain (behind : Behind)
  | single (quoting : Quoting)
  | double
  | line (before : Behind)
  | block (depth : Nat)
  | dollar (tag : Bytes)
  | skip (k : Nat) (after : Lex)
  deriving DecidableEq

def Lex.next : Lex → UInt8 → Bytes → Lex
  | .skip 0 m, _, _ => m
  | .skip (k + 1) m, _, _ => .skip k m
  | .line b, c, _ => if isNewline c then .plain (b.next c) else .line b
  | .block d, c, s =>
    if c = '/'.toUInt8 ∧ s.head? = some '*'.toUInt8 then .skip 0 (.block (d + 1))
    else if c = '*'.toUInt8 ∧ s.head? = some '/'.toUInt8 then
      .skip 0 (if d = 0 then .plain .none else .block (d - 1))
    else .block d
  | .dollar tag, c, s =>
    if tag.isPrefixOf (c :: s) then .skip (tag.length - 2) (.plain .none) else .dollar tag
  | .single q, c, s =>
    if q = .escapes ∧ c = '\\'.toUInt8 then .skip 0 (.single q)
    else if c = quote then
      (if q ≠ .bits ∧ s.head? = some quote then .skip 0 (.single q)
      else .plain (.literal q false))
    else .single q
  | .double, c, _ => if c = dquote then .plain .none else .double
  | .plain b, c, s =>
    if c = '-'.toUInt8 ∧ s.head? = some '-'.toUInt8 then .line b.beforeLine
    else if c = '/'.toUInt8 ∧ s.head? = some '*'.toUInt8 then .skip 0 (.block 0)
    else if c = quote then .single b.quoting
    else if c = dquote then .double
    else
      match if b.inWord then none else dollarDelimiter (c :: s) with
      | some tag => .skip (tag.length - 2) (.dollar tag)
      | none => .plain (b.next c)

def Lex.outside : Lex → Bool
  | .plain _ => true
  | _ => false

/-- What is left of a text in which `d + 1` comments are open up to the end of the outermost. -/
def commentBody : Nat → Bytes → Bytes
  | _, [] => []
  | _, [c] => [c]
  | d, c :: e :: s =>
    if c = '/'.toUInt8 ∧ e = '*'.toUInt8 then c :: e :: commentBody (d + 1) s
    else if c = '*'.toUInt8 ∧ e = '/'.toUInt8 then
      c :: e :: (if d = 0 then [] else commentBody (d - 1) s)
    else c :: commentBody d (e :: s)

/-- The block comments that stand in no literal and in no other comment. -/
def commentsFrom : Lex → Bytes → List Bytes
  | _, [] => []
  | m, c :: s =>
    (if m.outside ∧ c = '/'.toUInt8 ∧ s.head? = some '*'.toUInt8 then
      [ascii "/*" ++ commentBody 0 s.tail] else []) ++ commentsFrom (m.next c s) s

def topComments (query : Bytes) : List Bytes := commentsFrom (.plain .none) query

end Lexer

section Comments

theorem commentsFrom_skip (ht : t.length = k + 1) (m : Lex) (s : Bytes) :
    commentsFrom (.skip k m) (t ++ s) = commentsFrom m s := by
  induction t generalizing k with
  | nil => cases ht
  | cons c t ih =>
    cases k with
    | zero =>
      rw [List.length_eq_zero_iff.mp (Nat.succ.inj ht)]
      rfl
    | succ k => exact ih (Nat.succ.inj ht)

theorem commentBody_isPrefix (d : Nat) (s : Bytes) : commentBody d s <+: s := by
  fun_induction commentBody d s with
  | case1 => exact List.prefix_refl _
  | case2 => exact List.prefix_refl _
  | case3 d c e s h ih => simpa using ih
  | case4 d c e s ho h ih =>
    split
    · exact ⟨s, rfl⟩
    · simpa using ih
  | case5 d c e s ho hc ih => simpa using ih

theorem commentBody_unnested (hu : ∀ c ∈ u, c ≠ '/'.toUInt8 ∧ c ≠ '*'.toUInt8) (s : Bytes) :
    commentBody 0 (u ++ '*'.toUInt8 :: '/'.toUInt8 :: s) = u ++ ascii "*/" := by
  induction u with
  | nil => rfl
  | cons c u ih =>
    rw [List.forall_mem_cons] at hu
    obtain ⟨e, r, hr⟩ : ∃ e r, u ++ '*'.toUInt8 :: '/'.toUInt8 :: s = e :: r := by
      cases u with
      | nil => exact ⟨_, _, rfl⟩
      | cons e u => exact ⟨_, _, rfl⟩
    have ih := ih hu.2
    rw [hr] at ih
    rw [List.cons_append, hr, commentBody, if_neg fun h => hu.1.1 h.1, if_neg fun h => hu.1.2 h.1,
      ih]
    rfl

theorem mem_commentsFrom (h : comment ∈ commentsFrom m s) :
    ∃ t, comment = ascii "/*" ++ commentBody 0 t := by
  induction s generalizing m with
  | nil => cases h
  | cons c s ih =>
    rw [commentsFrom, List.mem_append] at h
    rcases h with h | h
    · split at h
      · exact ⟨s.tail, List.mem_singleton.mp h⟩
      · cases h
    · exact ih h

end Comments

end Pgmux
