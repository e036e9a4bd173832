import Mathlib.Algebra.Ring.Int.Defs
import Mathlib.Algebra.Ring.Nat
import Mathlib.Data.List.Basic

namespace Pgmux

abbrev Bytes := List UInt8

def ascii (s : String) : Bytes := s.toList.map Char.toUInt8

instance (priority := high) lawfulBytes : LawfulBEq Bytes := inferInstance

theorem forall_byte {p : UInt8 → Prop} (h : ∀ n < 256, p (.ofNat n)) (c : UInt8) : p c := by
  have hc := h c.toNat c.toNat_lt
  rwa [UInt8.ofNat_toNat] at hc

/-- The bytes of a text decide, not all bytes there are. -/
instance (priority := high) decidableForallBytes (p : UInt8 → Prop) [DecidablePred p] (s : Bytes) :
    Decidable (∀ c ∈ s, p c) := List.decidableBAll p s

instance (priority := high) decidableForallByte (p : UInt8 → Prop) [DecidablePred p]
    (c? : Option UInt8) : Decidable (∀ c ∈ c?, p c) := Option.decidableForallMem c?

/-- `strings.HasPrefix`. -/
def hasPrefix (s p : Bytes) : Bool := p.isPrefixOf s

/-- `strings.Index`; `none` stands for -1. -/
def index (sub : Bytes) : Bytes → Option Nat
  | [] => if sub = [] then some 0 else none
  | c :: s => if sub.isPrefixOf (c :: s) then some 0 else (index sub s).map (· + 1)

/-- `strings.Contains`. -/
def contains (s sub : Bytes) : Bool := (index sub s).isSome

/-- `strings.Count` for a substring that cannot overlap itself. -/
def count (sub : Bytes) : Bytes → Nat
  | [] => 0
  | c :: s => (if sub.isPrefixOf (c :: s) then 1 else 0) + count sub s

/-- The ASCII part of `unicode.IsSpace`. -/
def isAsciiSpace (c : UInt8) : Bool := (9 ≤ c && c ≤ 13) || c == 32

def isSpace2 (c d : UInt8) : Bool := c == 0xC2 && (d == 0x85 || d == 0xA0)

/-- UTF-8 forms of U+1680, U+2000 to U+200A, U+2028, U+2029, U+202F, U+205F and U+3000. -/
def isSpace3 (c d e : UInt8) : Bool :=
  (c == 0xE1 && d == 0x9A && e == 0x80) ||
  (c == 0xE2 && d == 0x80 && ((0x80 ≤ e && e ≤ 0x8A) || e == 0xA8 || e == 0xA9 || e == 0xAF)) ||
  (c == 0xE2 && d == 0x81 && e == 0x9F) ||
  (c == 0xE3 && d == 0x80 && e == 0x80)

/-- Drop leading white space, given the two- and three-byte white-space forms. -/
def dropSpace (two : UInt8 → UInt8 → Bool) (three : UInt8 → UInt8 → UInt8 → Bool) :
    Bytes → Bytes
  | [] => []
  | [c] => if isAsciiSpace c then [] else [c]
  | [c, d] =>
    if isAsciiSpace c then dropSpace two three [d]
    else if two c d then [] else [c, d]
  | c :: d :: e :: s =>
    if isAsciiSpace c then dropSpace two three (d :: e :: s)
    else if two c d then dropSpace two three (e :: s)
    else if three c d e then dropSpace two three s
    else c :: d :: e :: s

def trimLeft (s : Bytes) : Bytes := dropSpace isSpace2 isSpace3 s

def trimRight (s : Bytes) : Bytes :=
  (dropSpace (fun c d => isSpace2 d c) (fun c d e => isSpace3 e d c) s.reverse).reverse

/-- `strings.TrimSpace`. -/
def trimSpace (s : Bytes) : Bytes := trimRight (trimLeft s)

/-- `strings.Fields`: maximal runs of non-space runes; `cur` is the field being read. -/
def fieldsFrom (cur : Bytes) : Bytes → List Bytes
  | [] => if cur = [] then [] else [cur]
  | [c] => if isAsciiSpace c then fieldsFrom cur [] else fieldsFrom (cur ++ [c]) []
  | [c, d] =>
    if isAsciiSpace c then (if cur = [] then [] else [cur]) ++ fieldsFrom [] [d]
    else if isSpace2 c d then fieldsFrom cur []
    else fieldsFrom (cur ++ [c]) [d]
  | c :: d :: e :: s =>
    if isAsciiSpace c then (if cur = [] then [] else [cur]) ++ fieldsFrom [] (d :: e :: s)
    else if isSpace2 c d then (if cur = [] then [] else [cur]) ++ fieldsFrom [] (e :: s)
    else if isSpace3 c d e then (if cur = [] then [] else [cur]) ++ fieldsFrom [] s
    else fieldsFrom (cur ++ [c]) (d :: e :: s)

def fields (s : Bytes) : List Bytes := fieldsFrom [] s

def isCont (c : UInt8) : Bool := 0x80 ≤ c && c ≤ 0xBF

/-- `utf8.RuneError`, what Go decodes an invalid byte to. -/
def runeError : Nat := 0xFFFD

def rune2 (c d : UInt8) : Option Nat :=
  if 0xC2 ≤ c && c ≤ 0xDF && isCont d then
    some ((c.toNat % 32) * 64 + d.toNat % 64)
  else none

def rune3 (c d e : UInt8) : Option Nat :=
  if ((c == 0xE0 && 0xA0 ≤ d && d ≤ 0xBF) || (0xE1 ≤ c && c ≤ 0xEC && isCont d) ||
      (c == 0xED && 0x80 ≤ d && d ≤ 0x9F) || (0xEE ≤ c && c ≤ 0xEF && isCont d)) && isCont e then
    some ((c.toNat % 16) * 4096 + (d.toNat % 64) * 64 + e.toNat % 64)
  else none

def rune4 (c d e f : UInt8) : Option Nat :=
  if ((c == 0xF0 && 0x90 ≤ d && d ≤ 0xBF) || (0xF1 ≤ c && c ≤ 0xF3 && isCont d) ||
      (c == 0xF4 && 0x80 ≤ d && d ≤ 0x8F)) && isCont e && isCont f then
    some ((c.toNat % 8) * 262144 + (d.toNat % 64) * 4096 + (e.toNat % 64) * 64 + f.toNat % 64)
  else none

/-- The runes of a string as `range` enumerates them. -/
def runes : Bytes → List Nat
  | [] => []
  | [c] => [if c < 0x80 then c.toNat else runeError]
  | [c, d] =>
    if c < 0x80 then c.toNat :: runes [d]
    else match rune2 c d with
      | some r => [r]
      | none => runeError :: runes [d]
  | [c, d, e] =>
    if c < 0x80 then c.toNat :: runes [d, e]
    else match rune2 c d, rune3 c d e with
      | some r, _ => r :: runes [e]
      | none, some r => [r]
      | none, none => runeError :: runes [d, e]
  | c :: d :: e :: f :: s =>
    if c < 0x80 then c.toNat :: runes (d :: e :: f :: s)
    else match rune2 c d, rune3 c d e, rune4 c d e f with
      | some r, _, _ => r :: runes (e :: f :: s)
      | none, some r, _ => r :: runes (f :: s)
      | none, none, some r => r :: runes s
      | none, none, none => runeError :: runes (d :: e :: f :: s)

/-- `utf8.AppendRune`. -/
def encodeRune (r : Nat) : Bytes :=
  if r < 0x80 then [r.toUInt8]
  else if r < 0x800 then [(0xC0 + r / 64).toUInt8, (0x80 + r % 64).toUInt8]
  else if (0xD800 ≤ r && r ≤ 0xDFFF) || 0x10FFFF < r then [0xEF, 0xBF, 0xBD]
  else if r < 0x10000 then
    [(0xE0 + r / 4096).toUInt8, (0x80 + r / 64 % 64).toUInt8, (0x80 + r % 64).toUInt8]
  else
    [(0xF0 + r / 262144).toUInt8, (0x80 + r / 4096 % 64).toUInt8, (0x80 + r / 64 % 64).toUInt8,
      (0x80 + r % 64).toUInt8]

def upperByte (c : UInt8) : UInt8 := if 97 ≤ c && c ≤ 122 then c - 32 else c

def lowerByte (c : UInt8) : UInt8 := if 65 ≤ c && c ≤ 90 then c + 32 else c

/-- The Unicode simple case mappings of the Go runtime. Only U+0131 and U+017F have an ASCII
upper case, and only U+0130 and U+212A an ASCII lower case. -/
class CaseTable where
  upper : Nat → Nat
  lower : Nat → Nat
  upper_ascii : ∀ c : UInt8, c < 0x80 → upper c.toNat = (upperByte c).toNat
  lower_ascii : ∀ c : UInt8, c < 0x80 → lower c.toNat = (lowerByte c).toNat
  upper_small : ∀ r, upper r < 0x80 → r < 0x80 ∨ r = 0x131 ∨ r = 0x17F
  lower_small : ∀ r, lower r < 0x80 → r < 0x80 ∨ r = 0x130 ∨ r = 0x212A

section Case

variable [CaseTable]

/-- `strings.ToUpper`. -/
def toUpper (s : Bytes) : Bytes := (runes s).flatMap fun r => encodeRune (CaseTable.upper r)

/-- `strings.ToLower`. -/
def toLower (s : Bytes) : Bytes := (runes s).flatMap fun r => encodeRune (CaseTable.lower r)

end Case

end Pgmux
