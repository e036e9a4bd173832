import Pgmux.Literal
import Pgmux.PgLexer
import Pgmux.Regex

namespace Pgmux

open Regex

namespace Redact

inductive Policy where
  | none
  /-- Also the branch of every policy that the source does not know. -/
  | literals
  | full
  deriving DecidableEq

/-- What the redaction uses of pg_query. An error is `none`. -/
class Normalizer where
  normalize : Bytes → Option Bytes
  fingerprint : Bytes → Option Bytes

/-- The bytes of `\w`. A byte of a longer rune is none of them, and no class of the pattern tells
such bytes apart, so that the runes of the text do not matter. -/
def isRegexWord (c : UInt8) : Bool :=
  isDigit c || (65 ≤ c && c ≤ 90) || (97 ≤ c && c ≤ 122) || c == '_'.toUInt8

def isPoint (c : UInt8) : Bool := c == '.'.toUInt8

/-- A quoted text without the quote inside it: `'[^']*'` for the single quote. -/
def quotedPattern (k : UInt8) : Expr UInt8 :=
  .seq (.symbol (· == k)) (.seq (.many (· != k)) (.symbol (· == k)))

/-- `\b\d+(\.\d+)?\b`. -/
def numberPattern : Expr UInt8 :=
  .seq .boundary (.seq (.oneOrMore isDigit)
    (.seq (.alt (.seq (.symbol isPoint) (.oneOrMore isDigit)) .empty) .boundary))

def regexFallback : Expr UInt8 :=
  .alt (quotedPattern quote) (.alt (quotedPattern dquote) numberPattern)

def fallback (query : Bytes) : Bytes :=
  replaceAll isRegexWord regexFallback (ascii "?") query

section Policies

variable [Normalizer]

def sql (query : Bytes) : Policy → Bytes
  | .none => query
  | .full =>
    match Normalizer.fingerprint query with
    | some fp => ascii "[fingerprint:" ++ fp ++ ascii "]"
    | none => ascii "[unparseable query]"
  | .literals => (Normalizer.normalize query).getD (fallback query)

end Policies

def isQuote (c : UInt8) : Bool := c == quote || c == dquote

section Pattern

variable {b : Bool} {k c : UInt8}

theorem quotedPattern_closed (hy : k ∉ y) (b : Bool) (w : Bytes) :
    (quotedPattern k).matchesAt isRegexWord b (k :: y ++ k :: w) = [(k :: y ++ [k], w)] := by
  have hclass : ∀ c ∈ y, (c != k) ∧ (c == k) = false := by
    intro c hc
    have hne : c ≠ k := fun h => hy (h ▸ hc)
    simp [hne]
  have hbody : (Expr.seq (.many (· != k)) (.symbol (· == k))).matchesAt isRegexWord
      (isRegexWord k) (y ++ k :: w) = [(y ++ [k], w)] := runs_one hclass (by simp) (by simp) w
  rw [quotedPattern, Expr.matchesAt, Expr.matchesAt, List.cons_append, one, if_pos (by simp),
    List.flatMap_singleton]
  show (Expr.matchesAt isRegexWord _ (isRegexWord k) (y ++ k :: w)).map _ = _
  rw [hbody]
  rfl

theorem quotedPattern_open (hs : k ∉ s) (b : Bool) :
    (quotedPattern k).matchesAt isRegexWord b (k :: s) = [] := by
  have hclass : ∀ c ∈ s, (c == k) = false := by
    intro c hc
    have hne : c ≠ k := fun h => hs (h ▸ hc)
    simp [hne]
  rw [quotedPattern, Expr.matchesAt, Expr.matchesAt, one, if_pos (by simp), List.flatMap_singleton]
  show (Expr.matchesAt isRegexWord _ (isRegexWord k) s).map _ = _
  rw [runs_one_nil hclass]
  rfl

theorem quotedPattern_other (hc : c ≠ k) (b : Bool) (s : Bytes) :
    (quotedPattern k).matchesAt isRegexWord b (c :: s) = [] := by
  rw [quotedPattern, Expr.matchesAt, Expr.matchesAt, one, if_neg (by simp [hc])]
  rfl

theorem numberPattern_other (hc : isDigit c = false) (b : Bool) (s : Bytes) :
    numberPattern.matchesAt isRegexWord b (c :: s) = [] := by
  rw [List.eq_nil_iff_forall_not_mem]
  intro m hm
  obtain ⟨m₁, h₁, m₂, h₂, rfl⟩ := mem_seq.mp hm
  obtain ⟨m₃, h₃, -⟩ := mem_seq.mp h₂
  obtain ⟨m₄, h₄, -⟩ := mem_seq.mp h₃
  have hrest : m₁.2 = c :: s := by
    rw [Expr.matchesAt] at h₁
    split at h₁
    · cases h₁
    · rw [List.mem_singleton.mp h₁]
  rw [hrest, Expr.matchesAt, one, if_neg (by rw [hc]; exact Bool.false_ne_true)] at h₄
  cases h₄

theorem numberPattern_ne_nil (hm : m ∈ numberPattern.matchesAt isRegexWord b s) : m.1 ≠ [] := by
  obtain ⟨m₁, h₁, m₂, h₂, rfl⟩ := mem_seq.mp hm
  obtain ⟨m₃, h₃, m₄, h₄, rfl⟩ := mem_seq.mp h₂
  obtain ⟨m₅, h₅, m₆, h₆, rfl⟩ := mem_seq.mp h₃
  have hone : m₅.1 ≠ [] := by
    rw [Expr.matchesAt] at h₅
    cases hrest : m₁.2 with
    | nil => rw [hrest] at h₅; cases h₅
    | cons c t =>
      rw [hrest, one] at h₅
      split at h₅
      · rw [List.mem_singleton.mp h₅]
        exact List.cons_ne_nil _ _
      · cases h₅
  simp [hone]

theorem isDigit_of_isQuote (hk : isQuote k) : isDigit k = false := by
  rcases Bool.or_eq_true _ _ |>.mp hk with h | h <;> rw [eq_of_beq h] <;> rfl

theorem isRegexWord_of_isQuote (hk : isQuote k) : isRegexWord k = false := by
  rcases Bool.or_eq_true _ _ |>.mp hk with h | h <;> rw [eq_of_beq h] <;> rfl

abbrev scan (b : Bool) (s : Bytes) : List (Segment UInt8) := segments isRegexWord regexFallback b s

theorem scan_closed (hk : isQuote k) (hy : k ∉ y) (b : Bool) (w : Bytes) :
    scan b (k :: y ++ k :: w) = .matched (k :: y ++ [k]) :: scan false w := by
  have hmatch := quotedPattern_closed hy b w
  have hhead : (regexFallback.matchesAt isRegexWord b (k :: y ++ k :: w)).head? =
      some (k :: y ++ [k], w) := by
    rw [regexFallback, Expr.matchesAt, Expr.matchesAt]
    rcases Bool.or_eq_true _ _ |>.mp hk with h | h
    · rw [← eq_of_beq h, hmatch]
      rfl
    · rw [← eq_of_beq h, hmatch, List.cons_append,
        quotedPattern_other (by rw [eq_of_beq h]; decide)]
      rfl
  rw [scan, segments_match hhead (by simp)]
  have hbehind : behind isRegexWord b (k :: y ++ [k]) = false := by
    rw [behind_append]
    exact isRegexWord_of_isQuote hk
  rw [hbehind]

theorem regexFallback_eq_number (h : ∀ k, isQuote k →
    (quotedPattern k).matchesAt isRegexWord b s = []) :
    regexFallback.matchesAt isRegexWord b s = numberPattern.matchesAt isRegexWord b s := by
  rw [regexFallback, Expr.matchesAt, Expr.matchesAt, h quote rfl, h dquote rfl]
  rfl

theorem scan_lone (hk : isQuote k) (hs : k ∉ s) (b : Bool) :
    scan b (k :: s) = .copied k :: scan false s := by
  have hmatch : regexFallback.matchesAt isRegexWord b (k :: s) = [] := by
    rw [regexFallback_eq_number]
    · exact numberPattern_other (isDigit_of_isQuote hk) b s
    · intro k' _
      by_cases h : k = k'
      · subst h
        exact quotedPattern_open hs b
      · exact quotedPattern_other h b s
  rw [scan, segments_copy hmatch, isRegexWord_of_isQuote hk]

theorem regexFallback_plain (hc : isQuote c = false) (b : Bool) (s : Bytes) :
    regexFallback.matchesAt isRegexWord b (c :: s) =
      numberPattern.matchesAt isRegexWord b (c :: s) := by
  apply regexFallback_eq_number
  intro k hk
  apply quotedPattern_other
  rintro rfl
  rw [hk] at hc
  cases hc

theorem scan_plain (hc : isQuote c = false)
    (hn : numberPattern.matchesAt isRegexWord b (c :: s) = []) :
    scan b (c :: s) = .copied c :: scan (isRegexWord c) s :=
  segments_copy ((regexFallback_plain hc b s).trans hn)

theorem scan_number (hn : (numberPattern.matchesAt isRegexWord b s).head? = some (m, t)) :
    scan b s = .matched m :: scan (behind isRegexWord b m) t := by
  have hm := numberPattern_ne_nil (List.mem_of_head? hn)
  cases s with
  | nil =>
    have happ := append_of_mem_matchesAt (List.mem_of_head? hn)
    exact absurd (List.append_eq_nil_iff.mp happ).1 hm
  | cons c s =>
    have hc : isQuote c = false := by
      rw [← Bool.not_eq_true]
      intro hc
      rw [numberPattern_other (isDigit_of_isQuote hc)] at hn
      cases hn
    rw [scan, segments_match ((regexFallback_plain hc b s).symm ▸ hn) hm]

end Pattern

end Redact

end Pgmux
