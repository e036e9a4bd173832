import Pgmux.PgLexer
import Pgmux.Splitting

namespace Pgmux

section Spec

def Hint.text : Hint → Bytes
  | .writer => ascii "route:writer"
  | .reader => ascii "route:reader"

/-- The comment is the hint and white space around it. -/
def isHint (h : Hint) (comment : Bytes) : Bool :=
  let body := (comment.drop 2).dropWhile isRegexSpace
  hasPrefix comment (ascii "/*") && hasPrefix body h.text &&
    decide ((body.drop 12).dropWhile isRegexSpace = ascii "*/")

def plainHint (comment : Bytes) : Option Hint := [Hint.writer, Hint.reader].find? (isHint · comment)

def topHint (query : Bytes) : Option Hint := (topComments query).findSome? plainHint

end Spec

section Agreement

/-- At the byte the scans of the code stay with the lexer. -/
def Lex.tame : Lex → UInt8 → Bytes → Bool
  | .line _, c, s => !isDelimiter c && !(c == '/'.toUInt8 && s.head? == some '*'.toUInt8)
  | .block _, c, _ => !isDelimiter c
  | .single q, c, _ => !(q == .escapes && c == '\\'.toUInt8)
  | .plain b, c, s => parseDollarTag (c :: s) == if b.inWord then none else dollarDelimiter (c :: s)
  | _, _, _ => true

def TameFrom : Lex → Bytes → Prop
  | _, [] => True
  | m, c :: s => m.tame c s = true ∧ TameFrom (m.next c s) s

instance TameFrom.decide : (m : Lex) → (s : Bytes) → Decidable (TameFrom m s)
  | _, [] => .isTrue trivial
  | m, c :: s =>
    have := TameFrom.decide (m.next c s) s
    inferInstanceAs (Decidable (m.tame c s = true ∧ TameFrom (m.next c s) s))

theorem tameFrom_skip (ht : t.length = k + 1) (h : TameFrom (.skip k m) (t ++ s)) :
    TameFrom m s := by
  induction t generalizing k with
  | nil => cases ht
  | cons c t ih =>
    cases k with
    | zero =>
      rw [List.length_eq_zero_iff.mp (Nat.succ.inj ht)] at h
      exact h.2
    | succ k => exact ih (Nat.succ.inj ht) h.2

theorem stripLiterals_copy (ht : t.length = k + 1) (m : Mode) (s : Bytes) :
    stripLiteralsFrom (.copy k m) (t ++ s) = t ++ stripLiteralsFrom m s := by
  induction t generalizing k with
  | nil => cases ht
  | cons c t ih =>
    rw [List.cons_append, stripLiterals_cons]
    cases k with
    | zero =>
      rw [List.length_eq_zero_iff.mp (Nat.succ.inj ht)]
      rfl
    | succ k =>
      rw [Mode.next, ih (Nat.succ.inj ht)]
      rfl

theorem blockComments_byte (h : ¬ (c = '/'.toUInt8 ∧ s.head? = some '*'.toUInt8)) :
    blockComments none (c :: s) = blockComments none s := by
  cases s with
  | nil => rfl
  | cons d s =>
    rw [blockComments, if_neg]
    exact fun hc => h ⟨hc.1, congrArg some hc.2⟩

theorem blockComments_free (ht : ∀ c ∈ t, c ≠ '/'.toUInt8) (s : Bytes) :
    blockComments none (t ++ s) = blockComments none s := by
  induction t with
  | nil => rfl
  | cons c t ih =>
    rw [List.forall_mem_cons] at ht
    rw [List.cons_append, blockComments_byte fun h => ht.1 h.1, ih ht.2]

theorem IsTag.free (h : IsTag tag) : ∀ c ∈ tag, c ≠ '/'.toUInt8 := by
  rintro c hc rfl
  rcases h.chars _ hc with h | h
  · exact absurd h (by decide)
  · exact absurd h (by decide)

theorem parseDollarTag_none (h : c ≠ '$'.toUInt8) (s : Bytes) : parseDollarTag (c :: s) = none := by
  cases s with
  | nil => rfl
  | cons d s => rw [parseDollarTag, if_pos h]

theorem parseDollarTag_bounds (h : parseDollarTag s = some tag) :
    2 ≤ tag.length ∧ tag.length ≤ s.length := by
  rcases s with _ | ⟨c, _ | ⟨d, s⟩⟩
  · cases h
  · cases h
  · rw [parseDollarTag] at h
    split at h
    · cases h
    split at h
    · rw [← Option.some.inj h]
      exact ⟨by decide, Nat.le_add_left 2 s.length⟩
    split at h
    · cases h
    split at h
    · rename_i hd
      rw [← Option.some.inj h]
      have hlen := congrArg List.length
        (List.takeWhile_append_dropWhile (p := isTagChar) (l := d :: s))
      cases ht : (d :: s).dropWhile isTagChar with
      | nil =>
        rw [ht] at hd
        cases hd
      | cons e t =>
        rw [ht] at hlen
        simp only [List.length_append, List.length_cons, List.length_nil] at hlen ⊢
        omega
    · cases h

theorem parseDollarTag_isPrefix (h : parseDollarTag s = some tag) : tag <+: s := by
  rcases s with _ | ⟨c, _ | ⟨d, s⟩⟩
  · cases h
  · cases h
  · rw [parseDollarTag] at h
    split at h
    · cases h
    rename_i hc
    obtain rfl := not_not.mp hc
    split at h
    · rename_i hd
      obtain rfl := hd
      rw [← Option.some.inj h]
      exact ⟨s, rfl⟩
    split at h
    · cases h
    split at h
    · rename_i hd
      rw [← Option.some.inj h, List.cons_append, List.cons_prefix_cons]
      refine ⟨rfl, ?_⟩
      obtain ⟨t, ht⟩ := List.head?_eq_some_iff.mp hd
      refine ⟨t, ?_⟩
      rw [List.append_assoc, List.singleton_append, ← ht, List.takeWhile_append_dropWhile]
    · cases h

theorem stripLiterals_plain (hc : isDelimiter c = false) (s : Bytes) :
    stripLiteralsFrom .plain (c :: s) = c :: stripLiteralsFrom .plain s := by
  simp only [isDelimiter, Bool.or_eq_false_iff, beq_eq_false_iff_ne] at hc
  obtain ⟨⟨hq, hd⟩, ht⟩ := hc
  have hnext : Mode.plain.next false c s = .plain := by
    simp [Mode.next, parseDollarTag_none ht, hq, hd]
  rw [stripLiterals_cons, hnext]
  rfl

theorem stripLiterals_head (s : Bytes) : (stripLiteralsFrom .plain s).head? = s.head? := by
  cases s <;> rfl

theorem blockComments_inside : blockComments (some (k, acc)) (c :: d :: s) =
    if c = '/'.toUInt8 ∧ d = '*'.toUInt8 then blockComments (some (k + 1, acc ++ [c, d])) s
    else if c = '*'.toUInt8 ∧ d = '/'.toUInt8 then
      (if k = 0 then (acc ++ [c, d]) :: blockComments none s
      else blockComments (some (k - 1, acc ++ [c, d])) s)
    else blockComments (some (k, acc ++ [c])) (d :: s) := by
  cases k <;> rfl

theorem commentsFrom_inside (hm : m.outside = false) (c : UInt8) (s : Bytes) :
    commentsFrom m (c :: s) = commentsFrom (m.next c s) s := by
  rw [commentsFrom, if_neg, List.nil_append]
  rintro ⟨h, -⟩
  rw [hm] at h
  cases h

/-- From each state of the lexer the scans of the code find the comments that it finds. -/
structure Agrees (s : Bytes) : Prop where
  plain : ∀ b, TameFrom (.plain b) s →
    blockComments none (stripLiteralsFrom .plain s) = commentsFrom (.plain b) s
  line : ∀ b, TameFrom (.line b) s →
    blockComments none (stripLiteralsFrom .plain s) = commentsFrom (.line b) s
  block : ∀ d acc, TameFrom (.block d) s →
    blockComments (some (d, acc)) (stripLiteralsFrom .plain s) =
      (acc ++ commentBody d s) :: commentsFrom (.block d) s
  single : ∀ q, TameFrom (.single q) s →
    blockComments none (stripLiteralsFrom .single s) = commentsFrom (.single q) s
  double : TameFrom .double s →
    blockComments none (stripLiteralsFrom .double s) = commentsFrom .double s
  dollar : ∀ tag, IsTag tag → 2 ≤ tag.length → TameFrom (.dollar tag) s →
    blockComments none (stripLiteralsFrom (.dollar tag) s) = commentsFrom (.dollar tag) s

theorem Agrees.nil : Agrees [] where
  plain _ _ := rfl
  line _ _ := rfl
  block _ acc _ := by rw [commentBody, List.append_nil]; rfl
  single _ _ := rfl
  double _ := rfl
  dollar tag ht _ _ := by
    have h := blockComments_free ht.free []
    rw [List.append_nil] at h
    exact h

section Step

variable {c : UInt8} {s : Bytes} (ih : ∀ t : Bytes, t.length ≤ s.length → Agrees t)
include ih

theorem agrees_plain (b : Behind) (h : TameFrom (.plain b) (c :: s)) :
    blockComments none (stripLiteralsFrom .plain (c :: s)) = commentsFrom (.plain b) (c :: s) := by
  obtain ⟨htag, hs⟩ := h
  have htag : parseDollarTag (c :: s) = if b.inWord then none else dollarDelimiter (c :: s) :=
    eq_of_beq htag
  have hself := ih s (Nat.le_refl _)
  by_cases hopen : c = '/'.toUInt8 ∧ s.head? = some '*'.toUInt8
  · obtain ⟨rfl, hhead⟩ := hopen
    obtain ⟨t, rfl⟩ := List.head?_eq_some_iff.mp hhead
    rw [stripLiterals_plain (by decide), stripLiterals_plain (by decide), commentsFrom,
      if_pos ⟨rfl, rfl, rfl⟩]
    exact (ih t (Nat.le_succ _)).block 0 (ascii "/*") hs.2
  · rw [commentsFrom, if_neg fun h => hopen h.2, List.nil_append]
    by_cases hline : c = '-'.toUInt8 ∧ s.head? = some '-'.toUInt8
    · rw [Lex.next, if_pos hline] at hs ⊢
      rw [hline.1, stripLiterals_plain (by decide),
        blockComments_byte fun h => absurd h.1 (by decide)]
      exact hself.line _ hs
    rw [Lex.next, if_neg hline, if_neg hopen] at hs ⊢
    by_cases hq : c = quote
    · rw [if_pos hq] at hs ⊢
      have hstrip : stripLiteralsFrom .plain (c :: s) = [c] ++ stripLiteralsFrom .single s := by
        rw [hq, stripLiterals_cons, Mode.next, parseDollarTag_none (by decide)]
        rfl
      rw [hstrip, hq, blockComments_free (by decide)]
      exact hself.single _ hs
    by_cases hd : c = dquote
    · rw [if_neg hq, if_pos hd] at hs ⊢
      have hstrip : stripLiteralsFrom .plain (c :: s) = [c] ++ stripLiteralsFrom .double s := by
        rw [hd, stripLiterals_cons, Mode.next, parseDollarTag_none (by decide)]
        rfl
      rw [hstrip, hd, blockComments_free (by decide)]
      exact hself.double hs
    rw [if_neg hq, if_neg hd, ← htag] at hs ⊢
    cases ht : parseDollarTag (c :: s) with
    | none =>
      rw [ht] at hs
      have hstrip : stripLiteralsFrom .plain (c :: s) = c :: stripLiteralsFrom .plain s := by
        simp [stripLiterals_cons, Mode.next, ht, hq, hd, keeps]
      rw [hstrip, blockComments_byte (by rw [stripLiterals_head]; exact hopen)]
      exact hself.plain _ hs
    | some tag =>
      rw [ht] at hs
      have hmark := (parseDollarTag_isTag ht).2
      have hl := (parseDollarTag_bounds ht).1
      obtain ⟨t, hst⟩ := parseDollarTag_isPrefix ht
      obtain ⟨e, tag, rfl⟩ := List.exists_cons_of_ne_nil (l := tag) (by rintro rfl; cases hl)
      rw [List.cons_append] at hst
      obtain ⟨rfl, rfl⟩ := List.cons.inj hst
      have hlen : tag.length = (e :: tag).length - 2 + 1 := by
        rw [List.length_cons] at hl ⊢
        omega
      have hstrip : stripLiteralsFrom .plain (e :: (tag ++ t)) =
          (e :: tag) ++ stripLiteralsFrom (.dollar (e :: tag)) t := by
        rw [stripLiterals_cons, Mode.next, ht]
        exact congrArg (e :: ·) (stripLiterals_copy hlen _ t)
      rw [hstrip, blockComments_free hmark.free]
      exact ((ih t (by simp)).dollar _ hmark hl (tameFrom_skip hlen hs)).trans
        (commentsFrom_skip hlen _ t).symm

theorem agrees_line (b : Behind) (h : TameFrom (.line b) (c :: s)) :
    blockComments none (stripLiteralsFrom .plain (c :: s)) = commentsFrom (.line b) (c :: s) := by
  obtain ⟨hc, hs⟩ := h
  simp only [Lex.tame, Bool.and_eq_true, Bool.not_eq_true', Bool.and_eq_false_iff,
    beq_eq_false_iff_ne] at hc
  rw [stripLiterals_plain hc.1, blockComments_byte, commentsFrom_inside rfl]
  · rw [Lex.next] at hs ⊢
    split at hs
    · rename_i hend
      rw [if_pos hend]
      exact (ih s (Nat.le_refl _)).plain _ hs
    · rename_i hend
      rw [if_neg hend]
      exact (ih s (Nat.le_refl _)).line _ hs
  · rw [stripLiterals_head]
    exact fun he => hc.2.elim (fun h => h he.1) fun h => h he.2

theorem agrees_block (d : Nat) (acc : Bytes) (h : TameFrom (.block d) (c :: s)) :
    blockComments (some (d, acc)) (stripLiteralsFrom .plain (c :: s)) =
      (acc ++ commentBody d (c :: s)) :: commentsFrom (.block d) (c :: s) := by
  obtain ⟨hc, hs⟩ := h
  have hc : isDelimiter c = false := by simpa [Lex.tame] using hc
  rw [stripLiterals_plain hc, commentsFrom_inside rfl]
  cases s with
  | nil => rfl
  | cons e s =>
    have hle : s.length ≤ (e :: s).length := Nat.le_succ _
    rw [Lex.next] at hs ⊢
    simp only [List.head?_cons, Option.some.injEq] at hs ⊢
    by_cases ho : c = '/'.toUInt8 ∧ e = '*'.toUInt8
    · rw [if_pos ho] at hs ⊢
      obtain ⟨rfl, rfl⟩ := ho
      rw [stripLiterals_plain (by decide), blockComments_inside, if_pos ⟨rfl, rfl⟩,
        (ih s hle).block _ _ hs.2, commentBody, if_pos ⟨rfl, rfl⟩, commentsFrom_inside rfl]
      simp [Lex.next]
    · rw [if_neg ho] at hs ⊢
      by_cases hcl : c = '*'.toUInt8 ∧ e = '/'.toUInt8
      · rw [if_pos hcl] at hs ⊢
        obtain ⟨rfl, rfl⟩ := hcl
        have hbody : commentBody d ('*'.toUInt8 :: '/'.toUInt8 :: s) =
            '*'.toUInt8 :: '/'.toUInt8 :: (if d = 0 then [] else commentBody (d - 1) s) := by
          rw [commentBody, if_neg (by decide), if_pos ⟨rfl, rfl⟩]
        rw [stripLiterals_plain (by decide), blockComments_inside, if_neg (by decide),
          if_pos ⟨rfl, rfl⟩, hbody, commentsFrom_inside rfl]
        cases d with
        | zero =>
          have hrest := (ih s hle).plain .none hs.2
          simp [Lex.next, hrest]
        | succ d =>
          have hrest := (ih s hle).block d (acc ++ ['*'.toUInt8, '/'.toUInt8]) hs.2
          simpa [Lex.next] using hrest
      · rw [if_neg hcl] at hs ⊢
        have hrest := (ih (e :: s) (Nat.le_refl _)).block d (acc ++ [c]) hs
        obtain ⟨r, hr⟩ : ∃ r, stripLiteralsFrom .plain (e :: s) = e :: r := by
          have hhead := stripLiterals_head (e :: s)
          exact List.head?_eq_some_iff.mp hhead
        rw [hr] at hrest ⊢
        rw [blockComments_inside, if_neg ho, if_neg hcl, hrest, commentBody, if_neg ho, if_neg hcl]
        simp

theorem agrees_single (q : Quoting) (h : TameFrom (.single q) (c :: s)) :
    blockComments none (stripLiteralsFrom .single (c :: s)) =
      commentsFrom (.single q) (c :: s) := by
  obtain ⟨hc, hs⟩ := h
  have hback : ¬ (q = .escapes ∧ c = '\\'.toUInt8) := by
    rintro ⟨rfl, rfl⟩
    cases hc
  rw [commentsFrom_inside rfl]
  rw [Lex.next, if_neg hback] at hs ⊢
  by_cases hq : c = quote
  · subst hq
    rw [if_pos rfl] at hs ⊢
    by_cases hd : s.head? = some quote
    · obtain ⟨t, rfl⟩ := List.head?_eq_some_iff.mp hd
      have hstrip : stripLiteralsFrom .single (quote :: quote :: t) =
          [quote, quote] ++ stripLiteralsFrom .single t := by
        simp [stripLiterals_cons, keeps, Mode.next]
      rw [hstrip, blockComments_free (by decide)]
      by_cases hbits : q = .bits
      -- The second quote opens a literal of its own, in which the code stays as well.
      · rw [if_neg fun h => h.1 hbits] at hs ⊢
        have hnext : (Lex.plain (.literal q false)).next quote t = .single .standard := rfl
        rw [commentsFrom, if_neg (by rintro ⟨-, h, -⟩; cases h), List.nil_append, hnext]
        exact (ih t (Nat.le_succ _)).single .standard (hnext ▸ hs.2)
      · rw [if_pos ⟨hbits, hd⟩] at hs ⊢
        rw [commentsFrom_inside rfl]
        exact (ih t (Nat.le_succ _)).single q hs.2
    · rw [if_neg fun h => hd h.2] at hs ⊢
      have hstrip : stripLiteralsFrom .single (quote :: s) =
          [quote] ++ stripLiteralsFrom .plain s := by
        simp [stripLiterals_cons, keeps, Mode.next, hd]
      rw [hstrip, blockComments_free (by decide)]
      exact (ih s (Nat.le_refl _)).plain _ hs
  · rw [if_neg hq] at hs ⊢
    have hstrip : stripLiteralsFrom .single (c :: s) = stripLiteralsFrom .single s := by
      simp [stripLiterals_cons, keeps, Mode.next, hq]
    rw [hstrip]
    exact (ih s (Nat.le_refl _)).single q hs

theorem agrees_double (h : TameFrom .double (c :: s)) :
    blockComments none (stripLiteralsFrom .double (c :: s)) = commentsFrom .double (c :: s) := by
  have hs := h.2
  rw [commentsFrom_inside rfl]
  by_cases hc : c = dquote
  · subst hc
    exact (blockComments_byte fun h => absurd h.1 (by decide)).trans
      ((ih s (Nat.le_refl _)).plain .none hs)
  · have hstrip : stripLiteralsFrom .double (c :: s) = stripLiteralsFrom .double s := by
      simp [stripLiterals_cons, keeps, Mode.next, hc]
    rw [Lex.next, if_neg hc] at hs ⊢
    rw [hstrip]
    exact (ih s (Nat.le_refl _)).double hs

theorem agrees_dollar (ht : IsTag tag) (hl : 2 ≤ tag.length) (h : TameFrom (.dollar tag) (c :: s)) :
    blockComments none (stripLiteralsFrom (.dollar tag) (c :: s)) =
      commentsFrom (.dollar tag) (c :: s) := by
  have hs := h.2
  rw [commentsFrom_inside rfl, stripLiterals_cons]
  by_cases hp : tag.isPrefixOf (c :: s)
  · rw [Lex.next, if_pos hp] at hs ⊢
    have hk : keeps (.dollar tag) c s := hp
    rw [hk, Mode.next, if_pos hp]
    obtain ⟨t, ht'⟩ := List.isPrefixOf_iff_prefix.mp hp
    obtain ⟨d, tag, rfl⟩ := List.exists_cons_of_ne_nil (l := tag) (by rintro rfl; cases hl)
    rw [List.cons_append] at ht'
    obtain ⟨rfl, rfl⟩ := List.cons.inj ht'
    have hlen : tag.length = (d :: tag).length - 2 + 1 := by
      rw [List.length_cons] at hl ⊢
      omega
    have hfree := ht.free
    rw [commentsFrom_skip hlen, stripLiterals_copy hlen, ← (ih t (by simp)).plain .none
      (tameFrom_skip hlen hs)]
    exact blockComments_free hfree _
  · have hk : keeps (.dollar tag) c s = false := Bool.eq_false_iff.mpr hp
    rw [Lex.next, if_neg hp] at hs ⊢
    rw [hk, Mode.next, if_neg hp]
    exact (ih s (Nat.le_refl _)).dollar tag ht hl hs

end Step

theorem agrees (s : Bytes) : Agrees s := by
  induction hn : s.length using Nat.strong_induction_on generalizing s with
  | h n ih =>
    cases s with
    | nil => exact Agrees.nil
    | cons c s =>
      have ih' (t : Bytes) (ht : t.length ≤ s.length) : Agrees t := by
        apply ih t.length _ t rfl
        rw [← hn, List.length_cons]
        omega
      exact ⟨fun b => agrees_plain ih' b, fun b => agrees_line ih' b,
        fun d acc => agrees_block ih' d acc, fun q => agrees_single ih' q, agrees_double ih',
        fun _ ht hl => agrees_dollar ih' ht hl⟩

def Tame (query : Bytes) : Prop := TameFrom (.plain .none) query

instance : Decidable (Tame query) := TameFrom.decide _ _

theorem extractHint_tame (h : Tame query) :
    extractHint query = (topComments query).findSome? commentHint :=
  congrArg (List.findSome? commentHint) ((agrees query).plain .none h)

end Agreement

section Comment

theorem count_free (hu : ∀ c ∈ u, c ≠ '/'.toUInt8) (s : Bytes) :
    count (ascii "/*") (u ++ s) = count (ascii "/*") s := by
  induction u with
  | nil => rfl
  | cons c u ih =>
    rw [List.forall_mem_cons] at hu
    have hc : (ascii "/*").isPrefixOf (c :: (u ++ s)) = false := by
      rw [← Bool.not_eq_true, List.isPrefixOf_iff_prefix]
      rintro ⟨t, ht⟩
      exact hu.1 (List.cons.inj ht).1.symm
    rw [List.cons_append, count, hc, ih hu.2]
    exact Nat.zero_add _

theorem findHint_none (h : count (ascii "/*") s = 0) : findHint s = none := by
  induction s with
  | nil => rfl
  | cons c s ih =>
    rw [count, Nat.add_eq_zero_iff] at h
    have hp : hasPrefix (c :: s) (ascii "/*") = false := by
      rw [hasPrefix, ← Bool.not_eq_true]
      intro hp
      rw [if_pos hp] at h
      cases h.1
    rw [findHint, ih h.2, hintAt, hp]
    rfl

theorem hasPrefix_iff : hasPrefix s p ↔ ∃ t, s = p ++ t := by
  rw [hasPrefix, List.isPrefixOf_iff_prefix]
  constructor
  · rintro ⟨t, h⟩
    exact ⟨t, h.symm⟩
  · rintro ⟨t, h⟩
    exact ⟨t, h.symm⟩

theorem space_unsigned (h : isRegexSpace c) : c ≠ '/'.toUInt8 ∧ c ≠ '*'.toUInt8 := by
  constructor
  · rintro rfl
    cases h
  · rintro rfl
    cases h

theorem hint_closed (h : Hint) {body : Bytes} (hbody : body = commentBody 0 t)
    (hb : hasPrefix (body.dropWhile isRegexSpace) h.text)
    (he : hasPrefix (((body.dropWhile isRegexSpace).drop 12).dropWhile isRegexSpace)
      (ascii "*/")) :
    ((body.dropWhile isRegexSpace).drop 12).dropWhile isRegexSpace = ascii "*/" ∧
      ∃ u, (∀ c ∈ u, c ≠ '/'.toUInt8 ∧ c ≠ '*'.toUInt8) ∧ body = u ++ ascii "*/" := by
  obtain ⟨d, hd⟩ := hasPrefix_iff.mp hb
  have htext : ∀ h : Hint, h.text.length = 12 ∧
      ∀ c ∈ h.text, c ≠ '/'.toUInt8 ∧ c ≠ '*'.toUInt8 := by
    intro h
    cases h <;> decide
  rw [hd, ← (htext h).1, List.drop_left] at he ⊢
  obtain ⟨z, hz⟩ := hasPrefix_iff.mp he
  have hsplit (l : Bytes) : l = l.takeWhile isRegexSpace ++ l.dropWhile isRegexSpace :=
    List.takeWhile_append_dropWhile.symm
  have hspace (l : Bytes) : ∀ c ∈ l.takeWhile isRegexSpace, c ≠ '/'.toUInt8 ∧ c ≠ '*'.toUInt8 :=
    fun c hc => space_unsigned (List.mem_takeWhile_imp hc)
  obtain ⟨u, hu, hshape⟩ : ∃ u, (∀ c ∈ u, c ≠ '/'.toUInt8 ∧ c ≠ '*'.toUInt8) ∧
      body = u ++ (ascii "*/" ++ z) := by
    refine ⟨body.takeWhile isRegexSpace ++ h.text ++ d.takeWhile isRegexSpace, ?_, ?_⟩
    · simp only [List.mem_append]
      rintro c ((hc | hc) | hc)
      · exact hspace _ c hc
      · exact (htext h).2 c hc
      · exact hspace _ c hc
    · conv_lhs => rw [hsplit body, hd, hsplit d, hz]
      simp
  obtain ⟨r, hr⟩ := commentBody_isPrefix 0 t
  have hclosed : body = u ++ ascii "*/" := by
    rw [hbody, ← hr, ← hbody, hshape, List.append_assoc, List.append_assoc]
    exact commentBody_unnested hu (z ++ r)
  have hnil : z = [] := by
    rw [hshape] at hclosed
    simpa using hclosed
  rw [hz, hnil]
  exact ⟨rfl, u, hu, hclosed⟩

theorem hintAt_comment (t : Bytes) :
    hintAt (ascii "/*" ++ commentBody 0 t) = plainHint (ascii "/*" ++ commentBody 0 t) := by
  have hends (h : Hint) : isHint h (ascii "/*" ++ commentBody 0 t) =
      (hasPrefix ((commentBody 0 t).dropWhile isRegexSpace) h.text &&
        hasPrefix ((((commentBody 0 t).dropWhile isRegexSpace).drop 12).dropWhile isRegexSpace)
          (ascii "*/")) := by
    rw [Bool.eq_iff_iff, isHint, Bool.and_eq_true, Bool.and_eq_true, Bool.and_eq_true,
      decide_eq_true_eq]
    constructor
    · rintro ⟨⟨-, hb⟩, he⟩
      exact ⟨hb, hasPrefix_iff.mpr ⟨[], he⟩⟩
    · rintro ⟨hb, he⟩
      exact ⟨⟨rfl, hb⟩, (hint_closed h rfl hb he).1⟩
  have hfind : plainHint (ascii "/*" ++ commentBody 0 t) =
      if isHint .writer (ascii "/*" ++ commentBody 0 t) then some .writer
      else if isHint .reader (ascii "/*" ++ commentBody 0 t) then some .reader else none := by
    rw [plainHint, List.find?_cons, List.find?_cons, List.find?_nil]
    cases isHint .writer (ascii "/*" ++ commentBody 0 t) <;>
      cases isHint .reader (ascii "/*" ++ commentBody 0 t) <;> rfl
  rw [hfind, hends, hends]
  rfl

/-- The hint of a comment in which another one starts, if no sign has a blank behind it. -/
def smuggled (comment : Bytes) : Option Hint :=
  if 2 ≤ count (ascii "/*") comment ∧ contains comment (ascii "/* ") = false then findHint comment
  else none

theorem count_comment (t : Bytes) : count (ascii "/*") (ascii "/*" ++ commentBody 0 t) =
    1 + count (ascii "/*") ('*'.toUInt8 :: commentBody 0 t) := rfl

theorem plainHint_count (h : plainHint (ascii "/*" ++ commentBody 0 t) = some hint) :
    count (ascii "/*") (ascii "/*" ++ commentBody 0 t) = 1 := by
  have hh : isHint hint (ascii "/*" ++ commentBody 0 t) :=
    List.find?_some (p := (isHint · (ascii "/*" ++ commentBody 0 t))) h
  rw [isHint, Bool.and_eq_true, Bool.and_eq_true, decide_eq_true_eq] at hh
  obtain ⟨-, u, hu, hbody⟩ := hint_closed hint rfl hh.1.2 (hasPrefix_iff.mpr ⟨[], hh.2⟩)
  rw [count_comment, show commentBody 0 t = u ++ ascii "*/" from hbody]
  have hfree : ∀ c ∈ '*'.toUInt8 :: (u ++ ['*'.toUInt8]), c ≠ '/'.toUInt8 := by
    simp only [List.mem_cons, List.mem_append, List.not_mem_nil, or_false]
    rintro c (rfl | hc | rfl)
    · decide
    · exact (hu c hc).1
    · decide
  have hcount := count_free hfree ['/'.toUInt8]
  rw [List.cons_append, List.append_assoc] at hcount
  exact congrArg (1 + ·) hcount

theorem commentHint_eq (t : Bytes) : commentHint (ascii "/*" ++ commentBody 0 t) =
    (plainHint (ascii "/*" ++ commentBody 0 t)).or (smuggled (ascii "/*" ++ commentBody 0 t)) := by
  by_cases hone : count (ascii "/*") (ascii "/*" ++ commentBody 0 t) = 1
  · have hzero : count (ascii "/*") ('*'.toUInt8 :: commentBody 0 t) = 0 := by
      rw [count_comment] at hone
      omega
    have hfind : findHint (ascii "/*" ++ commentBody 0 t) =
        plainHint (ascii "/*" ++ commentBody 0 t) := by
      change (hintAt (ascii "/*" ++ commentBody 0 t)).or
        (findHint ('*'.toUInt8 :: commentBody 0 t)) = _
      rw [findHint_none hzero, Option.or_none, hintAt_comment]
    rw [commentHint, smuggled, hone, hfind]
    simp
  · have htwo : 2 ≤ count (ascii "/*") (ascii "/*" ++ commentBody 0 t) := by
      rw [count_comment] at hone ⊢
      omega
    have hplain : plainHint (ascii "/*" ++ commentBody 0 t) = none := by
      by_contra hne
      obtain ⟨hint, hh⟩ := Option.ne_none_iff_exists'.mp hne
      exact hone (plainHint_count hh)
    rw [hplain, Option.none_or, commentHint, smuggled]
    simp [hone, htwo]

theorem smuggled_none (h : plainHint (ascii "/*" ++ commentBody 0 t) = some hint) :
    smuggled (ascii "/*" ++ commentBody 0 t) = none := by
  rw [smuggled, plainHint_count h, if_neg fun hc => absurd hc.1 (by decide)]

end Comment

section Query

/-- A hint hidden in a comment comes before every other one and is not the one that counts. -/
def Misled (comments : List Bytes) : Prop :=
  ∃ pre comment post, comments = pre ++ comment :: post ∧
    (∀ c ∈ pre, plainHint c = none ∧ smuggled c = none) ∧
    smuggled comment ≠ none ∧ smuggled comment ≠ post.findSome? plainHint

theorem misled_cons : Misled (comment :: comments) ↔
    (smuggled comment ≠ none ∧ smuggled comment ≠ comments.findSome? plainHint) ∨
      (plainHint comment = none ∧ smuggled comment = none ∧ Misled comments) := by
  constructor
  · rintro ⟨pre, c, post, he, hpre, hc⟩
    cases pre with
    | nil =>
      obtain ⟨rfl, rfl⟩ := List.cons.inj he
      exact .inl hc
    | cons d pre =>
      obtain ⟨rfl, rfl⟩ := List.cons.inj he
      rw [List.forall_mem_cons] at hpre
      exact .inr ⟨hpre.1.1, hpre.1.2, pre, c, post, rfl, hpre.2, hc⟩
  · rintro (h | ⟨hp, hs, pre, c, post, rfl, hpre, hc⟩)
    · exact ⟨[], comment, comments, rfl, by simp, h⟩
    · exact ⟨comment :: pre, c, post, rfl, List.forall_mem_cons.mpr ⟨⟨hp, hs⟩, hpre⟩, hc⟩

theorem findSome_misled (h : ∀ c ∈ comments, ∃ t, c = ascii "/*" ++ commentBody 0 t) :
    comments.findSome? commentHint = comments.findSome? plainHint ↔ ¬ Misled comments := by
  induction comments with
  | nil => simp [Misled]
  | cons c comments ih =>
    rw [List.forall_mem_cons] at h
    obtain ⟨⟨t, ht⟩, hrest⟩ := h
    have heq := commentHint_eq t
    have hnone (hint : Hint) :
        plainHint (ascii "/*" ++ commentBody 0 t) = some hint → _ := smuggled_none
    rw [← ht] at heq hnone
    rw [List.findSome?_cons, List.findSome?_cons, misled_cons, heq]
    cases hp : plainHint c with
    | some hint => simp [hnone hint hp]
    | none =>
      cases hs : smuggled c with
      | none => simpa using ih hrest
      | some hint => simp

end Query

end Pgmux
