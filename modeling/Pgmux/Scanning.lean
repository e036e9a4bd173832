import Mathlib.Data.List.TakeWhile
import Pgmux.Classify
import Pgmux.Trim
import Pgmux.Utf8

namespace Pgmux

theorem index_isSome (sub s : Bytes) : (index sub s).isSome = true ↔ sub <:+: s := by
  induction s with
  | nil =>
    rw [index, List.infix_nil]
    split <;> simp_all
  | cons c s ih =>
    rw [index, List.infix_cons_iff, ← List.isPrefixOf_iff_prefix]
    split
    · simp_all
    · simp_all

theorem contains_iff (s sub : Bytes) : contains s sub ↔ sub <:+: s := index_isSome sub s

structure Uncommented (s : Bytes) : Prop where
  block : ¬ ascii "/*" <:+: s
  line : ¬ ascii "--" <:+: s

theorem Uncommented.ofInfix (h : Uncommented s) (ht : t <:+: s) : Uncommented t :=
  ⟨fun hb => h.block (hb.trans ht), fun hl => h.line (hl.trans ht)⟩

theorem Uncommented.ofPrefix (h : Uncommented (a ++ s)) (ht : t <+: s) : Uncommented (a ++ t) :=
  h.ofInfix ((List.prefix_append_right_inj a).mpr ht).isInfix

theorem Uncommented.tail (h : Uncommented (c :: s)) : Uncommented s :=
  h.ofInfix (List.suffix_cons c s).isInfix

theorem Uncommented.head (h : Uncommented (c :: d :: s)) :
    ¬ (c = '/'.toUInt8 ∧ d = '*'.toUInt8) ∧ ¬ (c = '-'.toUInt8 ∧ d = '-'.toUInt8) := by
  constructor
  · rintro ⟨rfl, rfl⟩
    exact h.block ⟨[], s, rfl⟩
  · rintro ⟨rfl, rfl⟩
    exact h.line ⟨[], s, rfl⟩

theorem stripComments_eq_self (h : Uncommented s) : stripComments s = s := by
  unfold stripComments
  induction s with
  | nil => rfl
  | cons c s ih =>
    cases s with
    | nil => rfl
    | cons d s =>
      rw [stripCommentsFrom, if_neg h.head.1, if_neg h.head.2, ih h.tail]

theorem blockComments_eq_nil (h : Uncommented s) : blockComments none s = [] := by
  induction s with
  | nil => rfl
  | cons c s ih =>
    cases s with
    | nil => rfl
    | cons d s => rw [blockComments, if_neg h.head.1, ih h.tail]

theorem isAsciiSpace_of_isSpace (h : isSpace c) : isAsciiSpace c := by
  simp only [isSpace, Bool.or_eq_true, beq_iff_eq] at h
  rcases h with ((rfl | rfl) | rfl) | rfl <;> decide

theorem isAsciiSpace_ne_semicolon (h : isAsciiSpace c) : c ≠ ';'.toUInt8 := by
  rintro rfl
  exact absurd h (by decide)

section Literals

def isDelimiter (c : UInt8) : Bool := c == quote || c == dquote || c == '$'.toUInt8

/-- A tag of a dollar-quoted literal: it starts with a dollar and has tag characters in it. -/
structure IsTag (tag : Bytes) : Prop where
  head : tag.head? = some '$'.toUInt8
  chars : ∀ c ∈ tag, c = '$'.toUInt8 ∨ isTagChar c = true

theorem parseDollarTag_isTag (h : parseDollarTag s = some tag) :
    s.head? = some '$'.toUInt8 ∧ IsTag tag := by
  rcases s with _ | ⟨c, _ | ⟨d, s⟩⟩
  · cases h
  · cases h
  · rw [parseDollarTag] at h
    split at h
    · cases h
    rename_i hc
    obtain rfl := not_not.mp hc
    refine ⟨rfl, ?_⟩
    split at h
    · rw [← Option.some.inj h]
      exact ⟨rfl, by decide⟩
    split at h
    · cases h
    split at h
    · rw [← Option.some.inj h]
      refine ⟨rfl, fun c hc => ?_⟩
      simp only [List.cons_append, List.mem_cons, List.mem_append, List.not_mem_nil, or_false] at hc
      rcases hc with rfl | hc | rfl
      · exact .inl rfl
      · exact .inr (List.mem_takeWhile_imp hc)
      · exact .inl rfl
    · cases h

def Mode.Tagged : Mode → Prop
  | .dollar tag => IsTag tag
  | .copy _ m => m.Tagged
  | _ => True

theorem Mode.Tagged.next {m : Mode} (h : m.Tagged) (comments : Bool) (c : UInt8) (s : Bytes) :
    (m.next comments c s).Tagged := by
  cases m with
  | plain =>
    rw [Mode.next]
    split
    · rename_i tag ht
      exact (parseDollarTag_isTag ht).2
    · repeat' split
      all_goals trivial
  | single =>
    rw [Mode.next]
    repeat' split
    all_goals trivial
  | double =>
    rw [Mode.next]
    split <;> trivial
  | line =>
    rw [Mode.next]
    split <;> trivial
  | block d =>
    unfold Mode.next
    repeat' split
    all_goals trivial
  | dollar tag =>
    rw [Mode.next]
    split
    · trivial
    · exact h
  | copy k m =>
    cases k with
    | zero => exact h
    | succ k => exact h

def Mode.quoted : Mode → Bool
  | .single => true
  | .double => true
  | .dollar _ => true
  | _ => false

theorem keeps_of_unquoted {m : Mode} (h : m.quoted = false) (c : UInt8) (s : Bytes) :
    keeps m c s := by
  cases m with
  | single => cases h
  | double => cases h
  | dollar => cases h
  | _ => rfl

theorem stripLiterals_nil {m : Mode} (h : m.quoted = false) : stripLiteralsFrom m [] = [] := by
  cases m with
  | dollar => cases h
  | _ => rfl

theorem stripLiterals_cons (m : Mode) (c : UInt8) (s : Bytes) : stripLiteralsFrom m (c :: s) =
    (if keeps m c s then [c] else []) ++ stripLiteralsFrom (m.next false c s) s := by
  rw [stripLiteralsFrom]

/-- A byte of a literal is kept if it is a delimiter; otherwise the literal goes on. -/
theorem keeps_quoted {m : Mode} (hm : m.quoted) (ht : m.Tagged) (c : UInt8) (s : Bytes) :
    (keeps m c s ∧ isDelimiter c) ∨ (keeps m c s = false ∧ m.next false c s = m) := by
  cases m with
  | single =>
    by_cases hc : c = quote
    · exact .inl ⟨by simp [keeps, hc], by simp [isDelimiter, hc]⟩
    · exact .inr ⟨by simp [keeps, hc], by simp [Mode.next, hc]⟩
  | double =>
    by_cases hc : c = dquote
    · exact .inl ⟨by simp [keeps, hc], by simp [isDelimiter, hc]⟩
    · exact .inr ⟨by simp [keeps, hc], by simp [Mode.next, hc]⟩
  | dollar tag =>
    by_cases hc : tag.isPrefixOf (c :: s)
    · refine .inl ⟨hc, ?_⟩
      cases tag with
      | nil => cases ht.head
      | cons d tag =>
        have hd : d = '$'.toUInt8 := Option.some.inj ht.head
        rw [List.isPrefixOf_iff_prefix, List.cons_prefix_cons] at hc
        simp [isDelimiter, ← hc.1, hd]
    · exact .inr ⟨Bool.eq_false_iff.mpr hc, by simp [Mode.next, hc]⟩
  | plain => cases hm
  | line => cases hm
  | block => cases hm
  | copy => cases hm

theorem stripLiterals_quoted {m : Mode} (hm : m.quoted) (ht : m.Tagged) (s : Bytes) :
    stripLiteralsFrom m s = [] ∨ ∃ c t, stripLiteralsFrom m s = c :: t ∧ isDelimiter c := by
  induction s with
  | nil =>
    cases m with
    | dollar tag =>
      cases tag with
      | nil => exact .inl rfl
      | cons d tag =>
        refine .inr ⟨d, tag, rfl, ?_⟩
        rw [Option.some.inj ht.head]
        rfl
    | _ => exact .inl rfl
  | cons c s ih =>
    rw [stripLiterals_cons]
    rcases keeps_quoted hm ht c s with ⟨hk, hd⟩ | ⟨hk, hn⟩
    · exact .inr ⟨c, _, by rw [hk]; rfl, hd⟩
    · rw [hk, hn]
      exact ih

theorem prefix_of_stripLiterals {m : Mode} (ht : m.Tagged) (hu : ∀ c ∈ u, isDelimiter c = false)
    (h : u <+: stripLiteralsFrom m s) : u <+: s := by
  induction u generalizing m s with
  | nil => exact List.nil_prefix
  | cons x u ih =>
    cases hm : m.quoted with
    | true =>
      rcases stripLiterals_quoted hm ht s with hs | ⟨c, t, hs, hc⟩
      · rw [hs] at h
        exact absurd (List.prefix_nil.mp h) (List.cons_ne_nil x u)
      · rw [hs, List.cons_prefix_cons] at h
        rw [← h.1, hu x (.head _)] at hc
        cases hc
    | false =>
      cases s with
      | nil =>
        rw [stripLiterals_nil hm] at h
        exact h
      | cons c s =>
        rw [stripLiterals_cons, keeps_of_unquoted hm, if_pos rfl, List.singleton_append,
          List.cons_prefix_cons] at h
        exact List.cons_prefix_cons.mpr
          ⟨h.1, ih (ht.next _ _ _) (fun c hc => hu c (List.mem_cons_of_mem x hc)) h.2⟩

/-- A text without delimiters that is left when the literals are gone was there before. -/
theorem infix_of_stripLiteralsFrom {m : Mode} (ht : m.Tagged)
    (hu : ∀ c ∈ u, isDelimiter c = false) (hword : ∃ c ∈ u, isTagChar c = false)
    (h : u <:+: stripLiteralsFrom m s) : u <:+: s := by
  induction s generalizing m with
  | nil =>
    cases m with
    | dollar tag =>
      obtain ⟨c, hc, htag⟩ := hword
      rcases ht.chars c (h.subset hc) with rfl | hchar
      · cases hu _ hc
      · rw [hchar] at htag
        cases htag
    | _ => exact h
  | cons c s ih =>
    by_cases hpre : u <+: stripLiteralsFrom m (c :: s)
    · exact (prefix_of_stripLiterals ht hu hpre).isInfix
    · rw [stripLiterals_cons] at h hpre
      have hrest : u <:+: stripLiteralsFrom (m.next false c s) s := by
        split at h
        · rename_i hk
          rw [if_pos hk] at hpre
          exact (List.infix_cons_iff.mp h).resolve_left hpre
        · exact h
      exact (ih (ht.next _ _ _) hrest).trans (List.suffix_cons c s).isInfix

theorem infix_of_stripStringLiterals (hu : ∀ c ∈ u, isDelimiter c = false)
    (hword : ∃ c ∈ u, isTagChar c = false) (h : u <:+: stripStringLiterals s) : u <:+: s :=
  infix_of_stripLiteralsFrom (m := .plain) trivial hu hword h

theorem Uncommented.stripStringLiterals (h : Uncommented s) :
    Uncommented (stripStringLiterals s) :=
  ⟨fun hb => h.block (infix_of_stripStringLiterals (by decide) (by decide) hb),
    fun hl => h.line (infix_of_stripStringLiterals (by decide) (by decide) hl)⟩

section Case

variable [CaseTable]

theorem toUpper_map (h : ∀ c ∈ s, c < 0x80) : toUpper s = s.map upperByte := by
  induction s with
  | nil => rfl
  | cons c s ih =>
    rw [toUpper_ascii (h c (.head _)),
      ih fun c hc => h c (.tail _ hc), List.map_cons]

theorem Folds.upper_mem (h : Folds u) (hc : c ∈ u) (hlt : c < 0x80) :
    upperByte c ∈ toUpper u := by
  induction h with
  | nil => cases hc
  | @ascii d s hd _ ih =>
    rw [toUpper_ascii hd]
    rcases List.mem_cons.mp hc with rfl | hc
    · exact .head _
    · exact .tail _ (ih hc)
  | @dotlessI s _ ih =>
    rcases List.mem_cons.mp hc with rfl | hc
    · exact absurd hlt (by decide)
    rcases List.mem_cons.mp hc with rfl | hc
    · exact absurd hlt (by decide)
    rw [toUpper_rune (runes_dotlessI s)]
    exact List.mem_append_right _ (ih hc)
  | @longS s _ ih =>
    rcases List.mem_cons.mp hc with rfl | hc
    · exact absurd hlt (by decide)
    rcases List.mem_cons.mp hc with rfl | hc
    · exact absurd hlt (by decide)
    rw [toUpper_rune (runes_longS s)]
    exact List.mem_append_right _ (ih hc)

/-- A pattern that the checks look for: ASCII text with a byte in it that is in no identifier, and
without a delimiter of a literal. -/
structure IsPattern (p : Bytes) : Prop where
  ascii : ∀ c ∈ p, c < 0x80
  undelimited : ∀ c ∈ p, isDelimiter c = false
  word : ∃ c ∈ p, isTagChar c = false

omit [CaseTable] in
theorem isTagChar_ascii (h : isTagChar c) : c < 0x80 := by
  simp only [isTagChar, isTagStart, Bool.or_eq_true, Bool.and_eq_true, decide_eq_true_eq,
    beq_iff_eq, UInt8.le_iff_toNat_le] at h
  apply UInt8.lt_iff_toNat_lt.mpr
  rcases h with ((⟨-, h⟩ | ⟨-, h⟩) | rfl) | ⟨-, h⟩
  · exact Nat.lt_of_le_of_lt h (by decide)
  · exact Nat.lt_of_le_of_lt h (by decide)
  · decide
  · exact Nat.lt_of_le_of_lt h (by decide)

omit [CaseTable] in
theorem upperByte_isTagChar (h : isTagChar c) : isTagChar (upperByte c) := by
  unfold upperByte
  split
  · rename_i hc
    simp only [Bool.and_eq_true, decide_eq_true_eq, UInt8.le_iff_toNat_le] at hc
    have hsub := UInt8.toNat_sub_of_le c 32
      (UInt8.le_iff_toNat_le.mpr (Nat.le_trans (by decide) hc.1))
    simp only [isTagChar, isTagStart, Bool.or_eq_true, Bool.and_eq_true, decide_eq_true_eq,
      UInt8.le_iff_toNat_le, hsub]
    simp at hc ⊢
    omega
  · exact h

theorem IsPattern.undelimited_of_toUpper (hp : IsPattern p) (hu : Folds u) (he : toUpper u = p) :
    (∀ c ∈ u, isDelimiter c = false) ∧ ∃ c ∈ u, isTagChar c = false := by
  constructor
  · intro c hc
    by_contra hd
    simp only [isDelimiter, Bool.not_eq_false, Bool.or_eq_true, beq_iff_eq] at hd
    have hfix : c < 0x80 ∧ upperByte c = c ∧ isDelimiter c := by
      rcases hd with (rfl | rfl) | rfl <;> decide
    have hmem := hu.upper_mem hc hfix.1
    rw [he, hfix.2.1] at hmem
    rw [hp.undelimited c hmem] at hfix
    cases hfix.2.2
  · by_contra hall
    have htag : ∀ c ∈ u, isTagChar c := by
      intro c hc
      by_contra hn
      exact hall ⟨c, hc, Bool.eq_false_iff.mpr hn⟩
    obtain ⟨c, hc, hn⟩ := hp.word
    rw [← he, toUpper_map fun c hc => isTagChar_ascii (htag c hc)] at hc
    obtain ⟨d, hd, rfl⟩ := List.mem_map.mp hc
    rw [upperByte_isTagChar (htag d hd)] at hn
    cases hn

theorem infix_of_upperCode (hp : IsPattern p) (hs : Uncommented s) (h : p <:+: upperCode s) :
    p <:+: toUpper s := by
  unfold upperCode at h
  rw [stripComments_eq_self hs.stripStringLiterals] at h
  apply infix_toUpper hp.ascii h
  intro u hu he hin
  obtain ⟨hdel, hword⟩ := hp.undelimited_of_toUpper hu he
  exact infix_of_stripStringLiterals hdel hword hin

end Case

end Literals

end Pgmux
