import Pgmux.PgLexer

namespace Pgmux

/-- Where the lexer stands behind a part of a text; the rest of the text is given too. -/
def Lex.after : Lex → Bytes → Bytes → Lex
  | m, [], _ => m
  | m, c :: u, rest => (m.next c (u ++ rest)).after u rest

/-- Also between the parts of a literal that goes on behind a newline. -/
def Lex.inLiteral : Lex → Bool
  | .single _ | .dollar _ => true
  | .plain (.literal _ _) | .line (.literal _ _) => true
  | .skip _ m => m.inLiteral
  | _ => false

def Lex.staysInside : Lex → Bytes → Bytes → Bool
  | m, [], _ => m.inLiteral
  | m, c :: u, rest => m.inLiteral && (m.next c (u ++ rest)).staysInside u rest

/-- White space and line comments, with a newline among them if none has come before. -/
inductive Gap : Bool → Bytes → Prop
  | nil : Gap true []
  | space : isPgSpace c = true → Gap (newline || isNewline c) g → Gap newline (c :: g)
  | line : (∀ c ∈ u, isNewline c = false) → isNewline d = true → Gap true g →
    Gap newline ('-'.toUInt8 :: '-'.toUInt8 :: (u ++ d :: g))

/-- What stands between single quotes: quotes are doubled, a backslash escapes the next byte if the
literal has escapes, and behind a newline another quote goes on with the literal. -/
inductive QuotedBody (q : Quoting) : Bytes → Prop
  | nil : QuotedBody q []
  | byte : c ≠ quote → ¬ (q = .escapes ∧ c = '\\'.toUInt8) → QuotedBody q s →
    QuotedBody q (c :: s)
  | doubled : q ≠ .bits → QuotedBody q s → QuotedBody q (quote :: quote :: s)
  | escaped : q = .escapes → QuotedBody q s → QuotedBody q ('\\'.toUInt8 :: c :: s)
  | continued : Gap false g → QuotedBody q s → QuotedBody q (quote :: (g ++ quote :: s))

/-- A literal or a part of one: what opens it, its content, what closes it, and the text behind. A
literal that is not closed runs to the end of the text. -/
inductive IsLiteral (b : Behind) : Bytes → Bytes → Bytes → Bytes → Prop
  | quoted : QuotedBody b.quoting x → b.quoting = .bits ∨ rest.head? ≠ some quote →
    IsLiteral b [quote] x [quote] rest
  | dollar : b.inWord = false → dollarDelimiter (tag ++ (x ++ (tag ++ rest))) = some tag →
    ¬ tag <:+: x ++ tag.dropLast → IsLiteral b tag x tag rest
  | openQuoted : QuotedBody b.quoting x → IsLiteral b [quote] x [] []
  | openEscape : b.quoting = .escapes → QuotedBody .escapes x →
    IsLiteral b [quote] (x ++ ['\\'.toUInt8]) [] []
  | openDollar : b.inWord = false → dollarDelimiter (tag ++ x) = some tag → ¬ tag <:+: x →
    IsLiteral b tag x [] []

/-- A literal of a text. -/
structure LiteralRegion where
  before : Bytes
  lead : Behind
  opener : Bytes
  content : Bytes
  closer : Bytes
  rest : Bytes
  /-- The lexer is outside literals, comments and quoted identifiers in front of the literal. -/
  outside : (Lex.plain .none).after before (opener ++ (content ++ (closer ++ rest))) = .plain lead
  literal : IsLiteral lead opener content closer rest

namespace LiteralRegion

def filled (r : LiteralRegion) (content : Bytes) : Bytes :=
  r.before ++ r.opener ++ (content ++ (r.closer ++ r.rest))

def query (r : LiteralRegion) : Bytes := r.filled r.content

end LiteralRegion

theorem Lex.after_append (m : Lex) (u v rest : Bytes) :
    m.after (u ++ v) rest = (m.after u (v ++ rest)).after v rest := by
  induction u generalizing m with
  | nil => rfl
  | cons c u ih =>
    rw [List.cons_append, Lex.after, ih, Lex.after, List.append_assoc]

theorem Lex.staysInside_append {m : Lex} (hu : m.staysInside u (v ++ rest))
    (hv : (m.after u (v ++ rest)).staysInside v rest) : m.staysInside (u ++ v) rest := by
  induction u generalizing m with
  | nil => exact hv
  | cons c u ih =>
    rw [Lex.staysInside, Bool.and_eq_true] at hu
    rw [List.cons_append, Lex.staysInside, Bool.and_eq_true, List.append_assoc]
    exact ⟨hu.1, ih hu.2 hv⟩

theorem Lex.after_skip (hu : u.length = k + 1) (m : Lex) (rest : Bytes) :
    (Lex.skip k m).after u rest = m := by
  induction k generalizing u with
  | zero =>
    obtain ⟨c, rfl⟩ := List.length_eq_one_iff.mp hu
    rfl
  | succ k ih =>
    obtain ⟨c, u, rfl⟩ := List.exists_cons_of_length_eq_add_one hu
    exact ih (Nat.succ.inj hu)

theorem quote_ne_backslash : quote ≠ '\\'.toUInt8 := by decide

theorem Lex.single_next (hc : c ≠ quote) (he : ¬ (q = .escapes ∧ c = '\\'.toUInt8)) (s : Bytes) :
    (Lex.single q).next c s = .single q := by
  rw [Lex.next, if_neg he, if_neg hc]

theorem Lex.single_doubled (hq : q ≠ .bits) (s : Bytes) :
    (Lex.single q).next quote (quote :: s) = .skip 0 (.single q) := by
  rw [Lex.next, if_neg fun h => quote_ne_backslash h.2, if_pos rfl,
    if_pos ⟨hq, List.head?_cons ..⟩]

theorem Lex.single_escape (s : Bytes) :
    (Lex.single .escapes).next '\\'.toUInt8 s = .skip 0 (.single .escapes) := by
  rw [Lex.next, if_pos ⟨rfl, rfl⟩]

theorem Lex.single_closed (hs : q = .bits ∨ s.head? ≠ some quote) :
    (Lex.single q).next quote s = .plain (.literal q false) := by
  rw [Lex.next, if_neg fun h => quote_ne_backslash h.2, if_pos rfl, if_neg]
  rintro ⟨hq, hd⟩
  exact hs.elim hq fun hs => hs hd

theorem Lex.line_lexed (hu : ∀ c ∈ u, isNewline c = false) (b : Behind) (rest : Bytes) :
    (Lex.line b).after u rest = .line b ∧
      ((Lex.line b).inLiteral → (Lex.line b).staysInside u rest) := by
  induction u with
  | nil => exact ⟨rfl, id⟩
  | cons c u ih =>
    obtain ⟨hc, hu⟩ := List.forall_mem_cons.mp hu
    have hnext : (Lex.line b).next c (u ++ rest) = .line b := by
      rw [Lex.next, if_neg (by rw [hc]; exact Bool.false_ne_true)]
    rw [Lex.after, Lex.staysInside, hnext, Bool.and_eq_true]
    exact ⟨(ih hu).1, fun h => ⟨h, (ih hu).2 h⟩⟩

theorem isPgSpace_of_isNewline (h : isNewline c) : isPgSpace c := by
  simp [isPgSpace, h]

/-- White space is none of the signs that the lexer knows outside literals. -/
theorem Lex.plain_space (hc : isPgSpace c) (b : Behind) (s : Bytes) :
    (Lex.plain b).next c s = .plain (b.next c) := by
  have hne : c ∉ ['-'.toUInt8, '/'.toUInt8, quote, dquote, '$'.toUInt8] := by
    intro hm
    simp only [List.mem_cons, List.not_mem_nil, or_false] at hm
    rcases hm with rfl | rfl | rfl | rfl | rfl <;> cases hc
  simp only [List.mem_cons, List.not_mem_nil, or_false, not_or] at hne
  have hdollar : dollarDelimiter (c :: s) = none := by
    cases s with
    | nil => rfl
    | cons d s => exact if_pos hne.2.2.2.2
  rw [Lex.next, if_neg fun h => hne.1 h.1, if_neg fun h => hne.2.1 h.1, if_neg hne.2.2.1,
    if_neg hne.2.2.2.1, hdollar, ite_self]

theorem Gap.lexed (h : Gap newline g) (q : Quoting) (rest : Bytes) :
    (Lex.plain (.literal q newline)).staysInside g rest ∧
      (Lex.plain (.literal q newline)).after g rest = .plain (.literal q true) := by
  induction h with
  | nil => exact ⟨rfl, rfl⟩
  | space hc _ ih =>
    rw [Lex.staysInside, Lex.after, Lex.plain_space hc, Behind.next, if_pos hc]
    exact ih
  | @line u d g newline hu hd _ ih =>
    have hline := Lex.line_lexed (u := '-'.toUInt8 :: u) (List.forall_mem_cons.mpr ⟨rfl, hu⟩)
      (.literal q newline) (d :: g ++ rest)
    have hend : (Lex.line (.literal q newline)).next d (g ++ rest) = .plain (.literal q true) := by
      rw [Lex.next, if_pos hd, Behind.next, if_pos (isPgSpace_of_isNewline hd), hd, Bool.or_true]
    have hopen : (Lex.plain (.literal q newline)).next '-'.toUInt8
        ('-'.toUInt8 :: (u ++ d :: g) ++ rest) = .line (.literal q newline) := rfl
    rw [Lex.staysInside, Lex.after, hopen, ← List.cons_append, Lex.after_append, hline.1, Lex.after,
      hend]
    refine ⟨?_, ih.2⟩
    refine Lex.staysInside_append (hline.2 rfl) ?_
    rw [hline.1, Lex.staysInside, hend]
    exact ih.1

theorem Gap.head_ne_quote (h : Gap false g) (t : Bytes) : (g ++ t).head? ≠ some quote := by
  cases h with
  | space hc =>
    intro he
    cases Option.some.inj he
    cases hc
  | line => exact fun he => absurd (Option.some.inj he) (by decide)

theorem QuotedBody.lexed (h : QuotedBody q x) (rest : Bytes) :
    (Lex.single q).staysInside x rest ∧ (Lex.single q).after x rest = .single q := by
  induction h with
  | nil => exact ⟨rfl, rfl⟩
  | byte hc he _ ih => rwa [Lex.staysInside, Lex.after, Lex.single_next hc he]
  | doubled hq _ ih =>
    rwa [Lex.staysInside, Lex.after, List.cons_append, Lex.single_doubled hq]
  | escaped he _ ih =>
    subst he
    rwa [Lex.staysInside, Lex.after, Lex.single_escape]
  | @continued g s hg _ ih =>
    have hgap := hg.lexed q (quote :: s ++ rest)
    have hnot : (g ++ quote :: s ++ rest).head? ≠ some quote := by
      rw [List.append_assoc]
      exact hg.head_ne_quote _
    have hopen : (Lex.plain (.literal q true)).next quote (s ++ rest) = .single q := rfl
    rw [Lex.staysInside, Lex.after, Lex.single_closed (.inr hnot), Lex.after_append, hgap.2,
      Lex.after, hopen]
    refine ⟨?_, ih.2⟩
    refine Lex.staysInside_append hgap.1 ?_
    rw [hgap.2, Lex.staysInside, hopen]
    exact ih.1

theorem QuotedBody.of_forall (h : ∀ c ∈ x, c ≠ quote ∧ c ≠ '\\'.toUInt8) : QuotedBody q x := by
  induction x with
  | nil => exact .nil
  | cons c x ih =>
    obtain ⟨hc, hx⟩ := List.forall_mem_cons.mp h
    exact .byte hc.1 (fun h => hc.2 h.2) (ih hx)

theorem dollarDelimiter_shape (h : dollarDelimiter s = some tag) :
    ∃ name, tag = '$'.toUInt8 :: (name ++ ['$'.toUInt8]) := by
  unfold dollarDelimiter at h
  split at h
  · split at h
    · cases h
    · rename_i c d s hc
      rw [not_not.mp hc] at h
      split at h
      · rename_i hd
        cases h
        exact ⟨[], by rw [hd]; rfl⟩
      · split at h
        · cases h
        · dsimp only at h
          split at h
          · cases h
            exact ⟨_, rfl⟩
          · cases h
  · cases h

section Dollar

variable {tag x rest : Bytes}

theorem Lex.after_opener {b : Behind} (hb : b.inWord = false)
    (h : dollarDelimiter (tag ++ rest) = some tag) :
    (Lex.plain b).after tag rest = .dollar tag := by
  obtain ⟨name, rfl⟩ := dollarDelimiter_shape h
  have hnext : (Lex.plain b).next '$'.toUInt8 (name ++ ['$'.toUInt8] ++ rest) =
      .skip name.length (.dollar ('$'.toUInt8 :: (name ++ ['$'.toUInt8]))) := by
    rw [Lex.next, if_neg fun h => absurd h.1 (by decide), if_neg fun h => absurd h.1 (by decide),
      if_neg (by decide), if_neg (by decide), hb, if_neg Bool.false_ne_true, ← List.cons_append, h]
    simp
  rw [Lex.after, hnext]
  exact Lex.after_skip (by simp) _ _

theorem Lex.after_closer (h : dollarDelimiter s = some tag) (rest : Bytes) :
    (Lex.dollar tag).after tag rest = .plain .none := by
  obtain ⟨name, rfl⟩ := dollarDelimiter_shape h
  have hnext : (Lex.dollar ('$'.toUInt8 :: (name ++ ['$'.toUInt8]))).next '$'.toUInt8
      (name ++ ['$'.toUInt8] ++ rest) = .skip name.length (.plain .none) := by
    rw [Lex.next, if_pos]
    · simp
    · rw [← List.cons_append]
      simp
  rw [Lex.after, hnext]
  exact Lex.after_skip (by simp) _ _

theorem Lex.dollar_lexed (hx : ∀ u v, x = u ++ v → v ≠ [] → ¬ tag <+: v ++ r) :
    (Lex.dollar tag).staysInside x r ∧ (Lex.dollar tag).after x r = .dollar tag := by
  induction x with
  | nil => exact ⟨rfl, rfl⟩
  | cons c x ih =>
    have hnext : (Lex.dollar tag).next c (x ++ r) = .dollar tag := by
      rw [Lex.next, if_neg]
      rw [List.isPrefixOf_iff_prefix]
      exact hx [] (c :: x) rfl (List.cons_ne_nil c x)
    have hrest := ih fun u v hv => hx (c :: u) v (by rw [hv]; rfl)
    rwa [Lex.staysInside, Lex.after, hnext]

/-- A delimiter that is not in the content and the start of the closing one comes again only where
it closes the literal. -/
theorem delimiter_not_before (h : ¬ tag <:+: x ++ tag.dropLast) (hx : x = u ++ v) (hv : v ≠ []) :
    ¬ tag <+: v ++ (tag ++ rest) := by
  intro hp
  apply h
  have hlong : v ++ tag.dropLast <+: v ++ (tag ++ rest) := by
    rw [List.prefix_append_right_inj]
    exact (List.dropLast_prefix tag).trans (List.prefix_append tag rest)
  have hlen : tag.length ≤ (v ++ tag.dropLast).length := by
    have hpos := List.length_pos_iff.mpr hv
    rw [List.length_append, List.length_dropLast]
    omega
  have hshort := List.prefix_of_prefix_length_le hp hlong hlen
  rw [hx, List.append_assoc]
  exact hshort.isInfix.trans (List.suffix_append u _).isInfix

end Dollar

theorem Lex.after_quote (b : Behind) (rest : Bytes) :
    (Lex.plain b).after [quote] rest = .single b.quoting := by
  rw [Lex.after, Lex.next, if_neg fun h => absurd h.1 (by decide),
    if_neg fun h => absurd h.1 (by decide), if_pos rfl]
  rfl

/-- The lexer is inside the literal all along its content, and outside behind the literal if it is
closed. -/
theorem IsLiteral.lexed (h : IsLiteral b opener content closer rest) :
    ((Lex.plain b).after opener (content ++ (closer ++ rest))).staysInside content
        (closer ++ rest) ∧
    (closer ≠ [] → ((Lex.plain b).after (opener ++ (content ++ closer)) rest).outside) := by
  cases h with
  | quoted hbody hrest =>
    have hlexed := hbody.lexed ([quote] ++ rest)
    constructor
    · rw [Lex.after_quote]
      exact hlexed.1
    · intro _
      rw [Lex.after_append, Lex.after_quote, Lex.after_append, hlexed.2, Lex.after,
        List.nil_append, Lex.single_closed hrest]
      rfl
  | dollar hb hopen hx =>
    have hlexed := Lex.dollar_lexed (r := opener ++ rest) fun u v hv hne =>
      delimiter_not_before hx hv hne
    constructor
    · rw [Lex.after_opener hb hopen]
      exact hlexed.1
    · intro _
      rw [Lex.after_append, List.append_assoc, Lex.after_opener hb hopen, Lex.after_append,
        hlexed.2, Lex.after_closer hopen]
      rfl
  | openQuoted hbody =>
    refine ⟨?_, fun h => absurd rfl h⟩
    rw [Lex.after_quote]
    exact (hbody.lexed []).1
  | openEscape hq hbody =>
    refine ⟨?_, fun h => absurd rfl h⟩
    rw [Lex.after_quote, hq]
    have hlexed := hbody.lexed ['\\'.toUInt8]
    apply Lex.staysInside_append hlexed.1
    rw [List.append_nil, List.append_nil, hlexed.2]
    rfl
  | openDollar hb hopen hx =>
    refine ⟨?_, fun h => absurd rfl h⟩
    rw [List.append_nil, List.append_nil, Lex.after_opener hb hopen]
    apply (Lex.dollar_lexed fun u v hv _ hp => hx ?_).1
    rw [List.append_nil] at hp
    rw [hv]
    exact hp.isInfix.trans (List.suffix_append u v).isInfix

end Pgmux
