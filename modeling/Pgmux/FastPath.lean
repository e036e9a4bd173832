import Pgmux.Scanning
import Pgmux.Script
import Pgmux.Words

namespace Pgmux

theorem trimSpace_isInfix (s : Bytes) : trimSpace s <:+: s :=
  (trimRight_isPrefix _).isInfix.trans (trimLeft_suffix s).isInfix

theorem infix_of_mem_piece (h : stmt ∈ piece cur) : stmt = trimSpace cur := by
  unfold piece at h
  split at h
  · cases h
  · exact List.mem_singleton.mp h

theorem infix_of_mem_splitFrom (h : stmt ∈ splitFrom m cur s) : stmt <:+: cur ++ s := by
  induction s generalizing m cur with
  | nil =>
    rw [infix_of_mem_piece h, List.append_nil]
    exact trimSpace_isInfix cur
  | cons c s ih =>
    rw [splitFrom] at h
    split at h
    · rcases List.mem_append.mp h with h | h
      · rw [infix_of_mem_piece h]
        exact (trimSpace_isInfix cur).trans (List.prefix_append _ _).isInfix
      · exact (ih h).trans ⟨cur ++ [c], [], by simp⟩
    · have := ih h
      rwa [List.append_assoc] at this

theorem infix_of_mem_splitStatements (h : stmt ∈ splitStatements query) : stmt <:+: query :=
  infix_of_mem_splitFrom h

theorem infix_of_firstWord (h : firstWord before after kw prev s) : kw <:+: s := by
  induction s generalizing prev with
  | nil => cases h
  | cons c s ih =>
    rw [firstWord] at h
    split at h
    · rename_i hp
      exact (List.isPrefixOf_iff_prefix.mp hp).isInfix
    · exact (ih h).trans (List.suffix_cons c s).isInfix

def sideEffects : List Bytes := lockingClauses ++ sideEffectFuncs

theorem isPattern_of_mem (h : p ∈ sideEffects) : IsPattern p := by
  have hall : ∀ p ∈ sideEffects, (∀ c ∈ p, c < 0x80) ∧ (∀ c ∈ p, isDelimiter c = false) ∧
      ∃ c ∈ p, isTagChar c = false := by
    decide +kernel
  exact ⟨(hall p h).1, (hall p h).2.1, (hall p h).2.2⟩

section Case

variable [CaseTable]

theorem exists_pattern (h : isSideEffectfulSelect stmt) :
    ∃ p ∈ sideEffects, p <:+: upperCode stmt := by
  unfold isSideEffectfulSelect at h
  rcases Bool.or_eq_true_iff.mp h with h | h
  · obtain ⟨p, hp, hw⟩ := List.any_eq_true.mp h
    exact ⟨p, List.mem_append_left _ hp, infix_of_firstWord hw⟩
  · obtain ⟨p, hp, hc⟩ := List.any_eq_true.mp h
    exact ⟨p, List.mem_append_right _ hp, (contains_iff _ _).mp hc⟩

theorem exists_pattern_of_mem (hq : Uncommented query) (hs : stmt ∈ splitStatements query)
    (h : isSideEffectfulSelect stmt) : ∃ p ∈ sideEffects, p <:+: toUpper query := by
  have hin := infix_of_mem_splitStatements hs
  obtain ⟨p, hp, hcode⟩ := exists_pattern h
  have hpat := isPattern_of_mem hp
  refine ⟨p, hp, infix_toUpper hpat.ascii (infix_of_upperCode hpat (hq.ofInfix hin) hcode) ?_⟩
  intro u _ _ hu
  exact hu.trans hin

omit [CaseTable] in
theorem extractHint_eq_none (h : Uncommented query) : extractHint query = none := by
  unfold extractHint
  rw [blockComments_eq_nil h.stripStringLiterals]
  rfl

theorem classifyFull_uncommented (h : Uncommented query) : classifyFull query =
    if (splitStatements query).any isWriteStatement then .write else .read := by
  rw [classifyFull, extractHint_eq_none h]

end Case

section Word

def endsFastWord (c : UInt8) : Bool := c == 32 || c == 9 || c == 10 || c == '('.toUInt8

def fastWord (query : Bytes) : Bytes :=
  (query.dropWhile isSpace).takeWhile fun c => !endsFastWord c

def afterFastWord (query : Bytes) : Bytes :=
  (query.dropWhile isSpace).dropWhile fun c => !endsFastWord c

theorem fastWord_split (query : Bytes) :
    query = query.takeWhile isSpace ++ fastWord query ++ afterFastWord query := by
  rw [List.append_assoc, fastWord, afterFastWord, List.takeWhile_append_dropWhile,
    List.takeWhile_append_dropWhile]

theorem afterFastWord_head (query : Bytes) (h : c ∈ (afterFastWord query).head?) :
    endsFastWord c := by
  unfold afterFastWord at h
  have := List.head?_dropWhile_not (fun c => !endsFastWord c) (query.dropWhile isSpace)
  rw [Option.mem_def.mp h] at this
  simpa using this

theorem splitFrom_of_notMem (h : ';'.toUInt8 ∉ s) : splitFrom m cur s = piece (cur ++ s) := by
  induction s generalizing m cur with
  | nil => rw [splitFrom, List.append_nil]
  | cons c s ih =>
    rw [List.mem_cons, not_or] at h
    rw [splitFrom, if_neg fun hc => h.1 hc.2.symm, ih h.2, List.append_assoc, List.singleton_append]

theorem semicolon_notMem_of_blank (h : trimSpace s = []) : ';'.toUInt8 ∉ s := by
  intro hm
  have := mem_trimSpace_of_solid (by decide) hm
  rw [h] at this
  cases this

theorem splitFrom_single (m : Mode) (cur : Bytes) (hs : ';'.toUInt8 ∉ s) (hr : trimSpace r = []) :
    splitFrom m cur (s ++ ';'.toUInt8 :: r) = piece (cur ++ s) ∨
      splitFrom m cur (s ++ ';'.toUInt8 :: r) = piece (cur ++ s ++ ';'.toUInt8 :: r) := by
  induction s generalizing m cur with
  | nil =>
    rw [List.nil_append, List.append_nil, splitFrom]
    split
    · rw [splitFrom_of_notMem (semicolon_notMem_of_blank hr), List.nil_append]
      refine .inl ?_
      have hpiece : piece r = [] := if_pos hr
      rw [hpiece, List.append_nil]
    · rw [splitFrom_of_notMem (semicolon_notMem_of_blank hr), List.append_assoc]
      exact .inr rfl
  | cons c s ih =>
    rw [List.mem_cons, not_or] at hs
    rw [List.cons_append, splitFrom, if_neg fun hc => hs.1 hc.2.symm]
    have hrest := ih (m.next true c (s ++ ';'.toUInt8 :: r)) (cur ++ [c]) hs.2
    simpa using hrest

theorem splitStatements_single (h : isSingleStatement query) :
    splitStatements query = piece (query.takeWhile (· ≠ ';'.toUInt8)) ∨
      splitStatements query = piece query := by
  unfold isSingleStatement at h
  have hsplit := List.takeWhile_append_dropWhile (p := (· ≠ ';'.toUInt8)) (l := query)
  have hnot : ';'.toUInt8 ∉ query.takeWhile (· ≠ ';'.toUInt8) := by
    intro hm
    simpa using List.mem_takeWhile_imp hm
  cases hd : query.dropWhile (· ≠ ';'.toUInt8) with
  | nil =>
    rw [hd, List.append_nil] at hsplit
    rw [hsplit] at hnot
    exact .inr (splitFrom_of_notMem hnot)
  | cons c r =>
    have hc : c = ';'.toUInt8 := by
      have := List.head?_dropWhile_not (· ≠ ';'.toUInt8) query
      rw [hd] at this
      simpa using this
    subst hc
    rw [hd] at h hsplit
    have hsingle := splitFrom_single .plain [] hnot (by simpa using h)
    rw [List.nil_append, hsplit] at hsingle
    exact hsingle

variable [CaseTable]

omit [CaseTable] in
theorem isAsciiSpace_upperByte (h : isAsciiSpace c) : c < 0x80 ∧ upperByte c = c := by
  simp only [isAsciiSpace, Bool.or_eq_true, Bool.and_eq_true, decide_eq_true_eq,
    UInt8.le_iff_toNat_le, beq_iff_eq] at h
  constructor
  · apply UInt8.lt_iff_toNat_lt.mpr
    rcases h with ⟨-, h⟩ | rfl
    · exact Nat.lt_of_le_of_lt h (by decide)
    · decide
  · unfold upperByte
    apply if_neg
    simp only [Bool.and_eq_true, decide_eq_true_eq, UInt8.le_iff_toNat_le, not_and]
    rcases h with ⟨-, h⟩ | rfl
    · intro h'
      exact absurd (Nat.le_trans h' h) (by decide)
    · intro h'
      exact absurd h' (by decide)

theorem toUpper_eq_nil (h : toUpper s = []) : s = [] := by
  cases s with
  | nil => rfl
  | cons c s =>
    obtain ⟨r, t, -, hr⟩ := runes_cons c s
    rw [toUpper_rune hr] at h
    exact absurd (List.append_eq_nil_iff.mp h).1 (encodeRune_ne_nil _)

theorem folds_of_toUpper (h : ∀ c ∈ toUpper s, c < 0x80) : Folds s := by
  obtain ⟨u, ⟨v, rfl⟩, hu, he⟩ := exists_folds_of_prefix (List.prefix_refl _) h
  have hv : toUpper (u ++ v) = toUpper u ++ toUpper v := by
    unfold toUpper
    rw [hu.runes_append, List.flatMap_append]
  rw [hv] at he
  rw [toUpper_eq_nil (List.append_right_eq_self.mp he.symm), List.append_nil]
  exact hu

theorem Folds.solid (h : Folds u) (hs : ∀ c ∈ toUpper u, isAsciiSpace c = false) :
    ∀ c ∈ u, solid c := by
  induction h with
  | nil => intro c hc; cases hc
  | @ascii d s hd _ ih =>
    rw [toUpper_ascii hd] at hs
    refine List.forall_mem_cons.mpr ⟨?_, ih fun c hc => hs c (.tail _ hc)⟩
    refine solid_iff.mpr ⟨?_, .inl hd⟩
    by_contra hspace
    rw [Bool.not_eq_false] at hspace
    have hd' := hs _ (.head _)
    rw [(isAsciiSpace_upperByte hspace).2, hspace] at hd'
    cases hd'
  | @dotlessI s _ ih =>
    rw [toUpper_rune (runes_dotlessI s)] at hs
    have htail := ih fun c hc => hs c (List.mem_append_right _ hc)
    exact List.forall_mem_cons.mpr ⟨by decide, List.forall_mem_cons.mpr ⟨by decide, htail⟩⟩
  | @longS s _ ih =>
    rw [toUpper_rune (runes_longS s)] at hs
    have htail := ih fun c hc => hs c (List.mem_append_right _ hc)
    exact List.forall_mem_cons.mpr ⟨by decide, List.forall_mem_cons.mpr ⟨by decide, htail⟩⟩

omit [CaseTable] in
theorem writeKeywords_plain (h : kw ∈ writeKeywords) : kw ≠ [] ∧ ∀ c ∈ kw,
    c < 0x80 ∧ isAsciiSpace c = false ∧ c ≠ '('.toUInt8 ∧ c ≠ ';'.toUInt8 := by
  have hall : ∀ kw ∈ writeKeywords, kw ≠ [] ∧ ∀ c ∈ kw,
      c < 0x80 ∧ isAsciiSpace c = false ∧ c ≠ '('.toUInt8 ∧ c ≠ ';'.toUInt8 := by
    decide +kernel
  exact hall kw h

theorem toUpper_append_ascii (h : c < 0x80) (a b : Bytes) :
    toUpper (a ++ c :: b) = toUpper a ++ upperByte c :: toUpper b := by
  have hcont : isCont c = false := by
    rw [← Bool.not_eq_true, isCont_iff]
    have : c.toNat < 128 := h
    omega
  rw [← toUpper_ascii h]
  unfold toUpper
  rw [runes_append hcont, List.flatMap_append]

structure FirstWord (lead word : Bytes) : Prop where
  blank : White lead
  solid : ∀ c ∈ word, solid c = true
  ne_nil : word ≠ []

theorem firstKeyword_trimSpace (h : Uncommented text) (hf : fields (trimSpace text) = f :: fs) :
    firstKeyword (trimSpace text) = toUpper f := by
  rw [firstKeyword, stripComments_eq_self (h.ofInfix (trimSpace_isInfix _)),
    trimSpace_trimSpace, hf]

theorem FirstWord.keyword (h : FirstWord lead word) (hu : Uncommented (lead ++ word ++ x))
    (hx : AtBreak x) : firstKeyword (trimSpace (lead ++ word ++ x)) = toUpper word := by
  obtain ⟨rest, hf⟩ := fields_word h.ne_nil h.solid hx.trimRight
  rw [← trimSpace_word h.blank h.ne_nil h.solid] at hf
  exact firstKeyword_trimSpace hu hf

theorem FirstWord.starts (h : FirstWord lead word) (hu : Uncommented (lead ++ word ++ x)) :
    ∃ t, firstKeyword (trimSpace (lead ++ word ++ x)) = toUpper (word ++ t) := by
  obtain ⟨t, rest, hf⟩ := fields_starts h.ne_nil h.solid (trimRight x)
  rw [← trimSpace_word h.blank h.ne_nil h.solid] at hf
  exact ⟨t, firstKeyword_trimSpace hu hf⟩

omit [CaseTable] in
theorem firstWord_paren (hlead : White lead) (hword : ∀ c ∈ word, solid c) :
    FirstWord lead (word ++ ['('.toUInt8]) := by
  refine ⟨hlead, fun c hc => ?_, List.append_ne_nil_of_right_ne_nil _ (List.cons_ne_nil _ _)⟩
  rcases List.mem_append.mp hc with hc | hc
  · exact hword c hc
  · rw [List.mem_singleton.mp hc]
    decide

theorem FirstWord.reads (h : FirstWord lead (word ++ ['('.toUInt8]))
    (hu : Uncommented (lead ++ (word ++ ['('.toUInt8]) ++ x)) :
    isWriteStatement (trimSpace (lead ++ (word ++ ['('.toUInt8]) ++ x)) = false := by
  obtain ⟨t, hkey⟩ := h.starts hu
  have happ : word ++ ['('.toUInt8] ++ t = word ++ '('.toUInt8 :: t := by simp
  rw [happ, toUpper_append_ascii (by decide)] at hkey
  generalize trimSpace (lead ++ (word ++ ['('.toUInt8]) ++ x) = stmt at hkey ⊢
  have hmem : '('.toUInt8 ∈ firstKeyword stmt := by
    rw [hkey]
    exact List.mem_append_right _ (.head _)
  have hwrite : firstKeyword stmt ∉ writeKeywords :=
    fun hk => ((writeKeywords_plain hk).2 _ hmem).2.2.1 rfl
  have hne (kw : Bytes) (hkw : '('.toUInt8 ∉ kw) : firstKeyword stmt ≠ kw :=
    fun he => hkw (he ▸ hmem)
  unfold isWriteStatement
  simp [hwrite, hne (ascii "WITH") (by decide), hne (ascii "SELECT") (by decide),
    hne (ascii "EXPLAIN") (by decide)]

omit [CaseTable] in
theorem piece_of_solid (h : solid c) (hc : c ∈ cur) : piece cur = [trimSpace cur] := by
  apply if_neg
  intro hn
  have := mem_trimSpace_of_solid h hc
  rw [hn] at this
  cases this

omit [CaseTable] in
theorem White.ne_semicolon (h : White w) (hc : c ∈ w) : c ≠ ';'.toUInt8 := by
  rcases h.mem hc with hs | hs
  · exact isAsciiSpace_ne_semicolon hs
  · rintro rfl
    exact absurd hs (by decide)

omit [CaseTable] in
theorem splitStatements_word (hsingle : isSingleStatement (lead ++ word ++ x))
    (h : FirstWord lead word) (hword : ';'.toUInt8 ∉ word) :
    ∃ y, (y = x ∨ y = x.takeWhile (· ≠ ';'.toUInt8)) ∧
      splitStatements (lead ++ word ++ x) = [trimSpace (lead ++ word ++ y)] := by
  obtain ⟨c, hc⟩ := List.exists_mem_of_ne_nil word h.ne_nil
  have hpiece (y : Bytes) : piece (lead ++ word ++ y) = [trimSpace (lead ++ word ++ y)] :=
    piece_of_solid (h.solid c hc) (by simp [hc])
  rcases splitStatements_single hsingle with hs | hs
  · refine ⟨_, .inr rfl, ?_⟩
    have hpre : ∀ c ∈ lead ++ word, decide (c ≠ ';'.toUInt8) := by
      intro c hc
      apply decide_eq_true
      rcases List.mem_append.mp hc with hc | hc
      · exact h.blank.ne_semicolon hc
      · exact fun he => hword (he ▸ hc)
    rw [hs, List.takeWhile_append_of_pos hpre, hpiece]
  · exact ⟨x, .inl rfl, by rw [hs, hpiece]⟩

omit [CaseTable] in
theorem atBreak_takeWhile (h : AtBreak x) : AtBreak (x.takeWhile (· ≠ ';'.toUInt8)) := by
  rcases h with rfl | h
  · exact .inl rfl
  cases h with
  | one h =>
    have hw : White [_] := .one h .nil
    rw [List.takeWhile_cons_of_pos (by simpa using hw.ne_semicolon (.head _))]
    exact .inr (.one h)
  | two h =>
    have hw : White [_, _] := .two h .nil
    rw [List.takeWhile_cons_of_pos (by simpa using hw.ne_semicolon (.head _)),
      List.takeWhile_cons_of_pos (by simpa using hw.ne_semicolon (.tail _ (.head _)))]
    exact .inr (.two h)
  | three h =>
    have hw : White [_, _, _] := .three h .nil
    rw [List.takeWhile_cons_of_pos (by simpa using hw.ne_semicolon (.head _)),
      List.takeWhile_cons_of_pos (by simpa using hw.ne_semicolon (.tail _ (.head _))),
      List.takeWhile_cons_of_pos (by simpa using hw.ne_semicolon (.tail _ (.tail _ (.head _))))]
    exact .inr (.three h)

/-- A byte that opens no literal and no comment. -/
def plainByte (c : UInt8) : Bool :=
  !isDelimiter c && c != '-'.toUInt8 && c != '/'.toUInt8 && c != ';'.toUInt8

omit [CaseTable] in
theorem splitFrom_plainBytes (h : ∀ c ∈ s, plainByte c) (cur t : Bytes) :
    splitFrom .plain cur (s ++ t) = splitFrom .plain (cur ++ s) t := by
  induction s generalizing cur with
  | nil => rw [List.append_nil]; rfl
  | cons c s ih =>
    rw [List.forall_mem_cons] at h
    have hc := h.1
    simp only [plainByte, isDelimiter, Bool.and_eq_true, Bool.not_eq_true', Bool.or_eq_false_iff,
      beq_eq_false_iff_ne, bne_iff_ne] at hc
    obtain ⟨⟨⟨⟨⟨hq, hd⟩, hdollar⟩, hdash⟩, hslash⟩, hsemi⟩ := hc
    have htag : parseDollarTag (c :: (s ++ t)) = none := by
      rcases s ++ t with _ | ⟨d, r⟩
      · rfl
      · rw [parseDollarTag, if_pos hdollar]
    have hmode : Mode.next true .plain c (s ++ t) = .plain := by
      simp [Mode.next, htag, hdash, hslash, hq, hd]
    rw [List.cons_append, splitFrom, if_neg fun hc => hsemi hc.2, hmode, ih h.2,
      List.append_assoc, List.singleton_append]

/-- The word starts the only statement, up to white space, the semicolon or the end. -/
theorem FirstWord.statement (h : FirstWord lead word) (hplain : ∀ c ∈ word, plainByte c)
    (hu : Uncommented (lead ++ word ++ x)) (hsingle : isSingleStatement (lead ++ word ++ x))
    (hx : AtBreak x ∨ x.head? = some ';'.toUInt8) :
    ∃ stmt, splitStatements (lead ++ word ++ x) = [stmt] ∧ firstKeyword stmt = toUpper word := by
  have hsemi : ';'.toUInt8 ∉ word := fun hm => absurd (hplain _ hm) (by decide)
  rcases hx with hx | hx
  · obtain ⟨y, rfl | rfl, hs⟩ := splitStatements_word hsingle h hsemi
    · exact ⟨_, hs, h.keyword hu hx⟩
    · exact ⟨_, hs, h.keyword (hu.ofPrefix (List.takeWhile_prefix _)) (atBreak_takeWhile hx)⟩
  · obtain ⟨r, rfl⟩ : ∃ r, x = ';'.toUInt8 :: r := by
      cases x with
      | nil => cases hx
      | cons d r => exact ⟨r, by rw [Option.some.inj hx]⟩
    have hlead : ∀ c ∈ lead ++ word, plainByte c := by
      intro c hc
      rcases List.mem_append.mp hc with hc | hc
      · have hall : ∀ c : UInt8, isAsciiSpace c ∨ 0x80 ≤ c.toNat → plainByte c :=
          forall_byte (by decide +kernel)
        exact hall c (h.blank.mem hc)
      · exact hplain c hc
    have hfree : ∀ c ∈ lead ++ word, decide (c ≠ ';'.toUInt8) := by
      intro c hc
      apply decide_eq_true
      rintro rfl
      exact absurd (hlead _ hc) (by decide)
    have hr : trimSpace r = [] := by
      unfold isSingleStatement at hsingle
      rw [List.dropWhile_append_of_pos hfree, List.dropWhile_cons_of_neg (by simp)] at hsingle
      simpa using hsingle
    obtain ⟨c, hc⟩ := List.exists_mem_of_ne_nil word h.ne_nil
    refine ⟨trimSpace (lead ++ word ++ []), ?_, h.keyword (hu.ofPrefix List.nil_prefix) (.inl rfl)⟩
    rw [splitStatements, splitFrom_plainBytes hlead, splitFrom, if_pos ⟨rfl, rfl⟩,
      splitFrom_of_notMem (semicolon_notMem_of_blank hr), List.nil_append, List.nil_append,
      piece_of_solid (h.solid c hc) (by simp [hc]), show piece r = [] from if_pos hr,
      List.append_nil, List.append_nil]

end Word

section FastPath

variable [CaseTable]

def KeywordWrites (kw stmt : Bytes) : Prop :=
  kw ∈ writeKeywords ∨ (kw = ascii "WITH" ∧ containsWriteKeyword stmt = true) ∨
    (kw = ascii "SELECT" ∧ isSideEffectfulSelect stmt = true) ∨
    (kw = ascii "EXPLAIN" ∧ isExplainAnalyzeWrite stmt = true)

theorem isWriteStatement_iff :
    isWriteStatement stmt ↔ KeywordWrites (firstKeyword stmt) stmt := by
  simp [isWriteStatement, KeywordWrites, or_assoc]

/-- The query starts, behind white space, with the keyword up to white space, a semicolon or the
end. But the white space in front of it has a byte that the fast path does not skip, or the byte
behind it ends no word for the fast path. -/
def Hidden (kw query : Bytes) : Prop :=
  ∃ lead word rest, query = lead ++ word ++ rest ∧ White lead ∧ toUpper word = kw ∧
    (AtBreak rest ∨ rest.head? = some ';'.toUInt8) ∧
    ((∃ c ∈ lead, isSpace c = false) ∨ ∃ c ∈ rest.head?, endsFastWord c = false)

/-- The fast path reads the first word as the full parser does: a write keyword has no parenthesis
behind it, and otherwise no keyword of a write is hidden. -/
def SeesWord (query : Bytes) : Prop :=
  if toUpper (fastWord query) ∈ writeKeywords then
    (afterFastWord query).head? ≠ some '('.toUInt8
  else ∀ kw, Hidden kw query → ∀ stmt ∈ splitStatements query, ¬ KeywordWrites kw stmt

structure FastChecked (query : Bytes) (t : QueryType) : Prop where
  text : query.dropWhile isSpace ≠ []
  uncommented : Uncommented query
  single : isSingleStatement query = true
  keyword : toUpper (fastWord query) ∈ writeKeywords ∧ t = .write ∨
    toUpper (fastWord query) ∉ writeKeywords ∧ t = .read ∧
      toUpper (fastWord query) ≠ ascii "WITH" ∧ toUpper (fastWord query) ≠ ascii "EXPLAIN" ∧
      (toUpper (fastWord query) = ascii "SELECT" → ∀ p ∈ sideEffects, ¬ p <:+: toUpper query)

theorem classifyFast_some (h : classifyFast query = some t) :
    (query.dropWhile isSpace = [] ∧ t = .read) ∨ FastChecked query t := by
  unfold classifyFast at h
  split at h
  · rename_i hblank
    exact .inl ⟨hblank, (Option.some.inj h).symm⟩
  rename_i c s htext
  have hword : (c :: s).takeWhile (fun c => !(c == 32 || c == 9 || c == 10 || c == '('.toUInt8)) =
      fastWord query := by
    rw [fastWord, htext]
    rfl
  split at h
  · cases h
  rename_i hcomments
  rw [Bool.or_eq_true_iff, contains_iff, contains_iff, not_or] at hcomments
  split at h
  · cases h
  rename_i hsingle
  refine .inr ⟨by rw [htext]; exact List.cons_ne_nil _ _, ⟨hcomments.1, hcomments.2⟩,
    by simpa using hsingle, ?_⟩
  dsimp only at h
  rw [hword] at h
  split at h
  · rename_i hnil
    rw [hnil, toUpper_nil]
    exact .inr ⟨by decide, (Option.some.inj h).symm, by decide, by decide,
      fun he => absurd he (by decide)⟩
  split at h
  · rename_i hk
    exact .inl ⟨by simpa using hk, (Option.some.inj h).symm⟩
  rename_i hk
  split at h
  · cases h
  rename_i hfull
  rw [not_or] at hfull
  split at h
  · cases h
  rename_i hselect
  refine .inr ⟨by simpa using hk, (Option.some.inj h).symm, hfull.1, hfull.2, fun he p hp hin => ?_⟩
  apply hselect
  refine ⟨he, ?_⟩
  rw [Bool.or_eq_true_iff]
  rcases List.mem_append.mp hp with hp | hp
  · exact .inl (List.any_eq_true.mpr ⟨p, hp, (contains_iff _ _).mpr hin⟩)
  · exact .inr (List.any_eq_true.mpr ⟨p, hp, (contains_iff _ _).mpr hin⟩)

omit [CaseTable] in
theorem splitStatements_blank (h : ∀ c ∈ query, isSpace c) : splitStatements query = [] := by
  have hspace : ∀ c ∈ query, isAsciiSpace c := fun c hc => isAsciiSpace_of_isSpace (h c hc)
  have hsemi : ';'.toUInt8 ∉ query := fun hm => isAsciiSpace_ne_semicolon (hspace _ hm) rfl
  rw [splitStatements, splitFrom_of_notMem hsemi, List.nil_append]
  apply if_pos
  have hleft : trimLeft query = [] := by
    have hdrop : trimLeft (query ++ []) = trimLeft [] := dropSpace_blank hspace []
    rw [List.append_nil] at hdrop
    exact hdrop
  rw [trimSpace, hleft]
  rfl

omit [CaseTable] in
theorem fastWord_end (query : Bytes) : (∃ x, afterFastWord query = '('.toUInt8 :: x) ∨
    ∀ c ∈ (afterFastWord query).head?, isAsciiSpace c := by
  cases hx : afterFastWord query with
  | nil => exact .inr fun c hc => by cases hc
  | cons c x =>
    have hc : endsFastWord c := afterFastWord_head query (by rw [hx]; rfl)
    simp only [endsFastWord, Bool.or_eq_true, beq_iff_eq] at hc
    rcases hc with ((rfl | rfl) | rfl) | rfl
    · exact .inr fun c hc => by cases hc; decide
    · exact .inr fun c hc => by cases hc; decide
    · exact .inr fun c hc => by cases hc; decide
    · exact .inl ⟨x, rfl⟩

omit [CaseTable] in
theorem takeWhile_isSpace (query : Bytes) : ∀ c ∈ query.takeWhile isSpace, isAsciiSpace c :=
  fun _ hc => isAsciiSpace_of_isSpace (List.mem_takeWhile_imp hc)

theorem FastChecked.word (h : FastChecked query t) :
    (∃ y, afterFastWord query = '('.toUInt8 :: y) ∨
      (fastWord query ≠ [] ∧ ∀ c ∈ (afterFastWord query).head?, isAsciiSpace c) := by
  rcases fastWord_end query with hpar | hspace
  · exact .inl hpar
  · refine .inr ⟨fun hnil => ?_, hspace⟩
    obtain ⟨c, s, htext⟩ := List.exists_cons_of_ne_nil h.text
    have hhead : isSpace c = false := by
      have := List.head?_dropWhile_not isSpace query
      rw [htext] at this
      simpa using this
    have hend : afterFastWord query = c :: s := by
      have := fastWord_split query
      rw [hnil, List.append_nil] at this
      have hdrop := List.takeWhile_append_dropWhile (p := isSpace) (l := query)
      rw [htext] at hdrop
      exact (List.append_cancel_left (hdrop.trans this)).symm
    have hc : endsFastWord c := afterFastWord_head query (by rw [hend]; rfl)
    have hs : isAsciiSpace c := hspace c (by rw [hend]; rfl)
    simp only [endsFastWord, Bool.or_eq_true, beq_iff_eq] at hc
    rcases hc with ((rfl | rfl) | rfl) | rfl
    · cases hhead
    · cases hhead
    · cases hhead
    · cases hs

theorem keywords_plain (h : KeywordWrites kw stmt) : kw ≠ [] ∧ ∀ c ∈ kw,
    c < 0x80 ∧ isAsciiSpace c = false ∧ plainByte c ∧ endsFastWord c = false := by
  have hall : ∀ kw ∈ writeKeywords ++ [ascii "WITH", ascii "SELECT", ascii "EXPLAIN"], kw ≠ [] ∧
      ∀ c ∈ kw, c < 0x80 ∧ isAsciiSpace c = false ∧ plainByte c ∧ endsFastWord c = false := by
    decide +kernel
  refine hall kw ?_
  rcases h with h | ⟨rfl, -⟩ | ⟨rfl, -⟩ | ⟨rfl, -⟩
  · exact List.mem_append_left _ h
  · simp
  · simp
  · simp

/-- Every spelling of a keyword is made of letters, for both parsers. -/
theorem KeywordWrites.spelling (h : KeywordWrites (toUpper word) stmt) : word ≠ [] ∧ ∀ c ∈ word,
    solid c ∧ plainByte c ∧ endsFastWord c = false := by
  obtain ⟨hne, hplain⟩ := keywords_plain h
  have hfolds := folds_of_toUpper fun c hc => (hplain c hc).1
  have hsolid := hfolds.solid fun c hc => (hplain c hc).2.1
  refine ⟨fun hn => hne (by rw [hn, toUpper_nil]), fun c hc => ⟨hsolid c hc, ?_⟩⟩
  by_cases hlt : c < 0x80
  · have hall : ∀ c, plainByte (upperByte c) ∧ endsFastWord (upperByte c) = false →
        plainByte c ∧ endsFastWord c = false := forall_byte (by decide +kernel)
    exact hall c (hplain _ (hfolds.upper_mem hc hlt)).2.2
  · have hall : ∀ c : UInt8, ¬ c < 0x80 → plainByte c ∧ endsFastWord c = false :=
      forall_byte (by decide +kernel)
    exact hall c hlt

theorem FastChecked.not_writes (h : FastChecked query t)
    (hk : toUpper (fastWord query) ∉ writeKeywords) (hs : stmt ∈ splitStatements query) :
    ¬ KeywordWrites (toUpper (fastWord query)) stmt := by
  rcases h.keyword with ⟨hk', -⟩ | ⟨-, -, hwith, hexplain, hselect⟩
  · exact absurd hk' hk
  · rintro (hw | ⟨hw, -⟩ | ⟨hw, heffect⟩ | ⟨hw, -⟩)
    · exact hk hw
    · exact hwith hw
    · obtain ⟨p, hp, hin⟩ := exists_pattern_of_mem h.uncommented hs heffect
      exact hselect hw p hp hin
    · exact hexplain hw

/-- A write keyword makes a write of the statement, unless a parenthesis follows it. -/
theorem FastChecked.writes (h : FastChecked query t)
    (hk : toUpper (fastWord query) ∈ writeKeywords) :
    (splitStatements query).any isWriteStatement ↔
      (afterFastWord query).head? ≠ some '('.toUInt8 := by
  have hu := h.uncommented
  have hsingle := h.single
  have hlead := white_of_ascii (takeWhile_isSpace query)
  obtain ⟨hne, hword⟩ := KeywordWrites.spelling (.inl hk : KeywordWrites _ [])
  rw [fastWord_split query] at hu hsingle
  rcases h.word with ⟨x, hx⟩ | ⟨-, hx⟩
  · rw [hx, List.head?_cons]
    refine iff_of_false ?_ (by simp)
    have hpar := firstWord_paren hlead fun c hc => (hword c hc).1
    have hsplit : query = query.takeWhile isSpace ++ (fastWord query ++ ['('.toUInt8]) ++ x := by
      conv_lhs => rw [fastWord_split query, hx]
      simp
    rw [← fastWord_split query, hsplit] at hu hsingle
    have hsemi : ';'.toUInt8 ∉ fastWord query ++ ['('.toUInt8] := by
      rw [List.mem_append, List.mem_singleton]
      rintro (hm | hm)
      · exact absurd (hword _ hm).2.1 (by decide)
      · exact absurd hm (by decide)
    obtain ⟨y, hy, hstmts⟩ := splitStatements_word hsingle hpar hsemi
    have hpre : y <+: x := by
      rcases hy with rfl | rfl
      · exact List.prefix_refl _
      · exact List.takeWhile_prefix _
    rw [hsplit, hstmts, List.any_cons, List.any_nil, Bool.or_false, hpar.reads (hu.ofPrefix hpre)]
    decide
  · have hbreak : AtBreak (afterFastWord query) := by
      cases hc : afterFastWord query with
      | nil => exact .inl rfl
      | cons c x => exact .inr (.one (hx c (by rw [hc]; rfl)))
    have hfirst : FirstWord (query.takeWhile isSpace) (fastWord query) :=
      ⟨hlead, fun c hc => (hword c hc).1, hne⟩
    obtain ⟨stmt, hs, hkey⟩ :=
      hfirst.statement (fun c hc => (hword c hc).2.1) hu hsingle (.inl hbreak)
    rw [← fastWord_split query] at hs
    refine iff_of_true ?_ fun hp => absurd (hx _ hp) (by decide)
    rw [hs, List.any_cons, isWriteStatement_iff.mpr (.inl (hkey ▸ hk))]
    rfl

theorem Hidden.firstKeyword (h : Hidden kw query) (hu : Uncommented query)
    (hsingle : isSingleStatement query) (hs : stmt ∈ splitStatements query)
    (hw : KeywordWrites kw stmt) : firstKeyword stmt = kw := by
  obtain ⟨lead, word, rest, rfl, hlead, rfl, hrest, -⟩ := h
  obtain ⟨hne, hword⟩ := hw.spelling
  have hfirst : FirstWord lead word := ⟨hlead, fun c hc => (hword c hc).1, hne⟩
  obtain ⟨stmt', hs', hkey⟩ :=
    hfirst.statement (fun c hc => (hword c hc).2.1) hu hsingle hrest
  rw [hs', List.mem_singleton] at hs
  rw [hs, hkey]

omit [CaseTable] in
theorem fastWord_of_split (hlead : ∀ c ∈ lead, isSpace c) (hne : word ≠ [])
    (hword : ∀ c ∈ word, isSpace c = false ∧ endsFastWord c = false)
    (hrest : ∀ c ∈ rest.head?, endsFastWord c) : fastWord (lead ++ word ++ rest) = word := by
  have hdrop : (lead ++ word ++ rest).dropWhile isSpace = word ++ rest := by
    obtain ⟨c, s, rfl⟩ := List.exists_cons_of_ne_nil hne
    rw [List.append_assoc, List.dropWhile_append_of_pos hlead, List.cons_append,
      List.dropWhile_cons_of_neg (by simp [(hword c (.head _)).1])]
  rw [fastWord, hdrop, List.takeWhile_append_of_pos fun c hc => by simp [(hword c hc).2]]
  cases rest with
  | nil => simp
  | cons c s => rw [List.takeWhile_cons_of_neg (by simp [hrest c rfl]), List.append_nil]

/-- The first keyword of a write that the fast path takes for a read is hidden from it. -/
theorem FastChecked.hidden (h : FastChecked query t)
    (hk : toUpper (fastWord query) ∉ writeKeywords) (hs : stmt ∈ splitStatements query)
    (hw : KeywordWrites (firstKeyword stmt) stmt) : Hidden (firstKeyword stmt) query := by
  obtain ⟨text, tail, hquery, htail, hstmt⟩ : ∃ text tail, query = text ++ tail ∧
      (tail = [] ∨ tail.head? = some ';'.toUInt8) ∧ stmt = trimSpace text := by
    rcases splitStatements_single h.single with hp | hp
    · refine ⟨query.takeWhile (· ≠ ';'.toUInt8), query.dropWhile (· ≠ ';'.toUInt8),
        (List.takeWhile_append_dropWhile ..).symm, ?_, infix_of_mem_piece (hp ▸ hs)⟩
      have hhead := List.head?_dropWhile_not (· ≠ ';'.toUInt8) query
      cases hd : query.dropWhile (· ≠ ';'.toUInt8) with
      | nil => exact .inl rfl
      | cons c r =>
        rw [hd] at hhead
        exact .inr (by simpa using hhead)
    · exact ⟨query, [], (List.append_nil _).symm, .inl rfl, infix_of_mem_piece (hp ▸ hs)⟩
  have hu : Uncommented text := h.uncommented.ofInfix (hquery ▸ (List.prefix_append ..).isInfix)
  cases hf : fields (trimSpace text) with
  | nil =>
    have hnil : firstKeyword stmt = [] := by
      rw [hstmt, firstKeyword, stripComments_eq_self (hu.ofInfix (trimSpace_isInfix _)),
        trimSpace_trimSpace, hf]
    exact absurd hnil (keywords_plain hw).1
  | cons f fs =>
    have hkey : firstKeyword stmt = toUpper f := hstmt ▸ firstKeyword_trimSpace hu hf
    rw [hkey] at hw ⊢
    obtain ⟨hne, hword⟩ := hw.spelling
    obtain ⟨lead, word, rest, htrim, hlead, hfw, -, hrest⟩ := fieldsFrom_first hf
    rw [List.nil_append] at hfw
    subst hfw
    obtain ⟨w₁, hw₁, he₁⟩ := trimLeft_white text
    obtain ⟨w₂, hw₂, he₂⟩ := trimRight_white (trimLeft text)
    have htext : text = (w₁ ++ lead) ++ f ++ (rest ++ w₂) := by
      rw [he₁, he₂]
      change w₁ ++ (trimSpace text ++ w₂) = _
      rw [htrim]
      simp
    have hend : AtBreak (rest ++ w₂) := hrest.append fun _ => hw₂.atBreak
    refine ⟨w₁ ++ lead, f, (rest ++ w₂) ++ tail, ?_, hw₁.append hlead, rfl, ?_, ?_⟩
    · rw [hquery, htext]
      simp
    · rcases htail with rfl | htail
      · rw [List.append_nil]
        exact .inl hend
      · rcases hend with hend | hend
        · rw [hend]
          exact .inr htail
        · exact .inl (.inr (hend.append tail))
    · -- otherwise the word is the one that the fast path reads, and that is no write's
      by_contra hn
      rw [not_or] at hn
      simp only [not_exists, not_and, Bool.not_eq_false] at hn
      have hfast := fastWord_of_split hn.1 hne (fun c hc => ⟨?_, (hword c hc).2.2⟩) hn.2
      · rw [show (w₁ ++ lead) ++ f ++ ((rest ++ w₂) ++ tail) = query by
          rw [hquery, htext]; simp] at hfast
        exact h.not_writes hk hs (by rw [hfast]; exact hw)
      · rw [← Bool.not_eq_true]
        intro hspace
        have := (solid_iff.mp (hword c hc).1).1
        rw [isAsciiSpace_of_isSpace hspace] at this
        cases this

end FastPath

/-- The fast path and the full parser agree exactly if the fast path reads the first word as the
full parser does. -/
theorem fast_path_agrees_iff [CaseTable] (query : Bytes) (t : QueryType)
    (h : classifyFast query = some t) : classifyFull query = t ↔ SeesWord query := by
  rcases classifyFast_some h with ⟨hblank, rfl⟩ | hc
  · have hspace : ∀ c ∈ query, isSpace c = true := by simpa using hblank
    have hword : fastWord query = [] := by rw [fastWord, hblank]; rfl
    have hu : Uncommented query :=
      ⟨fun hin => absurd (hspace _ (hin.subset (.head _))) (by decide),
        fun hin => absurd (hspace _ (hin.subset (.head _))) (by decide)⟩
    rw [classifyFull_uncommented hu, splitStatements_blank hspace]
    refine iff_of_true rfl ?_
    rw [SeesWord, hword, toUpper_nil, if_neg (by decide), splitStatements_blank hspace]
    exact fun _ _ _ hs => nomatch hs
  · rw [classifyFull_uncommented hc.uncommented]
    rcases hc.keyword with ⟨hk, rfl⟩ | ⟨hk, rfl, -⟩
    · rw [SeesWord, if_pos hk, ← hc.writes hk]
      split <;> simp_all
    · rw [SeesWord, if_neg hk]
      constructor
      · intro hread kw hidden stmt hs hw
        have hwrite : isWriteStatement stmt := by
          rw [isWriteStatement_iff, hidden.firstKeyword hc.uncommented hc.single hs hw]
          exact hw
        rw [if_pos (List.any_eq_true.mpr ⟨stmt, hs, hwrite⟩)] at hread
        cases hread
      · intro hsees
        refine if_neg fun hany => ?_
        obtain ⟨stmt, hs, hwrite⟩ := List.any_eq_true.mp hany
        have hw := isWriteStatement_iff.mp hwrite
        exact hsees _ (hc.hidden hk hs hw) stmt hs hw

/-- A carriage return behind the keyword hides it from the fast path. -/
theorem fast_path_misses_delete : ∃ _ : CaseTable,
    classifyFast (ascii "DELETE\rFROM t") = some .read ∧
      classifyFull (ascii "DELETE\rFROM t") = .write ∧
      classifyFast (ascii "COPY(SELECT 1) TO STDOUT") = some .write ∧
      classifyFull (ascii "COPY(SELECT 1) TO STDOUT") = .read :=
  ⟨asciiCase, by decide +kernel⟩

theorem select_agrees_iff : ∃ _ : CaseTable, classifyFast (ascii "SELECT 1;") = some .read ∧
    (classifyFull (ascii "SELECT 1;") = .read ↔ SeesWord (ascii "SELECT 1;")) := by
  let _ := asciiCase
  have h : classifyFast (ascii "SELECT 1;") = some .read := by decide +kernel
  exact ⟨asciiCase, h, fast_path_agrees_iff (ascii "SELECT 1;") .read h⟩

end Pgmux
