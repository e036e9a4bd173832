import Pgmux.FastPath
import Pgmux.Folding
import Pgmux.LeadingNoise

namespace Pgmux

def startKeywords : List Bytes := [ascii "BEGIN", ascii "START TRANSACTION"]

def endKeywords : List Bytes := [ascii "COMMIT", ascii "ROLLBACK", ascii "END", ascii "ABORT"]

def txKeywords : List Bytes := startKeywords ++ endKeywords

/-- `START TRANSACTION` with a byte 0 for its blank, which the comparison of bytes with bit 5 set
takes for one. -/
def nulStart : Bytes := ascii "START" ++ 0 :: ascii "TRANSACTION"

/-- The flag `hasTxKeyword` that the fast path sets. -/
def hasTxKeyword (query : Bytes) : Bool := hasTxPrefix query ≠ .none

/-- The keyword stands in one piece behind complete blanks and comments, and before a blank, a
semicolon or the end of the query. -/
def WrittenOut (kw query : Bytes) : Prop :=
  ∃ lead word tail, query = lead ++ word ++ tail ∧ LeadNoise isSpace .text lead ∧
    word.map upperByte = kw ∧ tail.head?.all txStop = true

section Word

def IsTxWord (word : Bytes) : Prop := word.map upperByte ∈ nulStart :: txKeywords

theorem upperByte_high (h : ¬ c < 0x80) : upperByte c = c := by
  have hall : ∀ c, ¬ c < 0x80 → upperByte c = c := forall_byte (by decide +kernel)
  exact hall c h

theorem txWords_plain : ∀ kw ∈ nulStart :: txKeywords, kw ≠ [] ∧
    (∀ c ∈ kw.head?, solid c) ∧ (∀ c ∈ kw.getLast?, solid c) ∧
    ∀ c ∈ kw, c < 0x80 ∧ c ≠ '/'.toUInt8 ∧ c ≠ '-'.toUInt8 ∧ c ≠ ';'.toUInt8 := by
  decide +kernel

variable {word : Bytes}

theorem IsTxWord.ne_nil (h : IsTxWord word) : word ≠ [] := by
  rintro rfl
  exact (txWords_plain _ h).1 rfl

theorem IsTxWord.first (h : IsTxWord word) : ∀ c ∈ word.head?, solid c := by
  intro c hc
  apply solid_of_upperByte
  apply (txWords_plain _ h).2.1
  rw [List.head?_map, Option.mem_def.mp hc]
  rfl

theorem IsTxWord.last (h : IsTxWord word) : ∀ c ∈ word.getLast?, solid c := by
  intro c hc
  apply solid_of_upperByte
  apply (txWords_plain _ h).2.2.1
  rw [List.getLast?_map, Option.mem_def.mp hc]
  rfl

theorem IsTxWord.plain (h : IsTxWord word) (hc : c ∈ word) :
    c < 0x80 ∧ c ≠ '/'.toUInt8 ∧ c ≠ '-'.toUInt8 ∧ c ≠ ';'.toUInt8 := by
  obtain ⟨hlt, hs, hd, he⟩ := (txWords_plain _ h).2.2.2 _ (List.mem_map_of_mem hc)
  refine ⟨?_, ?_, ?_, ?_⟩
  · by_contra hge
    rw [upperByte_high hge] at hlt
    exact hge hlt
  · rintro rfl
    exact hs rfl
  · rintro rfl
    exact hd rfl
  · rintro rfl
    exact he rfl

theorem IsTxWord.startsNoise (h : IsTxWord word) (tail : Bytes) :
    startsNoise (word ++ tail) = false := by
  obtain ⟨c, s, rfl⟩ := List.exists_cons_of_ne_nil h.ne_nil
  have hc := h.plain (.head _)
  exact startsNoise_of_solid (h.first c rfl) hc.2.1 hc.2.2.1 _

theorem stripComments_word (h : ∀ c ∈ word, c ≠ '/'.toUInt8 ∧ c ≠ '-'.toUInt8) (x : Bytes) :
    stripCommentsFrom .text (word ++ x) = word ++ stripCommentsFrom .text x := by
  induction word with
  | nil => rfl
  | cons c word ih =>
    rw [List.forall_mem_cons] at h
    rw [List.cons_append, stripCommentsFrom_byte h.1.1 h.1.2, ih h.2]
    rfl

theorem toUpper_word [CaseTable] (h : ∀ c ∈ word, c < 0x80) (x : Bytes) :
    toUpper (word ++ x) = word.map upperByte ++ toUpper x := by
  induction word with
  | nil => rfl
  | cons c word ih =>
    rw [List.forall_mem_cons] at h
    rw [List.cons_append, toUpper_ascii h.1, ih h.2]
    rfl

theorem IsTxWord.opens [CaseTable] (h : IsTxWord word) (hl : LeadNoise isSpace .text lead)
    (tail : Bytes) :
    word.map upperByte <+: toUpper (trimSpace (stripComments (lead ++ word ++ tail))) := by
  obtain ⟨blanks, hblanks, hstrip⟩ := hl.strip
  have hcode : stripComments (lead ++ word ++ tail) =
      blanks ++ word ++ stripCommentsFrom .text tail := by
    rw [stripComments, List.append_assoc, hstrip, stripComments_word, List.append_assoc]
    exact fun d hd => ⟨(h.plain hd).2.1, (h.plain hd).2.2.1⟩
  have hwhite := white_of_ascii fun d hd => isAsciiSpace_of_isSpace (hblanks d hd)
  have hblank := trimLeft_word hwhite h.ne_nil h.first (stripCommentsFrom .text tail)
  rw [hcode, trimSpace_between (l := []) hblank h.ne_nil h.last, List.nil_append,
    toUpper_word fun d hd => (h.plain hd).1]
  exact List.prefix_append _ _

/-- The only statement of a query with a transaction word behind its noise starts with the word
for the scan of all statements. -/
theorem IsTxWord.upper [CaseTable] (h : IsTxWord word) (hl : LeadNoise isSpace .text lead)
    (hsingle : isSingleStatement (lead ++ word ++ tail)) :
    ∃ stmt, splitStatements (lead ++ word ++ tail) = [stmt] ∧
      word.map upperByte <+: toUpper (trimSpace (stripComments stmt)) := by
  obtain ⟨c, s, hcons⟩ := List.exists_cons_of_ne_nil h.ne_nil
  have hc : c ∈ word := by simp [hcons]
  have hsolid : solid c := h.first c (by rw [hcons]; rfl)
  have hfree : ∀ d ∈ lead ++ word, d ≠ ';'.toUInt8 := by
    intro d hd he
    rcases List.mem_append.mp hd with hd | hd
    · rw [List.append_assoc] at hsingle
      exact lead_semicolon_free hsingle hsolid (List.mem_append_left _ hc) (he ▸ hd)
    · exact (h.plain hd).2.2.2 he
  obtain ⟨y, hs⟩ : ∃ y, splitStatements (lead ++ word ++ tail) =
      [trimSpace (lead ++ word ++ y)] := by
    have hpiece (y : Bytes) : piece (lead ++ word ++ y) = [trimSpace (lead ++ word ++ y)] :=
      piece_of_solid hsolid (by simp [hc])
    rcases splitStatements_single hsingle with hs | hs
    · refine ⟨tail.takeWhile (· ≠ ';'.toUInt8), ?_⟩
      rw [hs, List.takeWhile_append_of_pos (by simpa using hfree), hpiece]
    · exact ⟨tail, by rw [hs, hpiece]⟩
  refine ⟨_, hs, ?_⟩
  -- trimming leaves noise in front of the word
  obtain ⟨lead', hl', hleft⟩ := hl.trimLeft hsolid (s ++ y)
  rw [← List.cons_append, ← hcons, ← List.append_assoc, ← List.append_assoc] at hleft
  rw [trimSpace_between hleft h.ne_nil h.last]
  exact h.opens hl' (trimRight y)

end Word

section FastPath

variable {lead word tail query : Bytes}

theorem leads_skipLeadingNoise (hword : word ≠ [])
    (h : skipLeadingNoise query = word ++ tail) :
    ∃ lead, LeadNoise isSpace .text lead ∧ query = lead ++ word ++ tail := by
  have hne : skipLeadingNoise query ≠ [] := by
    rw [h]
    exact List.append_ne_nil_of_left_ne_nil hword _
  obtain ⟨-, lead, hl, he⟩ := skipFrom_split .text query hne
  refine ⟨lead, hl, ?_⟩
  rw [List.append_assoc, ← h]
  exact he

theorem fold_spelling (hkw : kw ∈ txKeywords) : word.map fold = kw.map fold ↔
    word.map upperByte = kw ∨ (kw = ascii "START TRANSACTION" ∧ word.map upperByte = nulStart) := by
  by_cases hstart : kw = ascii "START TRANSACTION"
  · have hsplit : kw = ascii "START" ++ 32 :: ascii "TRANSACTION" := hstart.trans (by decide)
    rw [hsplit, fold_words (by decide) (by decide), ← hsplit]
    simp [hstart, nulStart]
  · have hcap : ∀ kw ∈ txKeywords, kw ≠ ascii "START TRANSACTION" →
        ∀ c ∈ kw, isCapital c := by
      decide +kernel
    simp [fold_word (hcap kw hkw hstart), hstart]

theorem IsTxWord.of_fold (hkw : kw ∈ txKeywords) (h : word.map fold = kw.map fold) :
    IsTxWord word := by
  rcases (fold_spelling hkw).mp h with h | ⟨-, h⟩
  · exact .tail _ (h ▸ hkw)
  · rw [IsTxWord, h]
    exact .head _

theorem keyword_skip_iff (hkw : kw ∈ txKeywords) :
    keyword kw txStop (skipLeadingNoise query) ↔
      WrittenOut kw query ∨ (kw = ascii "START TRANSACTION" ∧ WrittenOut nulStart query) := by
  rw [keyword_iff]
  constructor
  · rintro ⟨word, tail, hrest, hword, htail⟩
    obtain ⟨lead, hl, he⟩ := leads_skipLeadingNoise (IsTxWord.of_fold hkw hword).ne_nil hrest
    rcases (fold_spelling hkw).mp hword with hw | ⟨hk, hw⟩
    · exact .inl ⟨lead, word, tail, he, hl, hw, htail⟩
    · exact .inr ⟨hk, lead, word, tail, he, hl, hw, htail⟩
  · have hfound {lead word tail : Bytes} (hw : word.map fold = kw.map fold)
        (hl : LeadNoise isSpace .text lead)
        (he : query = lead ++ word ++ tail) : skipLeadingNoise query = word ++ tail := by
      rw [he, List.append_assoc]
      exact hl.skip ((IsTxWord.of_fold hkw hw).startsNoise tail)
    rintro (⟨lead, word, tail, he, hl, hw, htail⟩ | ⟨hk, lead, word, tail, he, hl, hw, htail⟩)
    · have hfold := (fold_spelling hkw).mpr (.inl hw)
      exact ⟨word, tail, hfound hfold hl he, hfold, htail⟩
    · have hfold := (fold_spelling hkw).mpr (.inr ⟨hk, hw⟩)
      exact ⟨word, tail, hfound hfold hl he, hfold, htail⟩

def txKind (kw : Bytes) : TxPrefix := if kw ∈ startKeywords then .start else .finish

theorem hasTxPrefix_cases (query : Bytes) :
    (hasTxPrefix query = .none ∧
      ∀ kw ∈ txKeywords, keyword kw txStop (skipLeadingNoise query) = false) ∨
    ∃ kw ∈ txKeywords, keyword kw txStop (skipLeadingNoise query) ∧
      hasTxPrefix query = txKind kw := by
  unfold hasTxPrefix
  dsimp only
  split_ifs with h₁ h₂ h₃ h₄ h₅ h₆
  · exact .inr ⟨_, by decide, h₁, rfl⟩
  · exact .inr ⟨_, by decide, h₂, rfl⟩
  · exact .inr ⟨_, by decide, h₃, rfl⟩
  · exact .inr ⟨_, by decide, h₄, rfl⟩
  · exact .inr ⟨_, by decide, h₅, rfl⟩
  · exact .inr ⟨_, by decide, h₆, rfl⟩
  · exact .inl ⟨rfl, by simp [txKeywords, startKeywords, endKeywords, h₁, h₂, h₃, h₄, h₅, h₆]⟩

variable [CaseTable]

/-- A statement starts with the keyword, without its comments and the white space around it and
in upper case. -/
def Appears (kw query : Bytes) : Prop :=
  ∃ stmt ∈ splitStatements query, kw <+: toUpper (trimSpace (stripComments stmt))

theorem txStarts_iff : txStarts stmt ↔
    ∃ kw ∈ startKeywords, kw <+: toUpper (trimSpace (stripComments stmt)) := by
  simp [txStarts, startKeywords, hasPrefix]

theorem txEnds_iff : txEnds stmt ↔
    ∃ kw ∈ endKeywords, kw <+: toUpper (trimSpace (stripComments stmt)) := by
  simp [txEnds, endKeywords, hasPrefix, or_assoc]

theorem containsTransactionKeyword_iff : containsTransactionKeyword query ↔
    ∃ kw ∈ txKeywords, Appears kw query := by
  simp only [containsTransactionKeyword, List.any_eq_true, Bool.or_eq_true, txStarts_iff,
    txEnds_iff, Appears, txKeywords, List.mem_append]
  constructor
  · rintro ⟨stmt, hs, ⟨kw, hk, hp⟩ | ⟨kw, hk, hp⟩⟩
    · exact ⟨kw, .inl hk, stmt, hs, hp⟩
    · exact ⟨kw, .inr hk, stmt, hs, hp⟩
  · rintro ⟨kw, hk | hk, stmt, hs, hp⟩
    · exact ⟨stmt, hs, .inl ⟨kw, hk, hp⟩⟩
    · exact ⟨stmt, hs, .inr ⟨kw, hk, hp⟩⟩

omit [CaseTable] in
theorem txWords_apart (hk : kw ∈ nulStart :: txKeywords) (hk' : kw' ∈ nulStart :: txKeywords)
    {s : Bytes} (h : kw <+: s) (h' : kw' <+: s) : kw = kw' := by
  have hall : ∀ kw ∈ nulStart :: txKeywords, ∀ kw' ∈ nulStart :: txKeywords,
      kw.isPrefixOf kw' → kw = kw' := by
    decide +kernel
  rcases List.prefix_or_prefix_of_prefix h h' with h | h
  · exact hall kw hk kw' hk' (List.isPrefixOf_iff_prefix.mpr h)
  · exact (hall kw' hk' kw hk (List.isPrefixOf_iff_prefix.mpr h)).symm

theorem appears_iff (hsingle : isSingleStatement query) (hw : WrittenOut w query)
    (hmem : w ∈ nulStart :: txKeywords) (hkw : kw ∈ txKeywords) : Appears kw query ↔ kw = w := by
  obtain ⟨lead, word, tail, rfl, hl, rfl, -⟩ := hw
  obtain ⟨stmt, hs, hpre⟩ := IsTxWord.upper hmem hl hsingle
  unfold Appears
  rw [hs]
  simp only [List.mem_singleton, exists_eq_left]
  constructor
  · intro h
    exact txWords_apart (.tail _ hkw) hmem h hpre
  · rintro rfl
    exact hpre

omit [CaseTable] in
theorem exists_start_iff {ks : List Bytes} (hks : ∀ k ∈ ks, k ∈ txKeywords) (hkw : kw ∈ txKeywords)
    {s : Bytes} (h : kw <+: s) : (∃ k ∈ ks, k <+: s) ↔ kw ∈ ks := by
  constructor
  · rintro ⟨k, hk, hp⟩
    have := txWords_apart (.tail _ hkw) (.tail _ (hks k hk)) h hp
    exact this ▸ hk
  · exact fun hk => ⟨kw, hk, h⟩

theorem txAfter_appears (hkw : kw ∈ txKeywords) (b : Bool)
    (h : kw <+: toUpper (trimSpace (stripComments stmt))) :
    txAfter b stmt = decide (kw ∈ startKeywords) := by
  have hends := txEnds_iff.trans
    (exists_start_iff (fun k => List.mem_append_right startKeywords) hkw h)
  have hstarts := txStarts_iff.trans
    (exists_start_iff (fun k => List.mem_append_left endKeywords) hkw h)
  have hdisjoint : ∀ kw ∈ startKeywords, kw ∉ endKeywords := by decide +kernel
  unfold txAfter
  rcases List.mem_append.mp hkw with hk | hk
  · rw [if_neg fun he => hdisjoint kw hk (hends.mp he), if_pos (hstarts.mpr hk)]
    exact (decide_eq_true hk).symm
  · rw [if_pos (hends.mpr hk)]
    exact (decide_eq_false fun hs => hdisjoint kw hs hk).symm

theorem updateTransactionState_written (hsingle : isSingleStatement query)
    (hkw : kw ∈ txKeywords) (hw : WrittenOut kw query) (b : Bool) :
    updateTransactionState b query = decide (kw ∈ startKeywords) := by
  obtain ⟨lead, word, tail, rfl, hl, rfl, -⟩ := hw
  obtain ⟨stmt, hs, hpre⟩ := IsTxWord.upper (.tail _ hkw) hl hsingle
  unfold updateTransactionState
  rw [hs]
  exact txAfter_appears hkw b hpre

omit [CaseTable] in
theorem hasTxPrefix_written (query : Bytes) :
    (hasTxPrefix query = .none ∧ ∀ w ∈ nulStart :: txKeywords, ¬ WrittenOut w query) ∨
      (∃ kw ∈ txKeywords, WrittenOut kw query ∧ hasTxPrefix query = txKind kw) ∨
      (WrittenOut nulStart query ∧ hasTxPrefix query = .start) := by
  rcases hasTxPrefix_cases query with ⟨hnone, hall⟩ | ⟨kw, hkw, hfound, hkind⟩
  · refine .inl ⟨hnone, List.forall_mem_cons.mpr ⟨fun hw => ?_, fun kw hkw hw => ?_⟩⟩
    · have hstart : ascii "START TRANSACTION" ∈ txKeywords := by decide
      have := (keyword_skip_iff hstart).mpr (.inr ⟨rfl, hw⟩)
      rw [hall _ hstart] at this
      cases this
    · have := (keyword_skip_iff hkw).mpr (.inl hw)
      rw [hall kw hkw] at this
      cases this
  · rcases (keyword_skip_iff hkw).mp hfound with hw | ⟨rfl, hw⟩
    · exact .inr (.inl ⟨kw, hkw, hw, hkind⟩)
    · exact .inr (.inr ⟨hw, hkind⟩)

omit [CaseTable] in
theorem txKind_ne_none (kw : Bytes) : txKind kw ≠ .none := by
  unfold txKind
  split <;> decide

/-- The fast path keeps the flags of the scan exactly if each keyword that starts the statement
is written out in the query, and `START TRANSACTION` is not written around a byte 0. -/
theorem tx_fast_path_iff [PgQuery] (s : Session) (now : Nat) (query : Bytes)
    (hsingle : isSingleStatement query = true) :
    ((s.routeQueryLocked now query).2.inTransaction =
        updateTransactionState s.inTransaction query ∧
      hasTxKeyword query = containsTransactionKeyword query) ↔
      (∀ kw ∈ txKeywords, Appears kw query → WrittenOut kw query) ∧
        ¬ WrittenOut nulStart query := by
  rw [routeQueryLocked_inTransaction, routedTx, if_pos hsingle, hasTxKeyword]
  rcases hasTxPrefix_written query with ⟨hnone, hall⟩ | ⟨kw, hkw, hw, hkind⟩ | ⟨hw, hkind⟩
  · -- nothing is written out, so that the scan must find nothing either
    rw [List.forall_mem_cons] at hall
    rw [hnone]
    constructor
    · rintro ⟨-, hcontains⟩
      refine ⟨fun kw hkw happ => ?_, hall.1⟩
      rw [containsTransactionKeyword_iff.mpr ⟨kw, hkw, happ⟩] at hcontains
      cases hcontains
    · rintro ⟨happ, -⟩
      have hnot : containsTransactionKeyword query = false := by
        rw [← Bool.not_eq_true, containsTransactionKeyword_iff]
        rintro ⟨kw, hkw, h⟩
        exact hall.2 kw hkw (happ kw hkw h)
      rw [hnot, updateTransactionState_unchanged hnot]
      exact ⟨rfl, rfl⟩
  · have happ {k : Bytes} (hk : k ∈ txKeywords) :=
      appears_iff hsingle hw (.tail _ hkw) hk
    have hcontains := containsTransactionKeyword_iff.mpr ⟨kw, hkw, (happ hkw).mpr rfl⟩
    constructor
    · intro _
      refine ⟨fun k hk h => (happ hk).mp h ▸ hw, fun hnul => ?_⟩
      have := (appears_iff hsingle hnul (.head _) hkw).mp ((happ hkw).mpr rfl)
      rw [this] at hkw
      exact absurd hkw (by decide)
    · intro _
      rw [updateTransactionState_written hsingle hkw hw, hcontains, hkind]
      refine ⟨?_, decide_eq_true (txKind_ne_none kw)⟩
      by_cases hk : kw ∈ startKeywords <;> simp [txKind, hk]
  · -- the byte 0 is a blank for the fast path only
    constructor
    · rintro ⟨-, hcontains⟩
      rw [hkind] at hcontains
      obtain ⟨kw, hkw, happ⟩ := containsTransactionKeyword_iff.mp hcontains.symm
      rw [(appears_iff hsingle hw (.head _) hkw).mp happ] at hkw
      exact absurd hkw (by decide)
    · exact fun h => absurd hw h.2

end FastPath

/-- A comment right behind the keyword hides it from the fast path, and the scan takes a longer
word for the keyword. -/
theorem comment_hides_begin :
    let _ := asciiExternal
    let s := Session.new 0 false false
    ∀ query ∈ [ascii "BEGIN/* c */", ascii "BEGINNING"],
      isSingleStatement query = true ∧
      (s.routeQueryLocked 0 query).2.inTransaction = false ∧
      updateTransactionState s.inTransaction query = true ∧
      hasTxKeyword query = false ∧ containsTransactionKeyword query = true := by
  decide +kernel

theorem begin_tracked_iff :
    let _ := asciiExternal
    let query := ascii "/* c */ begin;"
    let s := Session.new 0 false false
    isSingleStatement query = true ∧
      (((s.routeQueryLocked 0 query).2.inTransaction =
          updateTransactionState s.inTransaction query ∧
        hasTxKeyword query = containsTransactionKeyword query) ↔
        (∀ kw ∈ txKeywords, Appears kw query → WrittenOut kw query) ∧
          ¬ WrittenOut nulStart query) := by
  intro _ query s
  have h : isSingleStatement query = true := by decide +kernel
  exact ⟨h, tx_fast_path_iff s 0 query h⟩

end Pgmux
