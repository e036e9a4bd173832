import Pgmux.ReaderSafety
import Pgmux.TxFastPath

namespace Pgmux

section PreparedRouting

variable [CaseTable] [PgQuery] {s : Session} {query : Bytes}

/-- The keywords that `routeLocked` looks for. -/
def plannedKeywords : List Bytes :=
  ["BEGIN", "START TRANSACTION", "COMMIT", "ROLLBACK"].map ascii

/-- The keyword starts the query, without its comments and the white space around it and in upper
case. -/
def Opens (kw query : Bytes) : Prop := kw <+: toUpper (trimSpace (stripComments query))

instance (kw query : Bytes) : Decidable (Opens kw query) := inferInstanceAs (Decidable (_ <+: _))

/-- The query goes to the writer whatever its keywords: the session is pinned or in a transaction,
or the query is a write, or a write is recent. -/
def Session.decided (s : Session) (now : Nat) (query : Bytes) : Bool :=
  s.pinned || s.inTransaction || s.classify query = .write ||
    (!s.causalConsistency && s.inWriteWindow now)

structure SameButStatement (name : Bytes) (s s' : Session) : Prop where
  rest : { s' with stmtRoutes := s.stmtRoutes, stmtWrite := s.stmtWrite } = s
  routes : ∀ n, n ≠ name → s'.stmtRoutes.lookup n = s.stmtRoutes.lookup n
  writes : ∀ n, n ≠ name → s'.stmtWrite.lookup n = s.stmtWrite.lookup n

theorem registerStatement_frame (s : Session) (now : Nat) (name query : Bytes) :
    SameButStatement name s (s.registerStatement now name query).2 :=
  ⟨rfl, fun _ hn => AList.lookup_insert_ne hn, fun _ hn => AList.lookup_insert_ne hn⟩

theorem routeByType_writer (s : Session) (now : Nat) (query : Bytes) :
    (s.routeByType now query).1 = .writer ↔
      s.classify query = .write ∨ (s.causalConsistency = false ∧ s.inWriteWindow now) := by
  unfold Session.routeByType
  cases s.classify query <;> cases s.causalConsistency <;> cases s.inWriteWindow now <;> simp

theorem routeLocked_writer (s : Session) (now : Nat) (query : Bytes) :
    s.routeLocked now query = .writer ↔
      s.decided now query ∨ ∃ kw ∈ plannedKeywords, Opens kw query := by
  have htest : (∃ kw ∈ plannedKeywords, Opens kw query) ↔
      plannedKeywords.any (hasPrefix (toUpper (trimSpace (stripComments query)))) := by
    simp [Opens, hasPrefix]
  rw [htest]
  unfold Session.routeLocked Session.decided
  simp only [plannedKeywords, List.map_cons, List.map_nil, List.any_cons, List.any_nil,
    Bool.or_false, ← Bool.or_assoc]
  split
  · rename_i h
    simp [h]
  · rename_i h
    rw [eq_false_of_ne_true h]
    cases s.pinned <;> cases s.inTransaction <;> cases s.classify query <;>
      cases s.causalConsistency <;> cases s.inWriteWindow now <;> simp

omit [PgQuery] in
theorem routedTx_keywordFree (h : keywordFree query) (b : Bool) :
    routedTx b query = b := by
  unfold keywordFree at h
  unfold routedTx
  split at h
  · rename_i hsingle
    rw [if_pos hsingle, of_decide_eq_true h]
  · rename_i hmulti
    rw [if_neg hmulti]
    rw [Bool.not_eq_true'] at h
    exact updateTransactionState_unchanged h b

omit [PgQuery] in
theorem routesByType_iff (s : Session) (query : Bytes) : s.routesByType query ↔
    s.pinned = false ∧ s.inTransaction = false ∧ keywordFree query := by
  constructor
  · intro h
    obtain ⟨hp, hi, -, hk⟩ := routesByType_idle h
    exact ⟨hp, hi, hk⟩
  · rintro ⟨hp, hi, hk⟩
    unfold Session.routesByType
    rw [hp, routedTx_keywordFree hk, hi]
    unfold keywordFree at hk
    split at hk
    · rename_i hsingle
      simpa [hsingle] using hk
    · rename_i hmulti
      simpa [hmulti] using hk

theorem routeQueryLocked_writer (s : Session) (now : Nat) (query : Bytes) :
    (s.routeQueryLocked now query).1 = .writer ↔
      s.decided now query ∨ keywordFree query = false := by
  have hiff := routesByType_iff s query
  cases hb : s.routesByType query with
  | false =>
    rw [hb] at hiff
    rw [routeQueryLocked_fixed hb]
    refine iff_of_true rfl ?_
    unfold Session.decided
    cases hp : s.pinned <;> cases hi : s.inTransaction <;> cases hk : keywordFree query <;>
      simp_all
  | true =>
    obtain ⟨hp, hi, hk⟩ := hiff.mp hb
    rw [routeQueryLocked_byType hb, routeByType_writer, hk, Session.decided, hp, hi]
    change s.classify query = .write ∨ (s.causalConsistency = false ∧ s.inWriteWindow now) ↔ _
    simp

omit [PgQuery] in
theorem WrittenOut.opens (h : WrittenOut w query) (hw : w ∈ nulStart :: txKeywords) :
    Opens w query := by
  obtain ⟨lead, word, tail, rfl, hl, rfl, -⟩ := h
  exact IsTxWord.opens hw hl tail

omit [CaseTable] [PgQuery] in
theorem planned_txKeywords : ∀ kw ∈ plannedKeywords, kw ∈ nulStart :: txKeywords := by
  decide +kernel

omit [PgQuery] in
theorem keywordFree_single (hsingle : isSingleStatement query) :
    keywordFree query = false ↔ ∃ w ∈ nulStart :: txKeywords, WrittenOut w query := by
  rw [keywordFree, if_pos hsingle, decide_eq_false_iff_not]
  rcases hasTxPrefix_written query with ⟨hnone, hall⟩ | ⟨kw, hkw, hw, hkind⟩ | ⟨hw, hkind⟩
  · simp only [hnone, not_true_eq_false, false_iff, not_exists, not_and]
    exact hall
  · exact iff_of_true (hkind ▸ txKind_ne_none kw) ⟨kw, .tail _ hkw, hw⟩
  · exact iff_of_true (by simp [hkind]) ⟨nulStart, .head _, hw⟩

/-- The planned keyword that starts the query is written out in it, and no keyword is that only
the other test knows. -/
def KeywordsAgree (query : Bytes) : Prop :=
  (∀ kw ∈ plannedKeywords, Opens kw query → WrittenOut kw query) ∧
    ∀ w ∈ [ascii "END", ascii "ABORT", nulStart], ¬ WrittenOut w query

omit [PgQuery] in
theorem keywordsAgree_iff (hsingle : isSingleStatement query) : KeywordsAgree query ↔
    ((∃ kw ∈ plannedKeywords, Opens kw query) ↔ keywordFree query = false) := by
  have hrest : ∀ w ∈ nulStart :: txKeywords, w ∉ [ascii "END", ascii "ABORT", nulStart] →
      w ∈ plannedKeywords := by decide +kernel
  have hapart : ∀ w ∈ [ascii "END", ascii "ABORT", nulStart], w ∈ nulStart :: txKeywords ∧
      w ∉ plannedKeywords := by decide +kernel
  rw [keywordFree_single hsingle]
  constructor
  · rintro ⟨hplanned, hother⟩
    constructor
    · rintro ⟨kw, hkw, ho⟩
      exact ⟨kw, planned_txKeywords kw hkw, hplanned kw hkw ho⟩
    · rintro ⟨w, hw, hout⟩
      exact ⟨w, hrest w hw fun hm => hother w hm hout, hout.opens hw⟩
  · intro h
    constructor
    · intro kw hkw ho
      obtain ⟨w, hw, hout⟩ := h.mp ⟨kw, hkw, ho⟩
      rwa [txWords_apart (planned_txKeywords kw hkw) hw ho (hout.opens hw)]
    · intro w hm hout
      obtain ⟨hw, hnot⟩ := hapart w hm
      obtain ⟨kw, hkw, ho⟩ := h.mpr ⟨w, hw, hout⟩
      exact hnot (txWords_apart (planned_txKeywords kw hkw) hw ho (hout.opens hw) ▸ hkw)

end PreparedRouting

end Pgmux
