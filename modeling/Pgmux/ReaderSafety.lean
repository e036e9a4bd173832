import Pgmux.ReadAfterWrite

namespace Pgmux

section ReaderSafety

variable [CaseTable] [PgQuery] {s : Session} {calls before : List TimedCall}

/-- The query has no transaction keyword for the branch of `routeQueryLocked` that it takes. -/
def keywordFree (query : Bytes) : Bool :=
  if isSingleStatement query then hasTxPrefix query = .none else !containsTransactionKeyword query

structure ReaderSafe (s : Session) (calls : List TimedCall) (now : Nat) (query : Bytes) : Prop where
  idleBefore : (s.run calls).inTransaction = false
  idleAfter : ((s.run calls).call now (.query query)).inTransaction = false
  unpinned : ∀ e ∈ calls, ∀ reason, e.2 ≠ .pin reason
  keyword : keywordFree query = true
  read : classify query = .read
  window : s.causalConsistency = false → ∀ earlier (t : Nat) text after,
    calls = earlier ++ (t, .query text) :: after → (s.run earlier).routesByType text = true →
      classify text = .write → (t : Int) + s.readAfterWriteDelay ≤ now

/-- What goes to a reader is safe to go there, and from the query that starts a transaction up to
the one that ends it all queries go to the writer. -/
structure RoutesSafely (s : Session) (calls : List TimedCall) : Prop where
  reader : ∀ before now query after, calls = before ++ (now, .query query) :: after →
    ((s.run before).routeQueryLocked now query).1 = .reader → ReaderSafe s before now query
  starts : ∀ before now query after, calls = before ++ (now, .query query) :: after →
    (s.run before).inTransaction = false →
    ((s.run before).call now (.query query)).inTransaction = true →
      ((s.run before).routeQueryLocked now query).1 = .writer
  inside : ∀ before start mid now query after,
    calls = before ++ start :: (mid ++ (now, .query query) :: after) →
    (∃ t text, start = (t, .query text)) → (s.run before).inTransaction = false →
    (∀ part, part <+: mid → (s.run (before ++ start :: part)).inTransaction = true) →
      ((s.run (before ++ start :: mid)).routeQueryLocked now query).1 = .writer

theorem routesByType_of_reader (h : (s.routeQueryLocked now query).1 = .reader) :
    s.routesByType query := by
  cases hb : s.routesByType query with
  | true => rfl
  | false =>
    rw [routeQueryLocked_fixed hb] at h
    cases h

omit [PgQuery] in
theorem routesByType_idle (h : s.routesByType query) :
    s.pinned = false ∧ s.inTransaction = false ∧ routedTx s.inTransaction query = false ∧
      keywordFree query := by
  unfold Session.routesByType at h
  unfold keywordFree
  split at h
  · rename_i hsingle
    simp only [Bool.and_eq_true, Bool.not_eq_true', decide_eq_true_eq] at h
    obtain ⟨⟨hp, htx⟩, hnone⟩ := h
    have hkeep : routedTx s.inTransaction query = s.inTransaction := by
      rw [routedTx, if_pos hsingle, hnone]
    rw [if_pos hsingle]
    exact ⟨hp, hkeep.symm.trans htx, htx, by simpa using hnone⟩
  · rename_i hmulti
    simp only [Bool.and_eq_true, Bool.not_eq_true'] at h
    obtain ⟨⟨hp, htx⟩, hidle, hfree⟩ := h
    rw [if_neg hmulti]
    exact ⟨hp, hidle, htx, by simpa using hfree⟩

theorem run_append (s : Session) (calls more : List TimedCall) :
    s.run (calls ++ more) = (s.run calls).run more := by
  unfold Session.run
  rw [List.foldl_append]

theorem unpinned_of_run (h : (s.run calls).pinned = false) (he : e ∈ calls) :
    e.2 ≠ .pin reason := by
  intro hpin
  obtain ⟨before, after, rfl⟩ := List.append_of_mem he
  have hp : ((s.run before).call e.1 e.2).pinned = true := by
    rw [hpin]
    exact pin_pinned _ _
  have hrun := run_keeps_pin hp after
  rw [run_append] at h
  exact absurd (hrun.symm.trans h) (by decide)

theorem classify_string (h : s.astParser = false) (query : Bytes) :
    s.classify query = classify query := by
  rw [Session.classify, classifyBy, h]
  rfl

theorem reader_safe (hast : s.astParser = false) (hl : s.lastWriteTime = none)
    (hc : Clocked calls now) (h : ((s.run calls).routeQueryLocked now query).1 = .reader) :
    ReaderSafe s calls now query := by
  have hset := run_settings s calls
  have hby := routesByType_of_reader h
  obtain ⟨hpin, hidle, htx, hfree⟩ := routesByType_idle hby
  have hread := routeQueryLocked_reader h
  have hastn : (s.run calls).astParser = false := hset.ast.trans hast
  refine ⟨hidle, ?_, fun e he reason => unpinned_of_run hpin he, hfree, ?_, ?_⟩
  · rw [Session.call, routeQueryLocked_inTransaction]
    exact htx
  · rw [← classify_string hastn]
    exact hread
  · intro hcausal earlier t text after he hmarks hwrite
    have hwindow : (s.run calls).inWriteWindow now = false := by
      cases hw : (s.run calls).inWriteWindow now with
      | false => rfl
      | true =>
        have := (routeQueryLocked_writer_iff (hset.causal.trans hcausal) hread).mpr (.inr hw)
        rw [h] at this
        cases this
    by_contra hnot
    have hrecent : Recent s Session.marks calls now := by
      refine ⟨earlier, t, .query text, after, he, ?_, by omega⟩
      have heast : (s.run earlier).astParser = false := (run_settings s earlier).ast.trans hast
      simp [Session.marks, hmarks, classify_string heast, hwrite]
    rw [(inWriteWindow_iff hcausal hl hc).mpr hrecent] at hwindow
    cases hwindow

theorem writer_of_transaction
    (h : s.inTransaction ∨ (s.call now (.query query)).inTransaction = true) :
    (s.routeQueryLocked now query).1 = .writer := by
  cases hr : (s.routeQueryLocked now query).1 with
  | writer => rfl
  | reader =>
    obtain ⟨-, hidle, htx, -⟩ := routesByType_idle (routesByType_of_reader hr)
    rw [Session.call, routeQueryLocked_inTransaction, hidle] at h
    rw [hidle] at htx
    rcases h with h | h
    · cases h
    · exact absurd (h.symm.trans htx) (by decide)

end ReaderSafety

/-- Reader routing is safe over the calls of every session with the string parser. -/
theorem routes_safely [CaseTable] [PgQuery] (delay : Int) (causal : Bool) (calls : List TimedCall)
    (h : calls.Pairwise fun a b => a.1 ≤ b.1) :
    RoutesSafely (Session.new delay causal false) calls := by
  refine ⟨?_, ?_, ?_⟩
  · intro before now query after he hr
    subst he
    have hs := List.pairwise_append.mp h
    have hc : Clocked before now :=
      ⟨hs.1, fun e he => hs.2.2 e he (now, .query query) (.head _)⟩
    exact reader_safe rfl rfl hc hr
  · intro before now query after _ _ htx
    exact writer_of_transaction (.inr htx)
  · intro before start mid now query after _ _ _ hopen
    exact writer_of_transaction (.inl (hopen mid (List.prefix_refl mid)))

/-- A SELECT behind a transaction and, as late as the delay asks, behind a write of its own. -/
theorem select_after_commit_safe :
    let _ := asciiExternal
    let s := Session.new 5 false false
    let calls := [(0, .query (ascii "BEGIN")), (1, insertCall), (2, .query (ascii "COMMIT")),
      (3, insertCall)]
    ((s.run calls).routeQueryLocked 7 (ascii "SELECT * FROM t")).1 = .writer ∧
      ((s.run calls).routeQueryLocked 8 (ascii "SELECT * FROM t")).1 = .reader ∧
      ReaderSafe s calls 8 (ascii "SELECT * FROM t") := by
  intro _ s calls
  have hr : ((s.run calls).routeQueryLocked 8 (ascii "SELECT * FROM t")).1 = .reader := by
    decide +kernel
  have hsafe := routes_safely 5 false (calls ++ [(8, selectCall)]) (by decide)
  exact ⟨by decide +kernel, hr, hsafe.reader calls 8 (ascii "SELECT * FROM t") [] rfl hr⟩

end Pgmux
