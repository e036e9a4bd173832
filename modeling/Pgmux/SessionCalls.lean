import Mathlib.Data.List.Induction
import Pgmux.Session

namespace Pgmux

inductive SessionCall where
  | query (text : Bytes)
  | parse (name text : Bytes)
  | execute (name : Bytes)
  | close (name : Bytes)
  | setInTransaction (v : Bool)
  | setLastWriteLSN (lsn : Nat)
  | pin (reason : Bytes)

abbrev TimedCall := Nat × SessionCall

section Calls

variable [CaseTable] [PgQuery] {s : Session} {calls : List TimedCall}

def Session.call (s : Session) (now : Nat) : SessionCall → Session
  | .query text => (s.routeQueryLocked now text).2
  | .parse name text => (s.registerStatement now name text).2
  | .execute _ => s
  | .close name => s.closeStatement name
  | .setInTransaction v => s.setInTransaction v
  | .setLastWriteLSN lsn => s.setLastWriteLSN lsn
  | .pin reason => s.pin reason

def Session.run (s : Session) (calls : List TimedCall) : Session :=
  calls.foldl (fun s e => s.call e.1 e.2) s

theorem run_concat (s : Session) (calls : List TimedCall) (e : TimedCall) :
    s.run (calls ++ [e]) = (s.run calls).call e.1 e.2 := by
  simp [Session.run]

/-- Neither pinning nor a transaction decides, so `routeQueryLocked` looks at the type. -/
def Session.routesByType (s : Session) (query : Bytes) : Bool :=
  !s.pinned && !routedTx s.inTransaction query &&
    if isSingleStatement query then hasTxPrefix query = .none
    else !s.inTransaction && !containsTransactionKeyword query

theorem routeQueryLocked_byType (h : s.routesByType query) (now : Nat) :
    s.routeQueryLocked now query =
      Session.routeByType { s with inTransaction := routedTx s.inTransaction query } now query := by
  unfold Session.routesByType at h
  unfold Session.routeQueryLocked
  dsimp only
  split at h
  · rename_i hq
    simp only [Bool.and_eq_true, Bool.not_eq_true', decide_eq_true_eq] at h
    rw [if_pos hq, if_neg]
    simp [h]
  · rename_i hq
    simp only [Bool.and_eq_true, Bool.not_eq_true'] at h
    rw [if_neg hq, if_neg]
    rw [h.1.1, h.1.2, h.2.1, h.2.2]
    decide

theorem routeQueryLocked_fixed (h : s.routesByType query = false) (now : Nat) :
    s.routeQueryLocked now query =
      (.writer, { s with inTransaction := routedTx s.inTransaction query }) := by
  unfold Session.routesByType at h
  unfold Session.routeQueryLocked
  dsimp only
  split at h
  · rename_i hq
    rw [if_pos hq, if_pos]
    cases hp : s.pinned <;> cases ht : routedTx s.inTransaction query <;> simp_all
  · rename_i hq
    rw [if_neg hq, if_pos]
    cases hp : s.pinned <;> cases ht : routedTx s.inTransaction query <;>
      cases hi : s.inTransaction <;> simp_all

theorem routeQueryLocked_keeps_pin (s : Session) (now : Nat) (text : Bytes) :
    (s.routeQueryLocked now text).2.pinned = s.pinned := by
  cases h : s.routesByType text with
  | false => rw [routeQueryLocked_fixed h]
  | true =>
    rw [routeQueryLocked_byType h]
    unfold Session.routeByType
    split
    · dsimp only
      split <;> rfl
    · split
      · rfl
      · split <;> rfl

theorem call_keeps_pin (h : s.pinned) (now : Nat) (c : SessionCall) :
    (s.call now c).pinned = true := by
  cases c with
  | query text => exact (routeQueryLocked_keeps_pin s now text).trans h
  | parse name text => exact h
  | execute name => exact h
  | close name => exact h
  | setInTransaction v => exact h
  | setLastWriteLSN lsn => exact h
  | pin reason => exact pin_pinned s reason

theorem run_keeps_pin (h : s.pinned) (calls : List TimedCall) :
    (s.run calls).pinned = true := by
  induction calls generalizing s with
  | nil => exact h
  | cons e calls ih => exact ih (call_keeps_pin h e.1 e.2)

structure SameSettings (s s' : Session) : Prop where
  delay : s'.readAfterWriteDelay = s.readAfterWriteDelay
  causal : s'.causalConsistency = s.causalConsistency
  ast : s'.astParser = s.astParser

theorem routeByType_settings (s : Session) (now : Nat) (query : Bytes) :
    SameSettings s (s.routeByType now query).2 := by
  unfold Session.routeByType
  split
  · dsimp only
    split <;> exact ⟨rfl, rfl, rfl⟩
  · split
    · exact ⟨rfl, rfl, rfl⟩
    · split <;> exact ⟨rfl, rfl, rfl⟩

theorem call_settings (s : Session) (now : Nat) (c : SessionCall) :
    SameSettings s (s.call now c) := by
  cases c with
  | query text =>
    cases h : s.routesByType text with
    | true =>
      rw [Session.call, routeQueryLocked_byType h]
      have hs := routeByType_settings
        { s with inTransaction := routedTx s.inTransaction text } now text
      exact ⟨hs.delay, hs.causal, hs.ast⟩
    | false =>
      rw [Session.call, routeQueryLocked_fixed h]
      exact ⟨rfl, rfl, rfl⟩
  | parse name text => exact ⟨rfl, rfl, rfl⟩
  | execute name => exact ⟨rfl, rfl, rfl⟩
  | close name => exact ⟨rfl, rfl, rfl⟩
  | setInTransaction v => exact ⟨rfl, rfl, rfl⟩
  | setLastWriteLSN lsn => exact ⟨rfl, rfl, rfl⟩
  | pin reason =>
    simp only [Session.call, Session.pin]
    split <;> exact ⟨rfl, rfl, rfl⟩

theorem run_settings (s : Session) (calls : List TimedCall) : SameSettings s (s.run calls) := by
  induction calls using List.reverseRecOn with
  | nil => exact ⟨rfl, rfl, rfl⟩
  | append_singleton calls e ih =>
    have hc := call_settings (s.run calls) e.1 e.2
    rw [run_concat]
    exact ⟨hc.delay.trans ih.delay, hc.causal.trans ih.causal, hc.ast.trans ih.ast⟩

theorem routeByType_lastWriteTime (hs : s.causalConsistency = false) (now : Nat) (query : Bytes) :
    (s.routeByType now query).2.lastWriteTime =
      if s.classify query = .write then some now else s.lastWriteTime := by
  unfold Session.routeByType
  rw [hs]
  cases s.classify query with
  | write => rfl
  | read =>
    simp only [Bool.false_eq_true, if_false, reduceCtorEq]
    split <;> rfl

/-- A write that the session remembers: a simple query that is routed by its type. -/
def Session.marks (s : Session) : SessionCall → Bool
  | .query text => s.routesByType text && s.classify text = .write
  | _ => false

/-- The time of the last write is set by the writes that the session remembers only. -/
theorem call_lastWriteTime (hs : s.causalConsistency = false) (now : Nat) (c : SessionCall) :
    (s.call now c).lastWriteTime = if s.marks c then some now else s.lastWriteTime := by
  cases c with
  | query text =>
    cases h : s.routesByType text with
    | true =>
      rw [Session.call, routeQueryLocked_byType h]
      simp only [Session.marks, h, Bool.true_and, decide_eq_true_eq]
      exact routeByType_lastWriteTime
        (s := { s with inTransaction := routedTx s.inTransaction text }) hs now text
    | false =>
      rw [Session.call, routeQueryLocked_fixed h]
      simp [Session.marks, h]
  | parse name text => rfl
  | execute name => rfl
  | close name => rfl
  | setInTransaction v => rfl
  | setLastWriteLSN lsn => rfl
  | pin reason =>
    simp only [Session.call, Session.pin]
    split <;> rfl

/-- The call sets or forgets the route of the statement. -/
def SessionCall.names (name : Bytes) : SessionCall → Bool
  | .parse n _ => n = name
  | .close n => n = name
  | _ => false

theorem routeQueryLocked_stmts (s : Session) (now : Nat) (query : Bytes) :
    (s.routeQueryLocked now query).2.stmtRoutes = s.stmtRoutes ∧
      (s.routeQueryLocked now query).2.stmtWrite = s.stmtWrite := by
  cases h : s.routesByType query with
  | true =>
    rw [routeQueryLocked_byType h]
    unfold Session.routeByType
    split
    · dsimp only
      split <;> exact ⟨rfl, rfl⟩
    · split
      · exact ⟨rfl, rfl⟩
      · split <;> exact ⟨rfl, rfl⟩
  | false =>
    rw [routeQueryLocked_fixed h]
    exact ⟨rfl, rfl⟩

theorem call_lookup (hc : c.names name = false) (s : Session) (now : Nat) :
    (s.call now c).stmtRoutes.lookup name = s.stmtRoutes.lookup name ∧
      (s.call now c).stmtWrite.lookup name = s.stmtWrite.lookup name := by
  cases c with
  | query text =>
    rw [Session.call, (routeQueryLocked_stmts s now text).1, (routeQueryLocked_stmts s now text).2]
    exact ⟨rfl, rfl⟩
  | parse n text =>
    have hn : name ≠ n := by
      rintro rfl
      simp [SessionCall.names] at hc
    exact ⟨AList.lookup_insert_ne hn, AList.lookup_insert_ne hn⟩
  | execute n => exact ⟨rfl, rfl⟩
  | close n =>
    have hn : name ≠ n := by
      rintro rfl
      simp [SessionCall.names] at hc
    exact ⟨AList.lookup_erase_ne hn, AList.lookup_erase_ne hn⟩
  | setInTransaction v => exact ⟨rfl, rfl⟩
  | setLastWriteLSN lsn => exact ⟨rfl, rfl⟩
  | pin reason =>
    simp only [Session.call, Session.pin]
    split <;> exact ⟨rfl, rfl⟩

/-- The Parse of a statement that is in force: no later call parses or closes it. -/
def Parsed (calls : List TimedCall) (name : Bytes) (before : List TimedCall) (now : Nat)
    (text : Bytes) : Prop :=
  ∃ after, calls = before ++ (now, .parse name text) :: after ∧
    ∀ e ∈ after, e.2.names name = false

theorem lookup_of_parsed (h : Parsed calls name before now text) (s : Session) :
    (s.run calls).stmtRoutes.lookup name = some ((s.run before).routeLocked now text) ∧
      (s.run calls).stmtWrite.lookup name =
        some (decide ((s.run before).classify text = .write)) := by
  obtain ⟨after, rfl, ha⟩ := h
  induction after using List.reverseRecOn with
  | nil =>
    rw [run_concat]
    exact ⟨AList.lookup_insert _, AList.lookup_insert _⟩
  | append_singleton after e ih =>
    have ih := ih fun e' he' => ha e' (List.mem_append_left _ he')
    have hl := call_lookup (ha e (by simp))
      (s.run (before ++ (now, .parse name text) :: after)) e.1
    rw [← List.cons_append, ← List.append_assoc, run_concat, hl.1, hl.2]
    exact ih

theorem parsed_of_lookup (hs : s.stmtWrite.lookup name = none)
    (h : (s.run calls).stmtWrite.lookup name = some w) :
    ∃ before now text, Parsed calls name before now text := by
  induction calls using List.reverseRecOn with
  | nil =>
    rw [Session.run, List.foldl_nil, hs] at h
    cases h
  | append_singleton calls e ih =>
    rw [run_concat] at h
    obtain ⟨now, c⟩ := e
    cases hc : c.names name with
    | false =>
      rw [(call_lookup hc (s.run calls) now).2] at h
      obtain ⟨before, now', text, after, rfl, ha⟩ := ih h
      refine ⟨before, now', text, after ++ [(now, c)], by simp, ?_⟩
      exact List.forall_mem_append.mpr ⟨ha, List.forall_mem_singleton.mpr hc⟩
    | true =>
      cases c with
      | parse n text =>
        cases of_decide_eq_true hc
        exact ⟨calls, now, text, [], rfl, fun e he => by cases he⟩
      | close n =>
        cases of_decide_eq_true hc
        have hn := AList.lookup_erase name (s.run calls).stmtWrite
        exact absurd (hn.symm.trans h) (by simp)
      | _ => cases hc

end Calls

end Pgmux
