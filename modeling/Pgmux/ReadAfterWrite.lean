import Pgmux.Script
import Pgmux.SessionCalls

namespace Pgmux

section ReadAfterWrite

variable [CaseTable] [PgQuery] {s : Session} {calls before after : List TimedCall}

/-- The call executes a write: a simple query, or a prepared statement by its Bind. -/
def Session.writes (s : Session) : SessionCall → Bool
  | .query text => s.classify text = .write
  | .execute name => s.stmtWrite.lookup name = some true
  | _ => false

def Session.reads (s : Session) : SessionCall → Bool
  | .query text =>
    !s.inTransaction && !routedTx s.inTransaction text && s.classify text = .read
  | .execute name => !s.inTransaction && s.stmtWrite.lookup name = some false
  | _ => false

/-- The route of what a call executes: that of `Route`, or that of the prepared statement. -/
def Session.routes (s : Session) (now : Nat) : SessionCall → Route
  | .query text => (s.routeQueryLocked now text).1
  | .execute name => s.statementRoute name
  | _ => .writer

/-- One of the calls is such an act of the session, less than the delay before `now`. -/
def Recent (s : Session) (act : Session → SessionCall → Bool) (calls : List TimedCall)
    (now : Nat) : Prop :=
  ∃ (before : List TimedCall) (t : Nat) (c : SessionCall) (after : List TimedCall),
    calls = before ++ (t, c) :: after ∧ act (s.run before) c = true ∧
      (now : Int) < t + s.readAfterWriteDelay

theorem recent_concat {t now : Nat} : Recent s act (calls ++ [(t, c)]) now ↔
    Recent s act calls now ∨
      act (s.run calls) c ∧ (now : Int) < t + s.readAfterWriteDelay := by
  constructor
  · rintro ⟨before, t', c', after, he, ha, hn⟩
    rcases List.eq_nil_or_concat after with rfl | ⟨after, e, rfl⟩
    · obtain ⟨rfl, hc⟩ := List.append_inj' he rfl
      cases hc
      exact .inr ⟨ha, hn⟩
    · rw [List.concat_eq_append, ← List.cons_append, ← List.append_assoc] at he
      obtain ⟨rfl, -⟩ := List.append_inj' he rfl
      exact .inl ⟨before, t', c', after, rfl, ha, hn⟩
  · rintro (⟨before, t', c', after, rfl, ha, hn⟩ | ⟨ha, hn⟩)
    · exact ⟨before, t', c', after ++ [(t, c)], by simp, ha, hn⟩
    · exact ⟨calls, t, c, [], rfl, ha, hn⟩

/-- The times of the calls do not decrease, and none is after `now`. -/
structure Clocked (calls : List TimedCall) (now : Nat) : Prop where
  sorted : calls.Pairwise fun a b => a.1 ≤ b.1
  past : ∀ e ∈ calls, e.1 ≤ now

omit [CaseTable] [PgQuery] in
theorem Clocked.split (h : Clocked (before ++ (t, c) :: after) now) :
    Clocked before t ∧ t ≤ now := by
  have hs := List.pairwise_append.mp h.sorted
  refine ⟨⟨hs.1, fun e he => hs.2.2 e he _ (.head _)⟩, ?_⟩
  exact h.past (t, c) (by simp)

omit [CaseTable] [PgQuery] in
theorem inWriteWindow_iff_some (s : Session) (now : Nat) : s.inWriteWindow now ↔
    0 < s.readAfterWriteDelay ∧
      ∃ t : Nat, s.lastWriteTime = some t ∧ (now : Int) < t + s.readAfterWriteDelay := by
  unfold Session.inWriteWindow
  cases s.lastWriteTime with
  | none => simp
  | some t =>
    simp only [Bool.and_eq_true, decide_eq_true_eq, Option.some.injEq, exists_eq_left']
    refine and_congr_right fun _ => ?_
    simp only [Option.pure_def, Option.bind_eq_bind, Option.bind_some, Option.any_some,
      decide_eq_true_eq]
    omega

theorem inWriteWindow_iff (hs : s.causalConsistency = false) (hl : s.lastWriteTime = none)
    (hc : Clocked calls now) :
    (s.run calls).inWriteWindow now ↔ Recent s Session.marks calls now := by
  induction calls using List.reverseRecOn with
  | nil =>
    rw [inWriteWindow_iff_some]
    constructor
    · rintro ⟨-, t, ht, -⟩
      rw [Session.run, List.foldl_nil, hl] at ht
      cases ht
    · rintro ⟨before, t, c, after, he, -⟩
      cases before <;> cases he
  | append_singleton calls e ih =>
    obtain ⟨t, c⟩ := e
    obtain ⟨hpre, htn⟩ := hc.split
    have hset := run_settings s calls
    have hset' := call_settings (s.run calls) t c
    rw [run_concat, recent_concat, inWriteWindow_iff_some,
      call_lastWriteTime (hset.causal.trans hs), hset'.delay, hset.delay]
    cases hm : (s.run calls).marks c with
    | true =>
      simp only [if_true, Option.some.injEq, exists_eq_left', true_and]
      constructor
      · exact fun h => .inr h.2
      · rintro (⟨before, t₀, c₀, after, rfl, -, hn⟩ | hn)
        · have ht₀ := hpre.past (t₀, c₀) (by simp)
          simp only at ht₀
          omega
        · omega
    | false =>
      have ih := ih ⟨hpre.sorted, fun e he => (hpre.past e he).trans htn⟩
      rw [inWriteWindow_iff_some, hset.delay] at ih
      simp only [Bool.false_eq_true, if_false, false_and, or_false]
      exact ih

/-- The route of a statement was the writer's at its Parse, whatever the clock. -/
def Session.fixesWriter (s : Session) (text : Bytes) : Prop :=
  let upper := toUpper (trimSpace (stripComments text))
  (hasPrefix upper (ascii "BEGIN") || hasPrefix upper (ascii "START TRANSACTION") ||
      hasPrefix upper (ascii "COMMIT") || hasPrefix upper (ascii "ROLLBACK")) = true ∨
    (s.pinned || s.inTransaction) = true

theorem routeLocked_writer_iff (hs : s.causalConsistency = false)
    (hr : s.classify text = .read) :
    s.routeLocked now text = .writer ↔ s.fixesWriter text ∨ s.inWriteWindow now := by
  unfold Session.routeLocked Session.fixesWriter
  dsimp only
  split
  · rename_i h
    simp [h]
  · rename_i h
    split
    · rename_i h'
      simp [h']
    · rename_i h'
      rw [hr, hs]
      cases hw : s.inWriteWindow now <;> simp [h, h']

theorem routeByType_writer_iff (hs : s.causalConsistency = false)
    (hr : s.classify text = .read) :
    (s.routeByType now text).1 = .writer ↔ s.inWriteWindow now := by
  unfold Session.routeByType
  rw [hr, hs]
  cases s.inWriteWindow now <;> simp

theorem routeQueryLocked_writer_iff (hs : s.causalConsistency = false)
    (hr : s.classify text = .read) :
    (s.routeQueryLocked now text).1 = .writer ↔
      s.routesByType text = false ∨ s.inWriteWindow now := by
  cases h : s.routesByType text with
  | false => simp [routeQueryLocked_fixed h]
  | true =>
    rw [routeQueryLocked_byType h]
    simp only [Bool.true_eq_false, false_or]
    exact routeByType_writer_iff
      (s := { s with inTransaction := routedTx s.inTransaction text }) hs hr

/-- What makes the session send a read to the writer: a write that it remembers is recent, at the
time of a simple query, and for a prepared statement at the time of its Parse; or pinning or a
transaction decided then. -/
def Covered (s : Session) (calls : List TimedCall) (now : Nat) : SessionCall → Prop
  | .query text =>
    (s.run calls).routesByType text = false ∨ Recent s Session.marks calls now
  | .execute name => ∃ before t text, Parsed calls name before t text ∧
      ((s.run before).fixesWriter text ∨ Recent s Session.marks before t)
  | _ => True

theorem statementRoute_writer_iff (hs : s.causalConsistency = false) (hl : s.lastWriteTime = none)
    (hc : Clocked calls now) (hp : Parsed calls name before t text)
    (hr : (s.run calls).stmtWrite.lookup name = some false) :
    (s.run calls).statementRoute name = .writer ↔
      (s.run before).fixesWriter text ∨ Recent s Session.marks before t := by
  obtain ⟨hroute, hwrite⟩ := lookup_of_parsed hp s
  have hread : (s.run before).classify text = .read := by
    rw [hr, Option.some.injEq] at hwrite
    cases hq : (s.run before).classify text with
    | read => rfl
    | write => simp [hq] at hwrite
  obtain ⟨after, rfl, -⟩ := hp
  rw [Session.statementRoute, hroute, Option.getD_some,
    routeLocked_writer_iff ((run_settings s before).causal.trans hs) hread,
    inWriteWindow_iff hs hl hc.split.1]

theorem routes_writer_iff (hs : s.causalConsistency = false) (hl : s.lastWriteTime = none)
    (hw : s.stmtWrite = ∅) (hc : Clocked calls now) (hr : (s.run calls).reads c) :
    (s.run calls).routes now c = .writer ↔ Covered s calls now c := by
  cases c with
  | query text =>
    simp only [Session.reads, Bool.and_eq_true, decide_eq_true_eq] at hr
    simp only [Session.routes, Covered]
    rw [routeQueryLocked_writer_iff ((run_settings s calls).causal.trans hs) hr.2,
      inWriteWindow_iff hs hl hc]
  | execute name =>
    simp only [Session.reads, Bool.and_eq_true, decide_eq_true_eq] at hr
    constructor
    · intro h
      obtain ⟨before, t, text, hp⟩ := parsed_of_lookup (by rw [hw, AList.lookup_empty]) hr.2
      exact ⟨before, t, text, hp, (statementRoute_writer_iff hs hl hc hp hr.2).mp h⟩
    · rintro ⟨before, t, text, hp, h⟩
      exact (statementRoute_writer_iff hs hl hc hp hr.2).mpr h
  | _ => cases hr

/-- Every read outside a transaction that comes less than the delay after a write of the session is
routed as `ok` says. -/
def AfterWrites (s : Session) (calls : List TimedCall)
    (ok : List TimedCall → Nat → SessionCall → Prop) : Prop :=
  ∀ before now c after, calls = before ++ (now, c) :: after → (s.run before).reads c = true →
    Recent s Session.writes before now → ok before now c

/-- Reads after writes go to the writer in exactly the runs in which they are covered. -/
theorem read_after_write_iff (hc : Clocked calls now) :
    AfterWrites (Session.new d false ast) calls
        (fun before now c => ((Session.new d false ast).run before).routes now c = .writer) ↔
      AfterWrites (Session.new d false ast) calls (Covered (Session.new d false ast)) := by
  constructor
  · intro h before t c after he hr hw
    subst he
    exact (routes_writer_iff rfl rfl rfl hc.split.1 hr).mp (h before t c after rfl hr hw)
  · intro h before t c after he hr hw
    subst he
    exact (routes_writer_iff rfl rfl rfl hc.split.1 hr).mpr (h before t c after rfl hr hw)

end ReadAfterWrite

def insertCall : SessionCall := .query (ascii "INSERT INTO t VALUES (1)")

def selectCall : SessionCall := .query (ascii "SELECT * FROM t")

/-- A SELECT one tick after an INSERT, with a delay of five. -/
theorem read_after_write_simple :
    let _ := asciiExternal
    ((Session.new 5 false false).run [(0, insertCall)]).routes 1 selectCall = .writer := by
  intro _
  have hc : Clocked [(0, insertCall), (1, selectCall)] 1 := ⟨by simp, by simp⟩
  have hw : Recent (Session.new 5 false false) Session.marks [(0, insertCall)] 1 :=
    ⟨[], 0, insertCall, [], rfl, by decide +kernel, by decide⟩
  apply (read_after_write_iff hc).mpr _ [(0, insertCall)] 1 selectCall [] rfl
  · decide +kernel
  · exact ⟨[], 0, insertCall, [], rfl, by decide +kernel, by decide⟩
  · intro before now c after he hr _
    cases before with
    | nil =>
      cases he
      exact absurd hr (by decide +kernel)
    | cons e before =>
      cases before with
      | nil =>
        cases he
        exact .inr hw
      | cons e' before => simp at he

/-- After a write by the extended protocol, in a transaction, or between the Parse and the Bind of a
read, the read goes to a reader. -/
theorem read_after_write_missed :
    let _ := asciiExternal
    let missed := fun calls c => ¬ AfterWrites (Session.new 5 false false) (calls ++ [(1, c)])
      fun before now c => ((Session.new 5 false false).run before).routes now c = .writer
    missed [(0, .parse [] (ascii "INSERT INTO t VALUES (1)")), (0, .execute [])] selectCall ∧
      missed [(0, .query (ascii "BEGIN")), (0, insertCall), (0, .query (ascii "COMMIT"))]
        selectCall ∧
      missed [(0, .parse [] (ascii "SELECT * FROM t")), (0, insertCall)] (.execute []) := by
  intro _ missed
  refine ⟨fun h => ?_, fun h => ?_, fun h => ?_⟩
  · have hw := h _ 1 selectCall [] rfl (by decide +kernel)
      ⟨[(0, .parse [] _)], 0, .execute [], [], rfl, by decide +kernel, by decide⟩
    exact absurd hw (by decide +kernel)
  · have hw := h _ 1 selectCall [] rfl (by decide +kernel)
      ⟨[(0, .query _)], 0, insertCall, [(0, .query _)], rfl, by decide +kernel, by decide⟩
    exact absurd hw (by decide +kernel)
  · have hw := h _ 1 (.execute []) [] rfl (by decide +kernel)
      ⟨[(0, .parse [] _)], 0, insertCall, [], rfl, by decide +kernel, by decide⟩
    exact absurd hw (by decide +kernel)

end Pgmux
