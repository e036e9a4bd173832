import Pgmux.Answering
import Pgmux.Script

namespace Pgmux

open Interaction

section Answered

variable [External] {st st' : Relay} {tr t : Trace Ans}

theorem releaseReader_session (h : Runs (releaseReader st) tr st') : st'.session = st.session := by
  rw [(releaseReader_gone h (configured_all tr)).same]

theorem rejectBatch_answered (h : Runs (rejectBatch st text) tr st') :
    Answered 1 (· = readyStatus st'.session.inTransaction) tr := by
  unfold rejectBatch at h
  simp only [runs_bind] at h
  obtain ⟨t₁, _, _, h₁, ⟨t₂, _, _, h₂, ⟨t₃, st₁, _, h₃, h, rfl⟩, rfl⟩, rfl⟩ := h
  obtain ⟨rfl, rfl⟩ := runs_pure.mp h
  have hs : st₁.session = st.session := releaseReader_session h₃
  change Answered 1 (· = readyStatus st₁.session.inTransaction) _
  rw [List.append_nil, hs]
  refine (sendError_foot.answered rfl h₁).append (k := 1) ?_
  exact (sendReadyForQuery_answered h₂).append (releaseReader_foot.answered rfl h₃)

theorem syncMultiplex_answered (h : Runs (syncMultiplex st synth) tr (.inl st'))
    (hone : OneReady tr) : Answered 1 (· = readyStatus st'.session.inTransaction) tr := by
  generalize hr : (.inl st' : Flow) = r at h
  cases syncMultiplex_ways h with
  | noBind _ h₁ =>
    cases hr
    exact sendReadyForQuery_answered h₁
  | failed _ _ h₁ h₂ =>
    cases hr
    exact (sendError_foot.answered rfl h₁).append (sendReadyForQuery_answered h₂)
  | executed _ _ h₁ =>
    obtain ⟨st₁, rfl, -⟩ := map_endBatch_inl hr.symm
    exact executeSynthesizedQuery_answered h₁ hone

theorem executeSync_answered (h : Runs (executeSync st msg) tr (.inl st')) (hone : OneReady tr) :
    Answered 1 (· = readyStatus st'.session.inTransaction) tr := by
  generalize hr : (.inl st' : Flow) = r at h
  cases executeSync_ways h with
  | multiplex _ h₁ =>
    subst hr
    exact syncMultiplex_answered h₁ hone
  | read _ _ h₁ =>
    obtain ⟨st₁, rfl, -⟩ := map_endBatch_inl hr.symm
    exact readBatch_answered h₁ hone
  | write _ _ h₁ =>
    obtain ⟨st₁, rfl, -⟩ := map_endBatch_inl hr.symm
    exact onWriter_answered (fun _ _ _ h => forwardAndRelay_answered (forwardFor_runs h))
      (fun _ _ _ _ => finishBatch_foot.silent rfl) h₁ hone

theorem handleSync_answered (h : Runs (handleSync st msg) tr (.inl st')) (hone : OneReady tr) :
    Answered 1 (· = readyStatus st'.session.inTransaction) tr := by
  generalize hr : (.inl st' : Flow) = r at h
  cases handleSync_ways h with
  | blocked h₀ _ h₁ =>
    cases hr
    have ha := rejectBatch_answered h₁
    exact (releaseStaleReader_foot.answered rfl h₀).append (k := 1) ha
  | readOnly h₀ _ _ h₁ =>
    cases hr
    exact (releaseStaleReader_foot.answered rfl h₀).append (k := 1)
      (.cons rfl (rejectBatch_answered h₁))
  | executed h₀ _ _ h₁ =>
    subst hr
    exact (releaseStaleReader_foot.answered rfl h₀).append (k := 1)
      (.cons rfl (executeSync_answered h₁ hone.right.tail))

theorem handleQuery_answered (h : Runs (handleQuery st msg) tr (.inl st')) (hone : OneReady tr)
    (hscreen : st.session.inTransaction → ∀ cfg ∈ (configsSeen tr).head?,
      ∀ rules ∈ rulesSeen tr,
        screenText cfg (checkedText rules msg) (sharedTree cfg rules msg) = none)
    (hro : true ∈ answers .inReadOnly tr → ∀ rules ∈ rulesSeen tr,
      (∃ cfg ∈ configsSeen tr, classifyBy cfg.astParser (checkedText rules msg) = .write) →
      routedTx st.session.inTransaction (checkedText rules msg) = false) :
    Answered 1 (· = readyStatus st'.session.inTransaction) tr := by
  obtain ⟨cfg, rules, t, rfl, hs⟩ := handleQuery_cases h
  refine .cons rfl (.cons rfl ?_)
  replace hone := hone.tail.tail
  split at hs
  · rename_i error he
    obtain ⟨hrej, hst⟩ := hs
    cases hst
    have hidle : st.session.inTransaction = false := by
      cases htx : st.session.inTransaction with
      | false => rfl
      | true =>
        have := hscreen htx cfg rfl rules (mem_answers.mpr (by simp))
        rw [he] at this
        cases this
    rw [hidle]
    exact reject_answered hrej
  · obtain ⟨now, t₁, qtype, ro, t₂, rfl, h₁, h₂⟩ := routeQuery_cases hs
    refine .cons rfl ((routedType_foot.answered rfl h₁).append (k := 1) (.cons rfl ?_))
    replace hone := hone.tail.right.tail
    cases h₂ with
    | rejected hb hqt hrej hst =>
      subst hb hqt
      cases hst
      obtain ⟨cfg', hc, hw⟩ := routedType_write h₁ fun _ => preParse_tree
      have hidle := hro (mem_answers.mpr (by simp)) rules (mem_answers.mpr (by simp))
        ⟨cfg', mem_answers.mpr (by simp [mem_answers.mp hc]), hw⟩
      rw [show (Relay.routed _ now _).session.inTransaction = _ from
        routeQueryLocked_inTransaction .., (guardedQuery_bound st cfg _ _).2.2, hidle]
      exact reject_answered hrej
    | write _ _ hw =>
      exact onWriter_answered (fun _ _ _ => handleWriteQuery_answered)
        (fun _ _ _ _ => finishQuery_foot.silent rfl) hw hone
    | read _ hr hst =>
      obtain ⟨rfl, -⟩ := proceed_inl hst.symm
      exact handleReadQueryTraced_answered hr hone

def Message.isRequest (m : Message) : Bool := m.type = msgQuery || m.type = msgSync

/-- The rounds that keep the discipline: a response has one ReadyForQuery, a rate limit refuses only
a Query or a Sync outside of a transaction, and no Query is rejected in one. -/
structure ReadyOrderly (st : Relay) (tr : Trace Ans) : Prop where
  one : OneReady tr
  limited : false ∈ allowAnswers tr → st.session.inTransaction = false ∧
    ∀ msg ∈ received tr, msg.isRequest = true
  screened : ∀ msg ∈ received tr, msg.type = msgQuery → st.session.inTransaction = true →
    ∀ cfg ∈ (configsSeen tr).head?, ∀ rules ∈ rulesSeen tr,
      screenText cfg (checkedText rules msg) (sharedTree cfg rules msg) = none
  readOnly : ∀ msg ∈ received tr, msg.type = msgQuery → true ∈ readOnlySeen tr →
    ∀ rules ∈ rulesSeen tr,
      (∃ cfg ∈ configsSeen tr, classifyBy cfg.astParser (checkedText rules msg) = .write) →
      routedTx st.session.inTransaction (checkedText rules msg) = false

instance (st : Relay) (tr : Trace Ans) : Decidable (ReadyOrderly st tr) :=
  decidable_of_iff (OneReady tr ∧ (false ∈ allowAnswers tr → st.session.inTransaction = false ∧
      ∀ msg ∈ received tr, msg.isRequest = true) ∧
    (∀ msg ∈ received tr, msg.type = msgQuery → st.session.inTransaction = true →
      ∀ cfg ∈ (configsSeen tr).head?, ∀ rules ∈ rulesSeen tr,
        screenText cfg (checkedText rules msg) (sharedTree cfg rules msg) = none) ∧
    ∀ msg ∈ received tr, msg.type = msgQuery → true ∈ readOnlySeen tr →
      ∀ rules ∈ rulesSeen tr,
        (∃ cfg ∈ configsSeen tr, classifyBy cfg.astParser (checkedText rules msg) = .write) →
        routedTx st.session.inTransaction (checkedText rules msg) = false)
    ⟨fun ⟨h₁, h₂, h₃, h₄⟩ => ⟨h₁, h₂, h₃, h₄⟩, fun ⟨h₁, h₂, h₃, h₄⟩ => ⟨h₁, h₂, h₃, h₄⟩⟩

theorem handleExtended_answered (h : Runs (handleExtended st msg) tr (.inl st'))
    (hq : msg.type ≠ msgQuery) (hone : OneReady tr) :
    Answered (if msg.isRequest then 1 else 0) (· = readyStatus st'.session.inTransaction) tr := by
  have hreq : msg.isRequest = decide (msg.type = msgSync) := by simp [Message.isRequest, hq]
  by_cases ht : msg.type = msgSync
  · rw [handleExtended_sync ht] at h
    rw [hreq, decide_eq_true ht]
    exact handleSync_answered h hone
  · rw [hreq, decide_eq_false ht]
    exact (handleExtended_foot ht).answered rfl h

/-- A round that goes on answers a Query or a Sync by one ReadyForQuery, and nothing else by any. -/
theorem relayStep_answered (h : Runs (relayStep st) tr (.inl st')) (hok : ReadyOrderly st tr) :
    Answered (if (received tr).any Message.isRequest then 1 else 0)
      (· = readyStatus st'.session.inTransaction) tr := by
  obtain ⟨b, msg, m, t, rfl, hh⟩ := relayStep_handled h
  refine .cons rfl (.cons rfl (.cons rfl ?_))
  have hone := hok.one.tail.tail.tail
  change Answered (if msg.isRequest then 1 else 0) _ t
  cases hh with
  | limited h₁ h₂ hst =>
    rename_i t₁ text t₂
    subst hst
    have hsub : allowAnswers t₁ ⊆ allowAnswers (⟨.ctxDone, b⟩ ::
        ⟨.readClient, .message msg⟩ :: ⟨.inMaintenance, m⟩ :: (t₁ ++ t₂) : Trace Ans) := by
      apply allowAnswers_subset
      intro e he
      simp [he]
    obtain ⟨hidle, hreq⟩ := hok.limited (hsub (rateLimited_refused h₁))
    rw [hreq msg rfl, hidle]
    exact (rateLimited_foot.answered rfl h₁).append (k := 1) (reject_answered h₂)
  | query h₁ hq h₂ =>
    rename_i t₁ t₂
    have hreq : msg.isRequest := by simp [Message.isRequest, hq]
    rw [hreq]
    refine (rateLimited_foot.answered rfl h₁).append (k := 1) ?_
    have hsub : ∀ o : Op, answers o t₂ ⊆ answers o (⟨.ctxDone, b⟩ ::
        ⟨.readClient, .message msg⟩ :: ⟨.inMaintenance, m⟩ :: (t₁ ++ t₂) : Trace Ans) :=
      fun o => answers_subset fun e he => by simp [he]
    have hcfg : configsSeen (⟨.ctxDone, b⟩ :: ⟨.readClient, .message msg⟩ ::
        ⟨.inMaintenance, m⟩ :: (t₁ ++ t₂) : Trace Ans) = configsSeen t₂ := by
      simp [configsSeen, answers_cons_ne, answers_append, rateLimited_ops.answers_eq_nil h₁]
    apply handleQuery_answered h₂ hone.right
    · intro htx cfg hc rules hr
      exact hok.screened msg rfl hq htx cfg (hcfg ▸ hc) rules (hsub _ hr)
    · intro hro rules hr hw
      exact hok.readOnly msg rfl hq (hsub _ hro) rules (hsub _ hr) (hcfg ▸ hw)
  | extended h₁ hq h₂ =>
    have ha := (rateLimited_foot.answered rfl h₁).append
      (handleExtended_answered h₂ hq hone.right)
    rwa [Nat.zero_add] at ha

def requests (rs : List (Relay × Trace Ans)) : Nat :=
  rs.countP fun r => (received r.2).any Message.isRequest

theorem requests_cons (r : Relay × Trace Ans) (rs : List (Relay × Trace Ans)) :
    requests (r :: rs) = (if (received r.2).any Message.isRequest then 1 else 0) + requests rs := by
  rw [requests, List.countP_cons, Nat.add_comm]
  rfl

theorem rounds_answered (h : Rounds relayStep st rs b) (hrs : rs = pre ++ r :: post)
    (hok : ∀ r ∈ pre, ReadyOrderly r.1 r.2) :
    readies (flat pre) = requests pre ∧
      ∀ past a next rest, pre ++ [r] = past ++ a :: next :: rest → ∀ p, OwnReady a.2 p →
        p = readyStatus next.1.session.inTransaction := by
  induction h generalizing pre with
  | leave hrun =>
    rcases List.cons_eq_append_iff.mp hrs with ⟨rfl, -⟩ | ⟨pre', rfl, hnil⟩
    · refine ⟨rfl, fun past a next rest he => ?_⟩
      have := congrArg List.length he
      simp at this
      omega
    · simp at hnil
  | @again s t s' rs b hrun hrest ih =>
    cases pre with
    | nil =>
      refine ⟨rfl, fun past a next rest he => ?_⟩
      have := congrArg List.length he
      simp at this
      omega
    | cons r₀ pre =>
      rw [List.cons_append] at hrs
      obtain ⟨rfl, rfl⟩ := List.cons.inj hrs
      obtain ⟨hcount, hown⟩ := relayStep_answered hrun (hok _ (.head _))
      obtain ⟨hn, hp⟩ := ih rfl fun r hr => hok r (.tail _ hr)
      refine ⟨by rw [flat_cons, readies_append, hcount, hn, requests_cons], ?_⟩
      intro past a next rest he p hop
      cases past with
      | cons r₁ past =>
        rw [List.cons_append, List.cons_append] at he
        exact hp past a next rest (List.cons.inj he).2 p hop
      | nil =>
        obtain ⟨rfl, hnext⟩ := List.cons.inj he
        replace hnext : pre ++ [r] = next :: rest := hnext
        have hs : next.1 = s' := by
          have hhead : (pre ++ r :: post).head? = some next := by
            rw [← List.singleton_append, ← List.append_assoc, hnext]
            rfl
          exact hrest.head hhead
        rw [hs]
        exact hown p hop

theorem ownReady_of_mem (h : ⟨.sendClient ⟨msgReadyForQuery, p⟩, b⟩ ∈ tr)
    (hr : backendReads tr = []) : OwnReady tr p := by
  obtain ⟨pre, post, rfl⟩ := List.append_of_mem h
  refine ⟨pre, b, post, rfl, ?_⟩
  rintro c pre' rfl
  simp [backendReads] at hr

end Answered

/-- As long as all rounds are orderly, the client gets one ReadyForQuery for each Query and each
Sync, and those of the proxy tell whether the session is in a transaction. -/
theorem ready_discipline [External] (dbName : Bytes) (session : Session) (multiplex : Bool)
    (rs : List (Relay × Trace Ans)) (t : Trace Ans) (h : RelayRun dbName session multiplex rs t)
    (pre post : List (Relay × Trace Ans)) (r : Relay × Trace Ans) (hrs : rs = pre ++ r :: post)
    (hok : ∀ r ∈ pre, ReadyOrderly r.1 r.2) :
    readies (flat pre) = requests pre ∧
      ∀ past a next rest, pre ++ [r] = past ++ a :: next :: rest → ∀ p, OwnReady a.2 p →
        p = readyStatus next.1.session.inTransaction := by
  obtain ⟨st, hrounds, -⟩ := h
  exact rounds_answered hrounds hrs hok

theorem ready_discipline_rejected_insert : ∃ (_ : External) (pre : List (Relay × Trace Ans)),
    (∀ r ∈ pre, ReadyOrderly r.1 r.2) ∧ requests pre = 2 ∧ readies (flat pre) = 2 := by
  let _ := asciiExternal
  refine ⟨asciiExternal, ?_⟩
  obtain ⟨rs, t, h, hc⟩ := Script.play_run (n := 60)
    (s := readOnlyScript [queryMessage (ascii "INSERT INTO t VALUES (1)"),
      queryMessage (ascii "SELECT 1")])
    (f := fun rs _ => !rs.isEmpty && decide (∀ r ∈ rs.dropLast, ReadyOrderly r.1 r.2) &&
      decide (requests rs.dropLast = 2)) (by decide +kernel)
  simp only [Bool.and_eq_true, decide_eq_true_eq, Bool.not_eq_true',
    List.isEmpty_eq_false_iff] at hc
  obtain ⟨⟨hne, hok⟩, hreq⟩ := hc
  have hd := ready_discipline _ _ _ rs t h rs.dropLast [] (rs.getLast hne)
    (List.dropLast_append_getLast hne).symm hok
  exact ⟨rs.dropLast, hok, hreq, hd.1.trans hreq⟩

def Script.limitingAnswer [External] : Handler Ans Script := fun s o =>
  match o with
  | .allow _ => (false, s)
  | o => Script.answer s o

def idleReadies [External] (tr : Trace Ans) : List Bool :=
  answers (.sendClient ⟨msgReadyForQuery, readyStatus false⟩) tr

def readyForParse [External] : List (Relay × Trace Ans) → Bool
  | r :: _ :: _ => decide (received r.2 = some (parseMessage [] (ascii "SELECT 1"))) &&
    decide (readies (flat [r]) = 1) && decide (requests [r] = 0)
  | _ => false

def idleInTransaction [External] : List (Relay × Trace Ans) → Bool
  | _ :: r :: next :: _ => decide (true ∈ idleReadies r.2) && (backendReads r.2).isEmpty &&
    next.1.session.inTransaction
  | _ => false

/-- A Parse that the rate limit refuses is answered by a ReadyForQuery, and a write that is rejected
in a transaction by one that tells of no transaction. -/
theorem ready_out_of_step : ∃ (_ : External),
    (∃ (session : Session) (rs : List (Relay × Trace Ans)) (t : Trace Ans)
      (r next : Relay × Trace Ans) (post : List (Relay × Trace Ans)),
      RelayRun [] session false rs t ∧ rs = r :: next :: post ∧
        received r.2 = some (parseMessage [] (ascii "SELECT 1")) ∧
        readies (flat [r]) = 1 ∧ requests [r] = 0) ∧
    ∃ (session : Session) (rs : List (Relay × Trace Ans)) (t : Trace Ans)
      (begun r next : Relay × Trace Ans) (post : List (Relay × Trace Ans)),
      RelayRun [] session false rs t ∧ rs = begun :: r :: next :: post ∧
        OwnReady r.2 (readyStatus false) ∧ next.1.session.inTransaction = true := by
  let _ := asciiExternal
  refine ⟨asciiExternal, ?_, ?_⟩
  · obtain ⟨session, rs, t, h, hc⟩ := Script.playWith_check (n := 60)
      (s := Script.simple [parseMessage [] (ascii "SELECT 1")] [])
      (f := fun rs _ => readyForParse rs)
      (show (Script.playWith Script.limitingAnswer _ _).any _ = true by decide +kernel)
    obtain _ | ⟨r, _ | ⟨next, post⟩⟩ := rs
    · cases hc
    · cases hc
    · simp only [readyForParse, Bool.and_eq_true, decide_eq_true_eq] at hc
      obtain ⟨⟨hm, hn⟩, hreq⟩ := hc
      exact ⟨session, _, t, r, next, post, h, rfl, hm, hn, hreq⟩
  · obtain ⟨session, rs, t, h, hc⟩ := Script.play_check (n := 60)
      (s := readOnlyScript [queryMessage (ascii "BEGIN"),
        queryMessage (ascii "INSERT INTO t VALUES (1)")])
      (f := fun rs _ => idleInTransaction rs) (by decide +kernel)
    obtain _ | ⟨begun, _ | ⟨r, _ | ⟨next, post⟩⟩⟩ := rs
    · cases hc
    · cases hc
    · cases hc
    · simp only [idleInTransaction, Bool.and_eq_true, decide_eq_true_eq] at hc
      obtain ⟨⟨hr, hb⟩, htx⟩ := hc
      exact ⟨session, _, t, begun, r, next, post, h, rfl,
        ownReady_of_mem (mem_answers.mp hr) (List.isEmpty_iff.mp hb), htx⟩

end Pgmux
