import Pgmux.Script
import Pgmux.TxBound

namespace Pgmux

open Interaction

section Rejection

variable [External] {st st' : Relay} {tr t : Trace Ans}

def Refused (tr : Trace Ans) : Prop :=
  conn tr = [] ∧ ∃ text b,
    ⟨.sendClient ⟨msgErrorResponse, errorPayload (ascii "ERROR") none text⟩, b⟩ ∈ tr

structure SameBinding (st st' : Relay) : Prop where
  session : st'.session = st.session
  boundWriter : st'.boundWriter = st.boundWriter
  boundReader : st'.boundReader = st.boundReader

/-- Routing the query leaves the session as it is: the transaction flag stays, and no write is
noted, or one at this very time. -/
def Session.keeps (s : Session) (now : Nat) (text : Bytes) : Prop :=
  routedTx s.inTransaction text = s.inTransaction ∧
    (s.causalConsistency = false → s.marks (.query text) = true → s.lastWriteTime = some now)

instance (s : Session) (now : Nat) (text : Bytes) : Decidable (s.keeps now text) :=
  inferInstanceAs (Decidable (_ ∧ _))

theorem routeByType_eq_self {s : Session} : (s.routeByType now text).2 = s ↔
    (s.causalConsistency = false → s.classify text = .write → s.lastWriteTime = some now) := by
  unfold Session.routeByType
  cases s.classify text with
  | read =>
    dsimp only
    split
    · simp
    · split <;> simp
  | write =>
    dsimp only
    split
    · rename_i hc
      simp [hc]
    · rename_i hc
      rw [Bool.not_eq_true] at hc
      constructor
      · intro h _ _
        exact (congrArg Session.lastWriteTime h).symm
      · intro h
        rw [← h hc rfl]

theorem routeQueryLocked_eq_self {s : Session} :
    (s.routeQueryLocked now text).2 = s ↔ s.keeps now text := by
  by_cases htx : routedTx s.inTransaction text = s.inTransaction
  · have hs : { s with inTransaction := routedTx s.inTransaction text } = s := by rw [htx]
    cases h : s.routesByType text with
    | true =>
      rw [routeQueryLocked_byType h, hs, routeByType_eq_self]
      simp [Session.keeps, htx, Session.marks, h]
    | false =>
      rw [routeQueryLocked_fixed h, hs]
      simp [Session.keeps, htx, Session.marks, h]
  · constructor
    · intro h
      have := congrArg Session.inTransaction h
      rw [routeQueryLocked_inTransaction] at this
      exact (htx this).elim
    · intro h
      exact (htx h.1).elim

def Relay.pinsAnew (st : Relay) (cfg : Config) (text : Bytes) (pq : Option PgQuery.Tree) : Bool :=
  (guardCheck cfg text pq).isSome && cfg.compatMode = .pin && !st.session.pinned

theorem guardedQuery_session (h : st.pinsAnew cfg text pq = false) :
    (st.guardedQuery cfg text pq).session = st.session := by
  unfold Relay.guardedQuery
  split
  · rename_i hg hm
    simp only [Relay.pinsAnew, hg, hm, Option.isSome_some, decide_true, Bool.true_and,
      Bool.not_eq_false'] at h
    simp [Relay.pin, Session.pin, h]
  · rfl

theorem guardedQuery_pinned (h : st.pinsAnew cfg text pq) :
    (st.guardedQuery cfg text pq).session.pinned = true ∧ st.session.pinned = false := by
  simp only [Relay.pinsAnew, Bool.and_eq_true, Bool.not_eq_true', decide_eq_true_eq] at h
  obtain ⟨⟨hg, hm⟩, hp⟩ := h
  obtain ⟨feature, hf⟩ := Option.isSome_iff_exists.mp hg
  refine ⟨?_, hp⟩
  simp [Relay.guardedQuery, hf, hm, Relay.pin, Session.pin, hp]

def InertRejection (st : Relay) (tr : Trace Ans) : Prop :=
  ∀ msg ∈ received tr, msg.type = msgQuery → true ∈ answers .inReadOnly tr →
    ∀ cfg ∈ (configsSeen tr).head?, ∀ rules ∈ rulesSeen tr, ∀ now ∈ timesSeen tr,
      (∃ cfg' ∈ configsSeen tr, classifyBy cfg'.astParser (checkedText rules msg) = .write) →
      st.pinsAnew cfg (checkedText rules msg) (sharedTree cfg rules msg) = false ∧
        st.session.keeps now (checkedText rules msg)

instance (st : Relay) (tr : Trace Ans) : Decidable (InertRejection st tr) :=
  inferInstanceAs (Decidable (∀ _ ∈ received tr, _))

theorem InertRejection.of_unasked (h : answers .inReadOnly tr = []) : InertRejection st tr := by
  intro msg _ _ hr
  simp [h] at hr

theorem rejected_same_iff : SameBinding st ((st.guardedQuery cfg text pq).routed now text) ↔
    st.pinsAnew cfg text pq = false ∧ st.session.keeps now text := by
  obtain ⟨hw, hr, -⟩ := guardedQuery_bound st cfg text pq
  cases hp : st.pinsAnew cfg text pq with
  | true =>
    constructor
    · intro h
      have hpin := congrArg Session.pinned h.session
      obtain ⟨h₁, h₂⟩ := guardedQuery_pinned hp
      change ((st.guardedQuery cfg text pq).session.routeQueryLocked now text).2.pinned = _ at hpin
      rw [routeQueryLocked_keeps_pin, h₁, h₂] at hpin
      cases hpin
    · intro h
      cases h.1
  | false =>
    rw [← routeQueryLocked_eq_self, ← guardedQuery_session hp]
    constructor
    · intro h
      refine ⟨rfl, ?_⟩
      rw [guardedQuery_session hp]
      have hs := h.session
      change ((st.guardedQuery cfg text pq).session.routeQueryLocked now text).2 = _ at hs
      rwa [guardedQuery_session hp] at hs
    · intro h
      exact ⟨h.2.trans (guardedQuery_session hp), hw, hr⟩

theorem inertRejection_rejected (h₁ : Runs rateLimited t₁ none)
    (h₂ : Runs (routedType route (checkedText rules msg) (sharedTree cfg rules msg)) t₂ .write)
    (h₃ : Runs (reject text) t₃ ()) (hq : msg.type = msgQuery) :
    InertRejection st (⟨.ctxDone, b⟩ :: ⟨.readClient, .message msg⟩ :: ⟨.inMaintenance, m⟩ ::
      (t₁ ++ ([⟨.config, cfg⟩, ⟨.rewriter, rules⟩] ++
        ⟨.now, now⟩ :: (t₂ ++ ⟨.inReadOnly, true⟩ :: t₃)))) ↔
      st.pinsAnew cfg (checkedText rules msg) (sharedTree cfg rules msg) = false ∧
        st.session.keeps now (checkedText rules msg) := by
  have hcfg : ∀ tail, (configsSeen (⟨.ctxDone, b⟩ :: ⟨.readClient, .message msg⟩ ::
      ⟨.inMaintenance, m⟩ :: (t₁ ++ ([⟨.config, cfg⟩, ⟨.rewriter, rules⟩] ++ tail)))).head? =
        some cfg := by
    intro tail
    simp [configsSeen, answers_append, answers_cons_ne, answers_cons_self,
      rateLimited_ops.answers_eq_nil h₁]
  constructor
  · intro h
    refine h msg rfl hq ?_ cfg (hcfg _) rules ?_ now ?_ ?_
    · exact mem_answers.mpr (by simp)
    · exact mem_answers.mpr (by simp)
    · exact mem_answers.mpr (by simp)
    · obtain ⟨cfg', hc, he⟩ := routedType_write h₂ fun _ => preParse_tree
      exact ⟨cfg', mem_answers.mpr (by simp [mem_answers.mp hc]), he⟩
  · intro h msg' hm _ _ cfg' hc' rules' hr' now' hn' _
    cases hm
    rw [hcfg] at hc'
    cases hc'
    have hr : rules' = rules := by
      simpa [rulesSeen, answers_append, answers_cons_ne, answers_cons_self,
        rateLimited_ops.answers_eq_nil h₁, reject_ops.answers_eq_nil h₃,
        routedType_ops.answers_eq_nil h₂] using hr'
    have hn : now' = now := by
      simpa [timesSeen, answers_append, answers_cons_ne, answers_cons_self,
        rateLimited_ops.answers_eq_nil h₁, reject_ops.answers_eq_nil h₃,
        routedType_ops.answers_eq_nil h₂] using hn'
    rw [hr, hn]
    exact h

/-- A query that the proxy refuses leaves the session as it is exactly when its rejection is
inert. -/
theorem refused_same_iff (h : Runs (relayStep st) tr (.inl st')) (hm : received tr = some msg)
    (hq : msg.type = msgQuery) (hr : Refused tr) : SameBinding st st' ↔ InertRejection st tr := by
  obtain ⟨b, msg', m, t, rfl, hh⟩ := relayStep_handled h
  cases hm
  have hsame : ∀ t : Trace Ans, answers .inReadOnly t = [] → (SameBinding st st ↔
      InertRejection st (⟨.ctxDone, b⟩ :: ⟨.readClient, .message msg⟩ ::
        ⟨.inMaintenance, m⟩ :: t)) := by
    intro t ht
    refine ⟨fun _ => .of_unasked ?_, fun _ => ⟨rfl, rfl, rfl⟩⟩
    simp [answers_cons_ne, ht]
  obtain ⟨hc, text, sent, he⟩ := hr
  cases hh with
  | limited h₁ h₂ hst =>
    subst hst
    apply hsame
    simp [answers_append, rateLimited_ops.answers_eq_nil h₁, reject_ops.answers_eq_nil h₂]
  | extended _ hn => exact (hn hq).elim
  | query h₁ _ h₂ =>
    obtain ⟨cfg, rules, t, rfl, hs⟩ := handleQuery_cases h₂
    split at hs
    · obtain ⟨hrej, hst⟩ := hs
      cases hst
      apply hsame
      simp [answers_append, answers_cons_ne, rateLimited_ops.answers_eq_nil h₁,
        reject_ops.answers_eq_nil hrej]
    · obtain ⟨now, t₁, qtype, ro, t₂, rfl, h₃, h₄⟩ := routeQuery_cases hs
      cases h₄ with
      | rejected hro hqt hrej hst =>
        subst hro hqt
        cases hst
        rw [rejected_same_iff, inertRejection_rejected h₁ h₃ hrej hq]
      | write _ _ hw =>
        refine (onWriter_conn hw ?_).elim
        simp only [conn_cons, conn_append, Op.onConn, Bool.false_eq_true, if_false,
          List.append_eq_nil_iff] at hc
        exact hc.2.2.2
      | read _ hread _ =>
        simp only [conn_cons, conn_append, Op.onConn, Bool.false_eq_true, if_false,
          List.append_eq_nil_iff] at hc
        have hnone := handleReadQueryTraced_cached hread hc.2.2.2 _ sent
        simp [hnone, rateLimited_foot.unsent rfl h₁, routedType_foot.unsent rfl h₃] at he

theorem relayStep_txBound (h : Runs (relayStep st) tr (.inl st')) (hb : TxBound st)
    (hin : InertRejection st tr) : TxBound st' := by
  obtain ⟨b, msg, m, t, rfl, hh⟩ := relayStep_handled h
  cases hh with
  | limited _ _ hst => rwa [hst]
  | query h₁ hq h₂ =>
    rename_i t₁ t₂
    have hsub : ∀ o : Op, answers o t₂ ⊆ answers o (⟨.ctxDone, b⟩ ::
        ⟨.readClient, .message msg⟩ :: ⟨.inMaintenance, m⟩ :: (t₁ ++ t₂) : Trace Ans) :=
      fun o => answers_subset fun e he => by simp [he]
    apply handleQuery_txBound h₂ hb
    intro hro rules hrules now hnow ⟨cfg, hc, hw⟩
    have hhead := List.head?_eq_some_head (List.ne_nil_of_mem (hsub _ hc))
    exact (hin msg rfl hq (hsub _ hro) _ hhead rules (hsub _ hrules) now (hsub _ hnow)
      ⟨cfg, hsub _ hc, hw⟩).2.1
  | extended h₁ hq h₂ =>
    rename_i t₁ t₂
    have hpre : conn (⟨.ctxDone, b⟩ :: ⟨.readClient, .message msg⟩ :: ⟨.inMaintenance, m⟩ ::
        t₁ : Trace Ans) = [] := by
      simp [conn_cons, Op.onConn, (rateLimited_foot.quiet rfl).conn h₁]
    have hs := handleExtended_step h₂ (configured_all _) hq rfl hpre
    generalize hr : (Sum.inl st' : Flow) = r at hs
    cases hs with
    | idle =>
      rw [(proceed_inl hr.symm).2]
      exact hb
    | query hm ht =>
      cases hm
      exact (hq ht).elim
    | parse _ _ _ _ hp =>
      subst hr
      exact hp.txBound hb
    | bind _ _ _ hp =>
      subst hr
      exact hp.txBound hb
    | close _ _ _ hn =>
      subst hr
      rename_i msg' _ _ _
      rw [hn.inl]
      obtain ⟨hs, hw⟩ := buffer_tx (st.closeStatement msg'.payload) msg'
      obtain ⟨hs', hw'⟩ := closeStatement_tx st msg'.payload
      exact hb.of_same ((congrArg Session.inTransaction hs).trans hs') (hw.trans hw')
    | describe =>
      rw [(proceed_inl hr.symm).2]
      exact hb
    | buffered =>
      cases hr
      exact hb.of_same rfl rfl
    | sync _ _ hs =>
      subst hr
      exact hs.txBound hb

/-- A rejection is atomic exactly when it is inert, and in a run of inert rejections a session in a
transaction has its writer at every round. -/
theorem rejection_atomic :
    (∀ (st : Relay) (tr : Trace Ans) (st' : Relay) (msg : Message),
      Runs (relayStep st) tr (.inl st') → received tr = some msg → msg.type = msgQuery →
      Refused tr → (SameBinding st st' ↔ InertRejection st tr)) ∧
    ∀ (dbName : Bytes) (delay : Int) (causal ast multiplex : Bool)
      (rs : List (Relay × Trace Ans)) (t : Trace Ans),
      RelayRun dbName (Session.new delay causal ast) multiplex rs t →
      (∀ r ∈ rs, InertRejection r.1 r.2) →
      ∀ r ∈ rs, r.1.session.inTransaction = true → r.1.boundWriter.isSome = true := by
  refine ⟨fun st tr st' msg h hm hq hr => refused_same_iff h hm hq hr, ?_⟩
  intro dbName delay causal ast multiplex rs t ⟨st, hr, _⟩ hin r hmem
  obtain ⟨pre, post, hrs⟩ := List.append_of_mem hmem
  refine (hr.at_round (I := fun _ st => TxBound st) ?_ ?_ hrs).1
  · exact .of_idle rfl
  · intro past s t s' hm hI hrun
    exact relayStep_txBound hrun hI (hin _ hm)

end Rejection

def readOnlyErrors [External] (tr : Trace Ans) : List Bool :=
  answers (.sendClient ⟨msgErrorResponse, errorPayload (ascii "ERROR") none readOnlyText⟩) tr

theorem rejection_atomic_in_transaction : ∃ (_ : External) (rs : List (Relay × Trace Ans)),
    (∀ r ∈ rs, InertRejection r.1 r.2) ∧
      ∃ r ∈ rs, r.1.session.inTransaction = true ∧ Refused r.2 ∧ r.1.boundWriter.isSome = true := by
  let _ := asciiExternal
  refine ⟨asciiExternal, ?_⟩
  obtain ⟨rs, t, h, hc⟩ := Script.play_run (n := 60)
    (s := readOnlyScript [queryMessage (ascii "BEGIN"),
      queryMessage (ascii "INSERT INTO t VALUES (1)")])
    (f := fun rs _ => decide (∀ r ∈ rs, InertRejection r.1 r.2) &&
      decide (∃ r ∈ rs, r.1.session.inTransaction = true ∧ (conn r.2).isEmpty = true ∧
        true ∈ readOnlyErrors r.2)) (by decide +kernel)
  simp only [Bool.and_eq_true, decide_eq_true_eq] at hc
  obtain ⟨hin, r, hmem, htx, hconn, hsent⟩ := hc
  exact ⟨rs, hin, r, hmem, htx, ⟨List.isEmpty_iff.mp hconn, _, _, mem_answers.mp hsent⟩,
    rejection_atomic.2 _ _ _ _ _ rs t h hin r hmem htx⟩

/-- A transaction that is rejected in read-only mode is open for the session, on no connection. -/
theorem rejected_begin_stays_open : ∃ (_ : External) (tr : Trace Ans) (st' : Relay),
    Runs (relayStep (Relay.init [] (Session.new 0 false false) false)) tr (.inl st') ∧
      received tr = some (queryMessage (ascii "BEGIN; INSERT INTO t VALUES (1)")) ∧ Refused tr ∧
      st'.session.inTransaction = true ∧ st'.boundWriter = none ∧
      ¬ SameBinding (Relay.init [] (Session.new 0 false false) false) st' := by
  let _ := asciiExternal
  refine ⟨asciiExternal, ?_⟩
  obtain ⟨r, tr, h, hc⟩ := Script.run_check (n := 60)
    (s := readOnlyScript [queryMessage (ascii "BEGIN; INSERT INTO t VALUES (1)")])
    (p := relayStep (Relay.init [] (Session.new 0 false false) false))
    (f := fun (r : Flow) tr => r.isLeft && r.elim
      (fun st => st.session.inTransaction && st.boundWriter.isNone) (fun _ => false) &&
      decide (received tr = some (queryMessage (ascii "BEGIN; INSERT INTO t VALUES (1)"))) &&
      (conn tr).isEmpty && decide (true ∈ readOnlyErrors tr)) (by decide +kernel)
  cases r with
  | inr st => simp at hc
  | inl st' =>
    simp only [Sum.isLeft_inl, Bool.true_and, Sum.elim_inl, Bool.and_eq_true, decide_eq_true_eq,
      Option.isNone_iff_eq_none] at hc
    obtain ⟨⟨⟨⟨htx, hb⟩, hm⟩, hconn⟩, hsent⟩ := hc
    refine ⟨tr, st', h, hm, ⟨List.isEmpty_iff.mp hconn, _, _, mem_answers.mp hsent⟩, htx, hb, ?_⟩
    intro hs
    rw [hs.session] at htx
    cases htx

end Pgmux
