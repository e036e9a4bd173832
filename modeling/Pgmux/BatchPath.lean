import Pgmux.WritePath

namespace Pgmux

open Interaction

section BatchPath

variable [External]

theorem executeSynthesizedQuery_cases (h : Runs (executeSynthesizedQuery st query) tr r)
    (hR : Configured R tr) :
    (st.readsBatch ∧
      ∃ ok, Visits R false [queryMessage query] (conn tr) ∧ r = proceed ok st) ∨
      (st.readsBatch = false ∧
        WriterPath R False st [queryMessage query] finishSynthesized (conn tr) r) := by
  unfold executeSynthesizedQuery at h
  cases hread : st.readsBatch with
  | true =>
    simp only [hread, if_true, runs_perform_bind] at h
    obtain ⟨addr, t, h, rfl⟩ := h
    obtain ⟨t₁, ok, t₂, rfl, h₁, h⟩ := h.of_seq
    obtain ⟨rfl, rfl⟩ := runs_pure.mp h
    have hv := handleSynthesizedRead_visits h₁ hR.tail.left
    exact .inl ⟨rfl, ok, by simpa [conn_cons, Op.onConn] using hv, rfl⟩
  | false =>
    simp only [hread, Bool.false_eq_true, if_false] at h
    exact .inr ⟨rfl, onWriter_path h (fun _ _ _ hx _ => forwardFor_conn hx) hR⟩

theorem exchangeBatch_exchange (h : Runs (exchangeBatch st msg addr c) tr ok) :
    Exchange c (st.extBuf ++ [msg]) (conn tr) ok := by
  unfold exchangeBatch at h
  rw [runs_perform_bind] at h
  obtain ⟨_, t, h, rfl⟩ := h
  rw [runs_bind] at h
  obtain ⟨t₁, ok', t₂, h₁, h, rfl⟩ := h
  rw [runs_perform_bind] at h
  obtain ⟨_, t, h, rfl⟩ := h
  obtain ⟨rfl, rfl⟩ := runs_pure.mp h
  simpa [conn_cons, Op.onConn] using forwardAndRelay_exchange h₁

inductive ReaderPath (R : Bytes → Prop) (st : Relay) (ms : List Message) :
    Trace Ans → Flow → Prop
  | kept : st.boundReader = some r → Exchange r.conn ms t true → st.extHasExecute = false →
      ReaderPath R st ms t (.inl st)
  | released : st.boundReader = some r → Exchange r.conn ms t true → st.extHasExecute = true →
      ReaderPath R st ms (t ++ [⟨.release (some r.pool) r.conn, ()⟩])
        (.inl { st with boundReader := none })
  | broken : st.boundReader = some r → Exchange r.conn ms t false →
      ReaderPath R st ms (t ++ [⟨.discard (some r.pool) r.conn, ()⟩])
        (.inr { st with boundReader := none })
  | bound : st.boundReader = none → st.extHasExecute = false → Visits R false ms t₀ →
      Exchange c ms t true →
      ReaderPath R st ms (t₀ ++ (⟨.acquire p, some c⟩ :: t))
        (.inl { st with boundReader := some ⟨c, p, addr⟩ })
  | visits : st.boundReader = none → Visits R false ms t → ReaderPath R st ms t (proceed b st)

def Leased (R : Bytes → Prop) (ms : List Message) (t : Trace Ans) : Option ReaderLease → Prop
  | none => Visits R false ms t
  | some l => ∃ t', Visits R false ms t' ∧ t = t' ++ [⟨.acquire l.pool, some l.conn⟩]

theorem Leased.cons (hv : Visits R false ms t₁) (h : Leased R ms t₂ x) :
    Leased R ms (t₁ ++ t₂) x := by
  cases x with
  | none => exact hv.append h
  | some l =>
    obtain ⟨t', h, rfl⟩ := h
    exact ⟨t₁ ++ t', hv.append h, (List.append_assoc ..).symm⟩

theorem acquireReader_leased (h : Runs (acquireReader addr) tr x) :
    Leased R ms (conn tr) x := by
  cases addr with
  | none =>
    obtain ⟨rfl, rfl⟩ := runs_pure.mp h
    exact Visits.nil
  | some addr =>
    unfold acquireReader at h
    dsimp only at h
    rw [runs_perform_bind] at h
    obtain ⟨allowed, t, h, rfl⟩ := h
    change Leased R ms (conn t) x
    cases allowed with
    | false =>
      obtain ⟨rfl, rfl⟩ := runs_pure.mp h
      exact Visits.nil
    | true =>
      simp only [if_true, runs_perform_bind] at h
      obtain ⟨pool, t, h, rfl⟩ := h
      change Leased R ms (conn t) x
      cases pool with
      | none =>
        obtain ⟨rfl, rfl⟩ := runs_pure.mp h
        exact Visits.nil
      | some p =>
        dsimp only at h
        rw [runs_perform_bind] at h
        obtain ⟨c, t, h, rfl⟩ := h
        cases c with
        | some c =>
          obtain ⟨rfl, rfl⟩ := runs_pure.mp h
          exact ⟨[], .nil, rfl⟩
        | none =>
          obtain ⟨_, h₁, rfl⟩ := h.of_map
          have hv : Leased R ms [⟨.acquire p, none⟩] none := Visit.refused.visits
          simpa [conn_cons, Op.onConn, (failReader_foot.quiet rfl).conn h₁] using hv

theorem acquireReaderForBind_leased (h : Runs (acquireReaderForBind addr) tr x) :
    Leased R ms (conn tr) x := by
  unfold acquireReaderForBind at h
  rw [runs_bind] at h
  obtain ⟨t₁, found, t₂, h₁, h, rfl⟩ := h
  have hl : Leased R ms (conn t₁) found := acquireReader_leased h₁
  rw [conn_append]
  cases found with
  | some lease =>
    obtain ⟨rfl, rfl⟩ := runs_pure.mp h
    simpa using hl
  | none =>
    simp only [runs_perform_bind] at h
    obtain ⟨p, t, ⟨c, t, h, rfl⟩, rfl⟩ := h
    have hlook : Visits R false ms [⟨.writerPool, p⟩] := Visit.look.visits
    refine .cons hl (.cons hlook ?_)
    cases c with
    | some c =>
      dsimp only at h
      rw [runs_perform_bind] at h
      obtain ⟨a, t, h, rfl⟩ := h
      obtain ⟨rfl, rfl⟩ := runs_pure.mp h
      exact ⟨[], .nil, rfl⟩
    | none =>
      obtain ⟨rfl, rfl⟩ := runs_pure.mp h
      exact Visit.refused.visits

theorem ReaderPath.refused (hb : st.boundReader = none) (hv : Visits R false ms t) :
    ReaderPath R st ms t (.inr st) := .visits (b := false) hb hv

theorem readBatch_path (h : Runs (readBatch st msg) tr r) (hR : Configured R tr) :
    ReaderPath R st (st.extBuf ++ [msg]) (conn tr) r := by
  unfold readBatch at h
  cases hb : st.boundReader with
  | some l =>
    rw [hb] at h
    dsimp only at h
    rw [runs_bind] at h
    obtain ⟨t₁, ok, t₂, h₁, h, rfl⟩ := h
    have hx := exchangeBatch_exchange h₁
    cases ok with
    | true =>
      simp only [if_true] at h
      split at h
      · rename_i he
        rw [runs_bind] at h
        obtain ⟨t₃, alive, t₄, h₃, h, rfl⟩ := h
        obtain ⟨rfl, rfl⟩ := runs_pure.mp h
        simpa [(releaseToPool_conn h₃).1] using ReaderPath.released hb hx he
      · rename_i he
        obtain ⟨rfl, rfl⟩ := runs_pure.mp h
        simpa using ReaderPath.kept hb hx (by simpa using he)
    | false =>
      simp only [Bool.false_eq_true, if_false] at h
      rw [runs_bind] at h
      obtain ⟨t₃, alive, t₄, h₃, h, rfl⟩ := h
      obtain ⟨rfl, rfl⟩ := runs_pure.mp h
      simpa [(discardToPool_conn h₃).1] using ReaderPath.broken hb hx
  | none =>
    rw [hb] at h
    dsimp only at h
    rw [runs_perform_bind] at h
    obtain ⟨addr, t, h, rfl⟩ := h
    change ReaderPath R st _ (conn t) r
    split at h
    · rename_i he
      rw [runs_bind] at h
      obtain ⟨t₁, x, t₂, h₁, h, rfl⟩ := h
      rw [conn_append]
      have hl : Leased R (st.extBuf ++ [msg]) (conn t₁) x := acquireReaderForBind_leased h₁
      cases x with
      | none =>
        dsimp only at h
        rw [runs_bind] at h
        obtain ⟨t₃, _, t₄, h₃, h, rfl⟩ := h
        obtain ⟨rfl, rfl⟩ := runs_pure.mp h
        rw [conn_append, (sendError_foot.quiet rfl).conn h₃, conn_nil, List.append_nil,
          List.append_nil]
        exact .refused hb hl
      | some l =>
        obtain ⟨t', hv, ht⟩ := hl
        dsimp only at h
        rw [runs_bind] at h
        obtain ⟨t₃, ok, t₄, h₃, h, rfl⟩ := h
        have hx := exchangeBatch_exchange h₃
        simp only [Bool.and_eq_true, Bool.not_eq_true'] at he
        cases ok with
        | true =>
          obtain ⟨rfl, rfl⟩ := runs_pure.mp h
          simpa [ht] using ReaderPath.bound hb he.1 hv hx
        | false =>
          simp only [Bool.false_eq_true, if_false] at h
          rw [runs_bind] at h
          obtain ⟨t₅, alive, t₆, h₅, h, rfl⟩ := h
          obtain ⟨rfl, rfl⟩ := runs_pure.mp h
          have hv' := hv.append (Visit.failed hx (p := l.pool)).visits
          simpa [ht, (discardToPool_conn h₅).1] using ReaderPath.refused hb hv'
    · rw [runs_bind] at h
      obtain ⟨t₁, ok, t₂, h₁, h, rfl⟩ := h
      obtain ⟨rfl, rfl⟩ := runs_pure.mp h
      have hv := handleExtendedRead_visits h₁ hR.tail.left
      simpa using ReaderPath.visits hb hv

theorem relayDescription_within {P : Op → Prop} (hP : RelayOps P c) :
    Within P (relayDescription c) := by
  refine .iterate (fun _ => .bind (within_perform hP.read) fun r => ?_) ()
  cases accepted r with
  | some m =>
    refine .ite (within_pure _) (.ite (within_pure _) ?_)
    exact .bind (within_perform (hP.send m)) fun _ => .ite (within_pure _) (within_pure _)
  | none => exact within_pure _

theorem relayDescription_relayed (h : Runs (relayDescription c) tr ok) :
    Relayed c (conn tr) ok := by
  refine ⟨Within.reads (relayDescription_within (relayOps_readsOnly c)) h, ?_⟩
  rintro rfl
  obtain ⟨_, t, t', -, hb, rfl⟩ :=
    h.of_iterate (I := fun _ _ => True) trivial fun _ _ _ _ _ _ => trivial
  rw [runs_perform_bind] at hb
  obtain ⟨x, t'', hb, rfl⟩ := hb
  rcases accepted_cases x with hx | ⟨m, rfl, hx⟩ <;> rw [hx] at hb
  · simp at hb
  · dsimp only at hb
    split at hb
    · simp at hb
    · split at hb
      · rename_i hm
        obtain ⟨rfl, -⟩ := runs_pure.mp hb
        exact ⟨conn t, m, by simp [conn_cons, Op.onConn], hm⟩
      · rw [runs_perform_bind] at hb
        obtain ⟨sent, t₁, hb, rfl⟩ := hb
        cases sent <;> simp at hb

theorem exchangeDescribe_exchange (h : Runs (exchangeDescribe c query) tr ok) :
    Exchange c (describeBatch query) (conn tr) ok := by
  obtain ⟨t₁, sent, t₂, h₁, h₂, rfl⟩ := h.of_bind
  have hs := forwardAll_sent h₁
  rw [conn_append]
  cases sent with
  | true => exact .sent hs (relayDescription_relayed h₂)
  | false =>
    obtain ⟨rfl, rfl⟩ := runs_pure.mp h₂
    simpa using Exchange.unsent hs

theorem handleMultiplexDescribe_visits (h : Runs (handleMultiplexDescribe synth msg) tr ok)
    (hR : Configured R tr) :
    conn tr = [] ∨ ∃ stmt, describeTarget synth msg.payload = .ok stmt ∧
      Visits R true (describeBatch stmt.query) (conn tr) := by
  unfold handleMultiplexDescribe at h
  cases hd : describeTarget synth msg.payload with
  | error text =>
    rw [hd] at h
    obtain ⟨t₁, _, t₂, rfl, h₁, h⟩ := h.of_seq
    obtain ⟨rfl, rfl⟩ := runs_pure.mp h
    exact .inl (by simp [(sendError_foot.quiet rfl).conn h₁])
  | ok stmt =>
    rw [hd] at h
    refine .inr ⟨stmt, rfl, ?_⟩
    simp only [runs_perform_bind] at h
    obtain ⟨p, t, ⟨c, t, h, rfl⟩, rfl⟩ := h
    change Visits R true (describeBatch stmt.query)
      ([⟨.writerPool, p⟩] ++ conn (⟨.acquire p, c⟩ :: t))
    refine .cons .look (Visit.visits ?_)
    cases c with
    | none =>
      obtain ⟨t₁, _, t₂, rfl, h₁, h⟩ := h.of_seq
      obtain ⟨rfl, rfl⟩ := runs_pure.mp h
      simpa [conn_cons, Op.onConn, (sendError_foot.quiet rfl).conn h₁] using Visit.refused
    | some c =>
      obtain ⟨t₁, ok', t₂, rfl, h₁, h⟩ := h.of_seq
      have hx := exchangeDescribe_exchange h₁
      cases ok' with
      | true =>
        simp only [if_true] at h
        obtain ⟨t₃, alive, t₄, rfl, h₃, h⟩ := h.of_seq
        obtain ⟨rfl, rfl⟩ := runs_pure.mp h
        have hc : Configured R t₃ := fun cfg hc => hR cfg (by simp [hc])
        have hb := (resetAndReleaseToPool_handedBack h₃ hc).1
        simpa [conn_cons, Op.onConn] using Visit.served hx hb (by simp)
      | false =>
        simp only [Bool.false_eq_true, if_false] at h
        obtain ⟨t₃, alive, t₄, rfl, h₃, h⟩ := h.of_seq
        obtain ⟨rfl, rfl⟩ := runs_pure.mp h
        simpa [conn_cons, Op.onConn, (discardToPool_conn h₃).1] using Visit.failed hx

inductive ReaderGone (R : Bytes → Prop) (st : Relay) : Trace Ans → Relay → Prop
  | absent : st.boundReader = none → ReaderGone R st [] st
  | released : st.boundReader = some l → HandedBack R l.conn (some l.pool) true t →
      ReaderGone R st t { st with boundReader := none }

theorem releaseReader_gone (h : Runs (releaseReader st) tr st') (hR : Configured R tr) :
    ReaderGone R st (conn tr) st' := by
  unfold releaseReader at h
  cases hb : st.boundReader with
  | none =>
    rw [hb] at h
    obtain ⟨rfl, rfl⟩ := runs_pure.mp h
    exact .absent hb
  | some l =>
    rw [hb] at h
    obtain ⟨t₁, alive, t₂, rfl, h₁, h⟩ := h.of_seq
    obtain ⟨rfl, rfl⟩ := runs_pure.mp h
    simpa using ReaderGone.released hb (resetAndReleaseToPool_handedBack h₁ hR.left).1

omit [External] in
theorem readsBatch_eq_false (st : Relay) : st.readsBatch = false ↔
    st.extRoute = .writer ∨ st.session.inTransaction ∨ st.boundWriter.isSome := by
  unfold Relay.readsBatch
  cases st.extRoute <;> cases st.session.inTransaction <;> cases st.boundWriter <;> simp

theorem releaseStaleReader_cases (h : Runs (releaseStaleReader st) tr st')
    (hR : Configured R tr) :
    (st.readsBatch ∧ conn tr = [] ∧ st' = st) ∨
      (st.readsBatch = false ∧ ReaderGone R st (conn tr) st') := by
  unfold releaseStaleReader at h
  split at h
  · rename_i hs
    exact .inr ⟨(readsBatch_eq_false st).mpr hs, releaseReader_gone h hR⟩
  · rename_i hs
    obtain ⟨rfl, rfl⟩ := runs_pure.mp h
    refine .inl ⟨?_, rfl, rfl⟩
    rwa [← readsBatch_eq_false, Bool.not_eq_false] at hs

def Unexecuted (R : Bytes → Prop) (st : Relay) (t : Trace Ans) (st' : Relay) : Prop :=
  (t = [] ∧ st' = st) ∨ ReaderGone R st t st'

def Unblocked (seen : Event → Prop) (st : Relay) : Prop :=
  st.extSessionBlocked = none ∧ ∃ b, seen ⟨.inReadOnly, b⟩ ∧ (b && st.extIsWrite) = false

inductive SyncStep (R : Bytes → Prop) (seen : Event → Prop) (st : Relay) (msg : Message) :
    Trace Ans → Flow → Prop
  | rejected : ReaderGone R st t st₁ → SyncStep R seen st msg t
      (.inl { st₁.clearBatch with extHasExecute := false, extSessionBlocked := none })
  | noBind : st.synth = some synth → st.muxBindDetail = none → Unexecuted R st t st₁ →
      SyncStep R seen st msg t (.inl st₁.endBatch)
  | synthFailed : st.synth = some synth → st.muxBindDetail = some detail →
      synth.synthesize detail.statementName detail.parameters detail.formatCodes = none →
      Unexecuted R st t st₁ → SyncStep R seen st msg t (.inl st₁.clearBatch)
  | synthRead : st.synth = some synth → st.muxBindDetail = some detail →
      synth.synthesize detail.statementName detail.parameters detail.formatCodes = some query →
      Unblocked seen st → st.readsBatch = true → Visits R false [queryMessage query] t →
      SyncStep R seen st msg t ((proceed ok st).map Relay.endBatch id)
  | synthWrite : st.synth = some synth → st.muxBindDetail = some detail →
      synth.synthesize detail.statementName detail.parameters detail.formatCodes = some query →
      Unblocked seen st → st.readsBatch = false → ReaderGone R st t₀ st₁ →
      WriterPath R False st₁ [queryMessage query] finishSynthesized t₁ flow →
      SyncStep R seen st msg (t₀ ++ t₁) (flow.map Relay.endBatch id)
  | batchRead : st.synth = none → Unblocked seen st → st.readsBatch = true →
      ReaderPath R st (st.extBuf ++ [msg]) t flow →
      SyncStep R seen st msg t (flow.map Relay.endBatch id)
  | batchWrite : st.synth = none → Unblocked seen st → st.readsBatch = false →
      ReaderGone R st t₀ st₁ →
      WriterPath R False st₁ (st.extBuf ++ [msg]) finishBatch t₁ flow →
      SyncStep R seen st msg (t₀ ++ t₁) (flow.map Relay.endBatch id)

theorem ReaderGone.same (h : ReaderGone R st t st₁) : st₁ = { st with boundReader := none } := by
  cases h with
  | absent hb => simp [← hb]
  | released => rfl

theorem ReaderGone.again (h₁ : ReaderGone R st t₁ st₁) (h₂ : ReaderGone R st₁ t₂ st₂) :
    ReaderGone R st (t₁ ++ t₂) st₂ := by
  have hn : st₁.boundReader = none := by rw [h₁.same]
  cases h₂ with
  | absent => simpa using h₁
  | released hb => simp [hn] at hb

theorem rejectBatch_cases (h : Runs (rejectBatch st text) tr st') (hR : Configured R tr) :
    ∃ st₁, ReaderGone R st (conn tr) st₁ ∧
      st' = { st₁.clearBatch with extHasExecute := false } := by
  unfold rejectBatch at h
  simp only [runs_bind] at h
  obtain ⟨t₁, _, _, h₁, ⟨t₂, _, _, h₂, ⟨t₃, st₁, _, h₃, h, rfl⟩, rfl⟩, rfl⟩ := h
  obtain ⟨rfl, rfl⟩ := runs_pure.mp h
  have hg := releaseReader_gone h₃ hR.right.right.left
  refine ⟨st₁, ?_, rfl⟩
  simpa [(sendError_foot.quiet rfl).conn h₁, (sendReadyForQuery_foot.quiet rfl).conn h₂] using hg

theorem Unexecuted.same (h : Unexecuted R st t st₁) :
    st₁ = { st with boundReader := st₁.boundReader } := by
  rcases h with ⟨-, rfl⟩ | hg
  · rfl
  · rw [hg.same]

theorem Unexecuted.gone (h : Unexecuted R st t st₁) (hg : ReaderGone R st₁ t' st₂) :
    ReaderGone R st (t ++ t') st₂ := by
  rcases h with ⟨rfl, rfl⟩ | h
  · exact hg
  · exact h.again hg

theorem executeSync_step (hs : st.readsBatch ∧ t₀ = [] ∧ st₁ = st ∨
      st.readsBatch = false ∧ ReaderGone R st t₀ st₁)
    (h : Runs (executeSync st₁ msg) tr r) (hR : Configured R tr) (hb : Unblocked seen st) :
    SyncStep R seen st msg (t₀ ++ conn tr) r := by
  have hu : Unexecuted R st t₀ st₁ := by
    rcases hs with ⟨-, h⟩ | ⟨-, h⟩
    · exact .inl h
    · exact .inr h
  have hsynth : st₁.synth = st.synth := by rw [hu.same]
  have hmux : st₁.muxBindDetail = st.muxBindDetail := by rw [hu.same]
  have hbuf : st₁.extBuf = st.extBuf := by rw [hu.same]
  have hreads : st₁.readsBatch = st.readsBatch := by rw [hu.same]; rfl
  cases executeSync_ways h with
  | multiplex hsy h₁ =>
    rw [hsynth] at hsy
    cases syncMultiplex_ways h₁ with
    | noBind hm h₂ =>
      rw [(sendReadyForQuery_foot.quiet rfl).conn h₂, List.append_nil]
      exact .noBind hsy (hmux ▸ hm) hu
    | failed hm hq h₂ h₃ =>
      rw [conn_append, (sendError_foot.quiet rfl).conn h₂,
        (sendReadyForQuery_foot.quiet rfl).conn h₃, List.append_nil, List.append_nil]
      exact .synthFailed hsy (hmux ▸ hm) hq hu
    | executed hm hq hx =>
      rcases hs with ⟨hr, rfl, rfl⟩ | ⟨hr, hg⟩
      · rcases executeSynthesizedQuery_cases hx hR with ⟨-, ok, hv, rfl⟩ | ⟨hr', -⟩
        · exact .synthRead hsy hm hq hb hr hv
        · simp [hr] at hr'
      · rcases executeSynthesizedQuery_cases hx hR with ⟨hr', -⟩ | ⟨-, hp⟩
        · simp [hreads, hr] at hr'
        · exact .synthWrite hsy (hmux ▸ hm) hq hb hr hg hp
  | read hsy hr' hx =>
    rcases hs with ⟨hr, rfl, rfl⟩ | ⟨hr, -⟩
    · exact .batchRead hsy hb hr (readBatch_path hx hR)
    · simp [hreads, hr] at hr'
  | write hsy hr' hx =>
    rcases hs with ⟨hr, -, rfl⟩ | ⟨hr, hg⟩
    · simp [hr] at hr'
    · exact .batchWrite (hsynth ▸ hsy) hb hr hg (hbuf ▸ writeBatch_path hx hR)

theorem handleSync_step (h : Runs (handleSync st msg) tr r) (hR : Configured R tr) :
    SyncStep R (· ∈ tr) st msg (conn tr) r := by
  have hunexecuted {t₀ st₁} (h₀ : Runs (releaseStaleReader st) t₀ st₁) (hR : Configured R t₀) :
      Unexecuted R st (conn t₀) st₁ := by
    rcases releaseStaleReader_cases h₀ hR with ⟨-, h⟩ | ⟨-, h⟩
    · exact .inl h
    · exact .inr h
  cases handleSync_ways h with
  | blocked h₀ _ h₁ =>
    obtain ⟨st₃, hg, rfl⟩ := rejectBatch_cases h₁ hR.right
    simpa using SyncStep.rejected ((hunexecuted h₀ hR.left).gone hg)
  | @readOnly t₀ t₁ _ st₁ h₀ hf _ h₁ =>
    obtain ⟨st₃, hg, rfl⟩ := rejectBatch_cases h₁ hR.right.tail
    have hst : st₃.extSessionBlocked = none := by rw [hg.same]; exact hf
    have he : ({ st₃.clearBatch with extHasExecute := false } : Relay) =
        { st₃.clearBatch with extHasExecute := false, extSessionBlocked := none } := by
      rw [← hst]
      rfl
    rw [he, conn_append]
    exact .rejected ((hunexecuted h₀ hR.left).gone hg)
  | @executed t₀ b t₁ _ st₁ h₀ hf hro h₁ =>
    have hu := hunexecuted h₀ hR.left
    have hblock : st₁.extSessionBlocked = st.extSessionBlocked := by rw [hu.same]
    have hwrite : st₁.extIsWrite = st.extIsWrite := by rw [hu.same]
    rw [conn_append]
    change SyncStep R _ st msg (conn t₀ ++ conn t₁) r
    exact executeSync_step (releaseStaleReader_cases h₀ hR.left) h₁ hR.right.tail
      ⟨hblock ▸ hf, b, by simp, hwrite ▸ hro⟩

end BatchPath

end Pgmux
