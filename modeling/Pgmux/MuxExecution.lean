import Pgmux.Delivery
import Pgmux.Hands
import Pgmux.Script

namespace Pgmux

open Interaction

section MuxExecution

variable [External] {st st' : Relay} {tr t : Trace Ans}

def bindOf (tr : Trace Ans) : Option BindMessageDetail :=
  (received tr).bind fun msg =>
    if msg.type = msgBind then parseBindMessageFull msg.payload else none

def executeOf (tr : Trace Ans) : Option Bytes :=
  (received tr).bind fun msg =>
    if msg.type = msgExecute then some (((cString msg.payload).map Prod.fst).getD []) else none

/-- The query that a Bind stands for, with the statements that are registered. -/
def Relay.bindQuery (st : Relay) (detail : BindMessageDetail) : Option Bytes :=
  st.synth.bind fun synth =>
    synth.synthesize detail.statementName detail.parameters detail.formatCodes

/-- What the Executes of the rounds ask for: the query of the Bind that created the portal, with the
statement that was registered at the time of the Bind. -/
def executedQueries (portals : Bytes → Option Bytes) :
    List (Relay × Trace Ans) → List (Option Bytes)
  | [] => []
  | r :: rs =>
    match bindOf r.2, executeOf r.2 with
    | some detail, _ =>
      executedQueries (Function.update portals detail.portal (r.1.bindQuery detail)) rs
    | none, some portal => portals portal :: executedQueries portals rs
    | none, none => executedQueries portals rs

def lastBind : List (Relay × Trace Ans) → Option BindMessageDetail
  | [] => none
  | r :: rs => (lastBind rs).or (bindOf r.2)

def BatchRound (tr : Trace Ans) : Prop :=
  false ∉ allowAnswers tr ∧ ∃ msg, received tr = some msg ∧
    (msg.type = msgParse ∨ msg.type = msgBind ∨ msg.type = msgExecute)

def SyncRound (st : Relay) (tr : Trace Ans) : Prop :=
  false ∉ allowAnswers tr ∧ (∃ msg, received tr = some msg ∧ msg.type = msgSync) ∧
    st.extSessionBlocked = none ∧ ∀ b ∈ readOnlySeen tr, (b && st.extIsWrite) = false

theorem relayStep_extended (h : Runs (relayStep st) tr (.inl st')) (hm : received tr = some msg)
    (hq : msg.type ≠ msgQuery) (ha : false ∉ allowAnswers tr) : ∃ b m t₁ t₂,
    tr = ⟨.ctxDone, b⟩ :: ⟨.readClient, .message msg⟩ :: ⟨.inMaintenance, m⟩ :: (t₁ ++ t₂) ∧
      Runs rateLimited t₁ none ∧ Runs (handleExtended st msg) t₂ (.inl st') := by
  obtain ⟨b, msg', m, t, rfl, hh⟩ := relayStep_handled h
  cases hm
  cases hh with
  | limited h₁ _ _ =>
    refine (ha (allowAnswers_subset ?_ (rateLimited_refused h₁))).elim
    intro e he
    simp [he]
  | query _ ht _ => exact (hq ht).elim
  | extended h₁ _ h₂ => exact ⟨b, m, _, _, rfl, h₁, h₂⟩

omit [External] in
theorem buffer_muxBindDetail (st : Relay) (msg : Message) :
    (st.buffer msg).muxBindDetail = st.muxBindDetail := by
  unfold Relay.buffer
  split <;> rfl

theorem relayStep_batchRound (h : Runs (relayStep st) tr (.inl st')) (hb : BatchRound tr)
    (hs : st.synth.isSome) :
    st'.muxBindDetail = (bindOf tr).or st.muxBindDetail ∧ conn tr = [] := by
  obtain ⟨ha, msg, hm, ht⟩ := hb
  have hq : msg.type ≠ msgQuery := by
    rcases ht with ht | ht | ht <;> rw [ht] <;> decide
  obtain ⟨b, m, t₁, t₂, rfl, h₁, h₂⟩ := relayStep_extended h hm hq ha
  have hconn : conn (⟨.ctxDone, b⟩ :: ⟨.readClient, .message msg⟩ :: ⟨.inMaintenance, m⟩ ::
      (t₁ ++ t₂) : Trace Ans) = conn t₂ := by
    simp [conn_cons, Op.onConn, (rateLimited_foot.quiet rfl).conn h₁]
  rw [hconn]
  have hbind : bindOf (⟨.ctxDone, b⟩ :: ⟨.readClient, .message msg⟩ :: ⟨.inMaintenance, m⟩ ::
      (t₁ ++ t₂) : Trace Ans) =
        if msg.type = msgBind then parseBindMessageFull msg.payload else none := rfl
  rw [hbind]
  unfold handleExtended at h₂
  rcases ht with ht | ht | ht
  · rw [if_pos ht] at h₂
    refine ⟨?_, (handleParse_foot.quiet rfl).conn h₂⟩
    rw [if_neg (by rw [ht]; decide), Option.none_or]
    obtain ⟨rules, now, t, -, cfg, st₁, -, hg, hn⟩ := handleParse_step h₂
    rw [hn.inl, buffer_muxBindDetail]
    rcases hg.guarded with rfl | ⟨_, rfl⟩ | ⟨_, rfl⟩ <;> rfl
  · rw [if_neg (by rw [ht]; decide), if_pos ht] at h₂
    refine ⟨?_, (handleBind_foot.quiet rfl).conn h₂⟩
    rw [if_pos ht]
    rcases handleBind_step h₂ with ⟨hy, -⟩ | ⟨-, he⟩ | ⟨detail, ok, -, hd, he⟩
    · rw [hy] at hs
      cases hs
    · cases he
    · rw [hd, (proceed_inl he.symm).2]
      rfl
  · rw [if_neg (by rw [ht]; decide), if_neg (by rw [ht]; decide), if_neg (by rw [ht]; decide),
      if_neg (by rw [ht]; decide), if_pos ht] at h₂
    unfold handleExecute at h₂
    rw [if_pos hs] at h₂
    obtain ⟨rfl, he⟩ := runs_pure.mp h₂
    cases he
    rw [if_neg (by rw [ht]; decide)]
    exact ⟨rfl, rfl⟩

theorem releaseStaleReader_unbound (h : Runs (releaseStaleReader st) tr st')
    (hr : st.boundReader = none) : tr = [] ∧ st' = st := by
  unfold releaseStaleReader releaseReader at h
  rw [hr] at h
  split at h <;> exact runs_pure.mp h

theorem noWrite_of_conn (h : conn tr = []) : ∀ e ∈ tr, noWrite e := by
  intro ⟨o, x⟩ he
  cases o with
  | write c m =>
    have hc : (⟨.write c m, x⟩ : Event) ∈ conn tr := List.mem_filter.mpr ⟨he, rfl⟩
    rw [h] at hc
    cases hc
  | _ => rfl

theorem syncMultiplex_answeredWrites (h : Runs (syncMultiplex st synth) tr (.inl st'))
    (hs : st.synth = some synth) :
    answeredWrites tr = (st.synthesized.map queryMessage).toList := by
  generalize hr : (.inl st' : Flow) = r at h
  cases syncMultiplex_ways h with
  | noBind hd h₁ =>
    rw [answeredWrites_eq_nil (noWrite_of_conn ((sendReadyForQuery_foot.quiet rfl).conn h₁))]
    simp [Relay.synthesized, hs, hd]
  | failed hd hq h₁ h₂ =>
    rw [answeredWrites_append (noWrite_of_conn ((sendError_foot.quiet rfl).conn h₁)),
      answeredWrites_eq_nil (noWrite_of_conn ((sendReadyForQuery_foot.quiet rfl).conn h₂))]
    simp [Relay.synthesized, hs, hd, hq]
  | executed hd hq h₁ =>
    obtain ⟨st₁, rfl, -⟩ := map_endBatch_inl hr.symm
    rw [(executeSynthesizedQuery_delivers h₁).answered]
    simp [Relay.synthesized, hs, hd, hq]

theorem relayStep_syncRound (h : Runs (relayStep st) tr (.inl st')) (hb : SyncRound st tr)
    (hs : st.synth.isSome) (hr : st.boundReader = none) :
    answeredWrites tr = (st.synthesized.map queryMessage).toList := by
  obtain ⟨ha, ⟨msg, hm, ht⟩, hblocked, hro⟩ := hb
  obtain ⟨b, m, t₁, t₂, rfl, h₁, h₂⟩ := relayStep_extended h hm (by rw [ht]; decide) ha
  obtain ⟨synth, hsynth⟩ := Option.isSome_iff_exists.mp hs
  have hskip := noWrite_of_conn ((rateLimited_foot.quiet rfl).conn h₁)
  rw [answeredWrites_skip rfl, answeredWrites_skip rfl, answeredWrites_skip rfl,
    answeredWrites_append hskip]
  rw [handleExtended_sync ht] at h₂
  generalize hf : (.inl st' : Flow) = r at h₂
  cases handleSync_ways h₂ with
  | blocked h₃ hblock =>
    obtain ⟨rfl, rfl⟩ := releaseStaleReader_unbound h₃ hr
    rw [hblocked] at hblock
    cases hblock
  | readOnly h₃ _ hw =>
    obtain ⟨rfl, rfl⟩ := releaseStaleReader_unbound h₃ hr
    have hok := hro true (mem_answers.mpr (by simp))
    rw [hw] at hok
    cases hok
  | executed h₃ _ _ h₄ =>
    obtain ⟨rfl, rfl⟩ := releaseStaleReader_unbound h₃ hr
    subst hf
    rw [executeSync, hsynth] at h₄
    rw [List.nil_append, answeredWrites_skip rfl]
    exact syncMultiplex_answeredWrites h₄ hsynth

theorem rounds_batch (h : Rounds relayStep st (batch ++ sync :: post) b)
    (hs : st.synth.isSome) (hr : st.boundReader = none)
    (hbatch : ∀ r ∈ batch, BatchRound r.2) :
    sync.1.muxBindDetail = (lastBind batch).or st.muxBindDetail ∧
      sync.1.synth.isSome ∧ sync.1.boundReader = none ∧
      Rounds relayStep sync.1 (sync :: post) b ∧ ∀ e ∈ flat batch, noWrite e := by
  induction batch generalizing st with
  | nil =>
    have hst : sync.1 = st := h.head rfl
    rw [hst]
    exact ⟨rfl, hs, hr, h, fun e he => nomatch he⟩
  | cons r batch ih =>
    obtain ⟨s', hrun, hrest⟩ : ∃ s', Runs (relayStep st) r.2 (.inl s') ∧
        Rounds relayStep s' (batch ++ sync :: post) b := by
      generalize hl : r :: batch ++ sync :: post = rs at h
      cases h with
      | leave => simp at hl
      | again hrun hrest =>
        obtain ⟨rfl, rfl⟩ := List.cons.inj hl
        exact ⟨_, hrun, hrest⟩
    have hands := relayStep_hands hrun
    obtain ⟨hd, hconn⟩ := relayStep_batchRound hrun (hbatch r (.head _)) hs
    have hs' : s'.synth.isSome := hands.mode.trans hs
    obtain ⟨hmux, hsync, hreader, hrounds, hquiet⟩ := ih hrest hs'
      (hands.reader (fun _ => hr) hs') fun r hm => hbatch r (.tail _ hm)
    refine ⟨?_, hsync, hreader, hrounds, ?_⟩
    · rw [hmux, hd, lastBind, Option.or_assoc]
    · intro e he
      rw [flat_cons] at he
      rcases List.mem_append.mp he with he | he
      · exact noWrite_of_conn hconn e he
      · exact hquiet e he

/-- The Sync executes what the Executes of the batch ask for: there is none without a Bind,
otherwise one, whose portal has the query of the last Bind. -/
def OneExecution (portals : Bytes → Option Bytes) (start : Option BindMessageDetail)
    (batch : List (Relay × Trace Ans)) (sync : Relay) : Prop :=
  match ((lastBind batch).or start).bind sync.bindQuery with
  | none => executedQueries portals batch = []
  | some query => executedQueries portals batch = [some query]

theorem executedQueries_append (h : ∀ r ∈ before, executeOf r.2 = none)
    (portals : Bytes → Option Bytes) (rs : List (Relay × Trace Ans)) :
    ∃ portals', executedQueries portals (before ++ rs) = executedQueries portals' rs := by
  induction before generalizing portals with
  | nil => exact ⟨portals, rfl⟩
  | cons r before ih =>
    have hr := h r (.head _)
    have hrest := ih fun r hm => h r (.tail _ hm)
    rw [List.cons_append, executedQueries]
    cases hb : bindOf r.2 with
    | some detail => exact hrest _
    | none =>
      rw [hr]
      exact hrest _

theorem executedQueries_unbound (hb : ∀ r ∈ before, bindOf r.2 = none)
    (he : ∀ r ∈ before, executeOf r.2 = none) (portals : Bytes → Option Bytes)
    (rs : List (Relay × Trace Ans)) :
    executedQueries portals (before ++ rs) = executedQueries portals rs := by
  induction before with
  | nil => rfl
  | cons r before ih =>
    rw [List.cons_append, executedQueries, hb r (.head _),
      he r (.head _)]
    exact ih (fun r hm => hb r (.tail _ hm))
      fun r hm => he r (.tail _ hm)

theorem lastBind_append (batch batch' : List (Relay × Trace Ans)) :
    lastBind (batch ++ batch') = (lastBind batch').or (lastBind batch) := by
  induction batch with
  | nil => simp [lastBind]
  | cons r batch ih => rw [List.cons_append, lastBind, ih, lastBind, Option.or_assoc]

theorem lastBind_unbound (h : ∀ r ∈ batch, bindOf r.2 = none) : lastBind batch = none := by
  induction batch with
  | nil => rfl
  | cons r batch ih =>
    rw [lastBind, ih fun r hm => h r (.tail _ hm), h r (.head _)]
    rfl

theorem executeOf_bind (h : bindOf tr = some detail) : executeOf tr = none := by
  unfold bindOf at h
  unfold executeOf
  cases hm : received tr with
  | none => rfl
  | some msg =>
    rw [hm, Option.bind_some] at h
    rw [Option.bind_some, if_neg]
    intro ht
    rw [if_neg (by rw [ht]; decide)] at h
    cases h

theorem bindOf_execute (h : executeOf tr = some portal) : bindOf tr = none := by
  cases hb : bindOf tr with
  | none => rfl
  | some detail =>
    rw [executeOf_bind hb] at h
    cases h

/-- The batch of a driver that executes one statement. -/
theorem oneExecution_single {bind execute : Relay × Trace Ans}
    (hbind : bindOf bind.2 = some detail) (hexec : executeOf execute.2 = some detail.portal)
    (hbefore : ∀ r ∈ before, executeOf r.2 = none)
    (hbetween : ∀ r ∈ between, bindOf r.2 = none ∧ executeOf r.2 = none)
    (hafter : ∀ r ∈ after, bindOf r.2 = none ∧ executeOf r.2 = none)
    (hquery : bind.1.bindQuery detail = some query)
    (hsame : st.bindQuery detail = bind.1.bindQuery detail) (portals : Bytes → Option Bytes)
    (start : Option BindMessageDetail) :
    OneExecution portals start (before ++ bind :: (between ++ execute :: after)) st := by
  have hlast : lastBind (before ++ bind :: (between ++ execute :: after)) = some detail := by
    have hnone : lastBind (between ++ execute :: after) = none := by
      apply lastBind_unbound
      intro r hr
      rcases List.mem_append.mp hr with hr | hr
      · exact (hbetween r hr).1
      rcases List.mem_cons.mp hr with rfl | hr
      · exact bindOf_execute hexec
      · exact (hafter r hr).1
    rw [lastBind_append, lastBind, hnone, hbind]
    rfl
  rw [OneExecution, hlast, Option.some_or, Option.bind_some, hsame, hquery]
  obtain ⟨portals', he⟩ := executedQueries_append hbefore portals
    (bind :: (between ++ execute :: after))
  have hnil : ∀ portals, executedQueries portals after = [] := by
    intro portals
    have hx := executedQueries_unbound (fun r hr => (hafter r hr).1)
      (fun r hr => (hafter r hr).2) portals []
    rwa [List.append_nil] at hx
  change executedQueries portals (before ++ bind :: (between ++ execute :: after)) = [some query]
  rw [he, executedQueries, hbind]
  dsimp only
  rw [executedQueries_unbound (fun r hr => (hbetween r hr).1) (fun r hr => (hbetween r hr).2),
    executedQueries, bindOf_execute hexec, hexec]
  dsimp only
  rw [Function.update_self, hquery, hnil]

omit [External] in
theorem queryMessage_injective : Function.Injective queryMessage := by
  intro q q' h
  have hp : q ++ [0] = q' ++ [0] := congrArg Message.payload h
  exact List.append_cancel_right hp

omit [External] in
theorem single_query_iff {queries : List (Option Bytes)} :
    ((some query).map queryMessage).toList.map some = queries.map (Option.map queryMessage) ↔
      queries = [some query] := by
  have hinj := List.map_injective_iff.mpr (Option.map_injective queryMessage_injective)
  have hone : ((some query).map queryMessage).toList.map some =
      [some query].map (Option.map queryMessage) := rfl
  rw [hone, eq_comm]
  exact hinj.eq_iff

end MuxExecution

/-- A batch in multiplex mode sends one query for each Execute, with the parameters and the
statement of its Bind, exactly when it asks for the one execution of its last Bind. -/
theorem multiplex_executes_iff [External] (dbName : Bytes) (session : Session)
    (rs : List (Relay × Trace Ans)) (t : Trace Ans) (h : RelayRun dbName session true rs t)
    (pre batch post : List (Relay × Trace Ans)) (r sync next : Relay × Trace Ans)
    (rest : List (Relay × Trace Ans)) (hrs : rs = pre ++ r :: rest)
    (hrest : r :: rest = batch ++ sync :: next :: post)
    (hbatch : ∀ r ∈ batch, BatchRound r.2) (hsync : SyncRound sync.1 sync.2)
    (portals : Bytes → Option Bytes) :
    (answeredWrites (flat (batch ++ [sync]))).map some =
        (executedQueries portals batch).map (Option.map queryMessage) ↔
      OneExecution portals r.1.muxBindDetail batch sync.1 := by
  obtain ⟨st, hrounds, -⟩ := h
  obtain ⟨hs, hreader⟩ := (hrounds.at_round
    (I := fun _ s => s.synth.isSome = true ∧ MuxReaderless s) ⟨rfl, fun _ => rfl⟩
    (fun _ _ _ _ _ hI hrun => ⟨(relayStep_hands hrun).mode.trans hI.1,
      (relayStep_hands hrun).reader hI.2⟩) hrs).1
  have hdrop := hrounds.drop hrs
  rw [hrest] at hdrop
  obtain ⟨hmux, hsynth, hr, hlater, hquiet⟩ := rounds_batch hdrop hs (hreader hs) hbatch
  have hsent := relayStep_syncRound hlater.uncons.1 hsync hsynth hr
  have hflat : flat (batch ++ [sync]) = flat batch ++ sync.2 := by
    simp [flat]
  have hquery : sync.1.synthesized =
      ((lastBind batch).or r.1.muxBindDetail).bind sync.1.bindQuery := by
    rw [← hmux]
    obtain ⟨synth, hsy⟩ := Option.isSome_iff_exists.mp hsynth
    cases hd : sync.1.muxBindDetail <;> simp [Relay.synthesized, Relay.bindQuery, hsy, hd]
  rw [hflat, answeredWrites_append hquiet, hsent, hquery, OneExecution]
  cases ((lastBind batch).or r.1.muxBindDetail).bind sync.1.bindQuery with
  | none =>
    rw [eq_comm]
    exact List.map_eq_nil_iff
  | some query => exact single_query_iff

instance [External] (tr : Trace Ans) : Decidable (BatchRound tr) :=
  decidable_of_iff (false ∉ allowAnswers tr ∧ ∃ msg ∈ received tr,
      msg.type = msgParse ∨ msg.type = msgBind ∨ msg.type = msgExecute) Iff.rfl

instance [External] (st : Relay) (tr : Trace Ans) : Decidable (SyncRound st tr) :=
  decidable_of_iff (false ∉ allowAnswers tr ∧ (∃ msg ∈ received tr, msg.type = msgSync) ∧
      st.extSessionBlocked = none ∧ ∀ b ∈ readOnlySeen tr, (b && st.extIsWrite) = false) Iff.rfl

def multiplexScript [External] (inbox : List Message) : Script :=
  { Script.simple inbox (List.replicate 8 readyMessage) with
    config := { defaultConfig with multiplex := true } }

instance [External] (portals : Bytes → Option Bytes) (start : Option BindMessageDetail)
    (batch : List (Relay × Trace Ans)) (sync : Relay) :
    Decidable (OneExecution portals start batch sync) := by
  unfold OneExecution
  split <;> infer_instance

def batchOf [External] (n : Nat) (f : List (Relay × Trace Ans) → Relay × Trace Ans → Bool)
    (rs : List (Relay × Trace Ans)) : Bool :=
  match rs.drop n with
  | sync :: _ :: _ =>
    decide (∀ r ∈ rs.take n, BatchRound r.2) && decide (SyncRound sync.1 sync.2) &&
      f (rs.take n) sync
  | [] => false
  | [_] => false

theorem batchOf_split [External]
    {f : List (Relay × Trace Ans) → Relay × Trace Ans → Bool} {rs : List (Relay × Trace Ans)}
    (h : batchOf n f rs) : ∃ sync next post,
    rs = rs.take n ++ sync :: next :: post ∧ (∀ r ∈ rs.take n, BatchRound r.2) ∧
      SyncRound sync.1 sync.2 ∧ f (rs.take n) sync := by
  unfold batchOf at h
  split at h
  · rename_i sync next post hd
    simp only [Bool.and_eq_true, decide_eq_true_eq] at h
    refine ⟨sync, next, post, ?_, h.1.1, h.1.2, h.2⟩
    rw [← hd, List.take_append_drop]
  · cases h
  · cases h

theorem multiplex_executes_iff_select : ∃ (_ : External) (batch : List (Relay × Trace Ans))
    (sync : Relay × Trace Ans), OneExecution (fun _ => none) none batch sync.1 ∧
      executedQueries (fun _ => none) batch = [some (ascii "SELECT 1")] ∧
      (answeredWrites (flat (batch ++ [sync]))).map some =
        (executedQueries (fun _ => none) batch).map (Option.map queryMessage) := by
  let _ := asciiExternal
  refine ⟨asciiExternal, ?_⟩
  obtain ⟨rs, t, h, hc⟩ := Script.play_run (n := 60)
    (s := multiplexScript [parseMessage [] (ascii "SELECT 1"), bindMessage [], executeMessage,
      syncMessage])
    (f := fun rs _ => batchOf 3 (fun batch sync =>
      decide (OneExecution (fun _ => none) none batch sync.1) &&
      decide (executedQueries (fun _ => none) batch = [some (ascii "SELECT 1")])) rs)
    (by decide +kernel)
  obtain ⟨sync, next, post, hrs, hbatch, hsync, hf⟩ := batchOf_split hc
  simp only [Bool.and_eq_true, decide_eq_true_eq] at hf
  obtain _ | ⟨r, rest⟩ := rs
  · simp at hrs
  · obtain ⟨st, hr, -⟩ := id h
    have hstart : r.1.muxBindDetail = none := by
      rw [hr.head rfl]
      rfl
    refine ⟨_, sync, hf.1, hf.2, ?_⟩
    exact (multiplex_executes_iff _ _ _ t h [] _ post r sync next rest rfl hrs hbatch hsync
      (fun _ => none)).mpr (hstart ▸ hf.1)

/-- Of two executions in a batch only the last one reaches the backend. -/
theorem multiplex_drops_execution : ∃ (_ : External) (session : Session)
    (rs batch post : List (Relay × Trace Ans)) (t : Trace Ans) (sync next : Relay × Trace Ans),
    RelayRun [] session true rs t ∧ rs = batch ++ sync :: next :: post ∧
      (∀ r ∈ batch, BatchRound r.2) ∧ SyncRound sync.1 sync.2 ∧
      executedQueries (fun _ => none) batch =
        [some (ascii "INSERT INTO t VALUES (1)"), some (ascii "INSERT INTO t VALUES (2)")] ∧
      answeredWrites (flat (batch ++ [sync])) =
        [queryMessage (ascii "INSERT INTO t VALUES (2)")] := by
  let _ := asciiExternal
  refine ⟨asciiExternal, ?_⟩
  obtain ⟨session, rs, t, h, hc⟩ := Script.play_check (n := 60)
    (s := multiplexScript [parseMessage (ascii "a") (ascii "INSERT INTO t VALUES (1)"),
      parseMessage (ascii "b") (ascii "INSERT INTO t VALUES (2)"), bindMessage (ascii "a"),
      executeMessage, bindMessage (ascii "b"), executeMessage, syncMessage])
    (f := fun rs _ => batchOf 6 (fun batch sync =>
      decide (executedQueries (fun _ => none) batch =
        [some (ascii "INSERT INTO t VALUES (1)"), some (ascii "INSERT INTO t VALUES (2)")]) &&
      decide (answeredWrites (flat (batch ++ [sync])) =
        [queryMessage (ascii "INSERT INTO t VALUES (2)")])) rs)
    (by decide +kernel)
  obtain ⟨sync, next, post, hrs, hbatch, hsync, hf⟩ := batchOf_split hc
  simp only [Bool.and_eq_true, decide_eq_true_eq] at hf
  exact ⟨session, rs, _, post, t, sync, next, h, hrs, hbatch, hsync, hf.1, hf.2⟩

end Pgmux
