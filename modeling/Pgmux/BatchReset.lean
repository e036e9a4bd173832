import Pgmux.LimitedBatch
import Pgmux.SessionGuard

namespace Pgmux

open Interaction

structure BatchState where
  extBuf : List Message
  extRoute : Route
  extTxStart : Bool
  extTxEnd : Bool
  extIsWrite : Bool
  extHasExecute : Bool
  extSessionBlocked : Option SessionFeature
  extQueryText : Bytes
  muxBindDetail : Option BindMessageDetail

def Relay.batch (st : Relay) : BatchState where
  extBuf := st.extBuf
  extRoute := st.extRoute
  extTxStart := st.extTxStart
  extTxEnd := st.extTxEnd
  extIsWrite := st.extIsWrite
  extHasExecute := st.extHasExecute
  extSessionBlocked := st.extSessionBlocked
  extQueryText := st.extQueryText
  muxBindDetail := st.muxBindDetail

def BatchState.over (text : Bytes) : BatchState where
  extBuf := []
  extRoute := .reader
  extTxStart := false
  extTxEnd := false
  extIsWrite := false
  extHasExecute := false
  extSessionBlocked := none
  extQueryText := text
  muxBindDetail := none

section BatchReset

variable [External] {st st' st₁ : Relay} {tr t : Trace Ans}

def Relay.synthesisFails (st : Relay) : Prop :=
  st.synth.isSome = true ∧ st.muxBindDetail.isSome = true ∧ st.synthesized = none

/-- The Sync is answered with an error: by the session guard, by the read-only check or because the
synthesis fails. -/
def RejectsSync (st : Relay) (tr : Trace Ans) : Prop :=
  st.extSessionBlocked.isSome = true ∨
    ((readOnlySeen tr).head? = some true ∧ st.extIsWrite = true) ∨ st.synthesisFails

section Kept

omit [External] in
theorem Left.batch (h : Left st s st') : st'.batch = st.batch := by
  rw [h]
  rfl

theorem WriterPath.batch (h : WriterPath R panics st ms fin t r)
    (hfin : ∀ s c acquired p₁ tr r, Runs (fin { st with session := s } c acquired p₁) tr r →
      Configured R tr → (Flow.state r).batch = st.batch) : (Flow.state r).batch = st.batch := by
  cases h with
  | refused => rfl
  | failed _ _ hd => cases hd <;> rfl
  | panicked => rfl
  | served _ _ _ _ hr hR => exact hfin _ _ _ _ _ _ hr hR

theorem ReaderPath.batch (h : ReaderPath R st ms t r) : (Flow.state r).batch = st.batch := by
  cases h with
  | visits => rw [state_proceed]
  | _ => rfl

omit [External] in
theorem Guarded.batch (h : Guarded st st₁) : st₁.batch = st.batch := by
  rcases h with rfl | ⟨feature, rfl⟩
  · rfl
  · rfl

theorem QueryStep.batch (h : QueryStep R seen st msg t r) : (Flow.state r).batch = st.batch := by
  cases h with
  | blocked => rfl
  | readOnly _ _ hg => exact hg.guarded.batch
  | write _ _ hg _ _ _ _ hx =>
    refine (hx.batch ?_).trans hg.guarded.batch
    exact fun s c acquired p₁ tr r hr hR => (finishQuery_finish hr hR).left.batch
  | read _ _ hg =>
    rw [state_proceed]
    exact hg.guarded.batch

end Kept

omit [External] in
theorem batch_of_flow (h : (Flow.state flow).batch = st.batch)
    (he : flow.map Relay.endBatch id = .inl st') (hb : st.extSessionBlocked = none) :
    st'.batch = .over [] := by
  cases flow with
  | inr st₁ => cases he
  | inl st₁ =>
    have hblock : st₁.extSessionBlocked = none :=
      (congrArg BatchState.extSessionBlocked h).trans hb
    cases he
    simp [Relay.batch, Relay.endBatch, Relay.clearBatch, BatchState.over, hblock]

theorem executeSynthesizedQuery_batch (h : Runs (executeSynthesizedQuery st query) t flow) :
    (Flow.state flow).batch = st.batch := by
  rcases executeSynthesizedQuery_cases h (configured_all t) with ⟨-, ok, -, rfl⟩ | ⟨-, hw⟩
  · rw [state_proceed]
  · exact hw.batch fun s c acquired p₁ tr r hr hR => (finishSynthesized_finish hr hR).left.batch

theorem executeSync_batch (h : Runs (executeSync st msg) t (.inl st'))
    (hb : st.extSessionBlocked = none)
    (hx : st.synth.isSome → st.extHasExecute = false) :
    (st.synthesisFails ∧ st'.batch = .over st.extQueryText) ∨
      (¬ st.synthesisFails ∧ st'.batch = .over []) := by
  generalize hr : (.inl st' : Flow) = r at h
  have hproxy (hs : st.synth = none) : ¬ st.synthesisFails := by simp [Relay.synthesisFails, hs]
  cases executeSync_ways h with
  | multiplex hs h₁ =>
    cases syncMultiplex_ways h₁ with
    | noBind hm =>
      refine .inr ⟨fun hf => by simp [Relay.synthesisFails, hm] at hf, ?_⟩
      cases hr
      simp [Relay.batch, Relay.endBatch, Relay.clearBatch, BatchState.over, hb]
    | failed hm hq =>
      refine .inl ⟨⟨by simp [hs], by simp [hm], by simp [Relay.synthesized, hs, hm, hq]⟩, ?_⟩
      cases hr
      simp [Relay.batch, Relay.clearBatch, BatchState.over, hb, hx (by simp [hs])]
    | executed hm hq hrun =>
      refine .inr ⟨fun hf => ?_,
        batch_of_flow (executeSynthesizedQuery_batch hrun) hr.symm hb⟩
      simpa [Relay.synthesized, hs, hm, hq] using hf.2.2
  | read hs _ h₁ =>
    exact .inr ⟨hproxy hs,
      batch_of_flow (readBatch_path h₁ (configured_all _)).batch hr.symm hb⟩
  | write hs _ h₁ =>
    refine .inr ⟨hproxy hs, batch_of_flow ?_ hr.symm hb⟩
    exact (writeBatch_path h₁ (configured_all _)).batch
      fun s c acquired p₁ tr r hr hR => (finishBatch_finish hr hR).left.batch

theorem releaseStaleReader_unasked (h : Runs (releaseStaleReader st) t st₁) :
    readOnlySeen t = [] ∧ st₁ = { st with boundReader := st₁.boundReader } := by
  constructor
  · have hq : Within (· ≠ .inReadOnly) (releaseStaleReader st) :=
      releaseStaleReader_foot.avoids [.mode] rfl fun o ho => by
        rintro rfl
        cases ho
    exact hq.answers_eq_nil h (not_not.mpr rfl)
  · rcases releaseStaleReader_cases h (configured_all t) with ⟨-, -, rfl⟩ | ⟨-, hg⟩
    · rfl
    · rw [hg.same]

theorem rejectBatch_batch (h : Runs (rejectBatch st text) t st')
    : st'.batch = { BatchState.over st.extQueryText with
      extSessionBlocked := st.extSessionBlocked } := by
  obtain ⟨st₁, hg, rfl⟩ := rejectBatch_cases h (configured_all t)
  rw [hg.same]
  rfl

theorem handleSync_batch (h : Runs (handleSync st msg) t (.inl st'))
    (hx : st.synth.isSome → st.extHasExecute = false) :
    (RejectsSync st t ∧ st'.batch = .over st.extQueryText) ∨
      (¬ RejectsSync st t ∧ st'.batch = .over []) := by
  generalize hr : (.inl st' : Flow) = r at h
  have hhead {t₀ st₁ b t₁} (h₀ : Runs (releaseStaleReader st) t₀ st₁) :
      (readOnlySeen (t₀ ++ ⟨.inReadOnly, b⟩ :: t₁)).head? = some b := by
    have hro := (releaseStaleReader_unasked h₀).1
    unfold readOnlySeen at hro ⊢
    rw [answers_append, hro, answers_cons_self]
    rfl
  cases handleSync_ways h with
  | @blocked t₀ feature t₁ st₂ st₁ h₀ hf h₁ =>
    have hst := (releaseStaleReader_unasked h₀).2
    rw [hst] at hf h₁
    refine .inl ⟨.inl (by rw [show st.extSessionBlocked = _ from hf]; rfl), ?_⟩
    cases hr
    change { st₂.batch with extSessionBlocked := none } = _
    rw [rejectBatch_batch h₁]
    rfl
  | @readOnly t₀ t₁ st₂ st₁ h₀ hf hw h₁ =>
    have hst := (releaseStaleReader_unasked h₀).2
    rw [hst] at hf hw h₁
    refine .inl ⟨.inr (.inl ⟨hhead h₀, hw⟩), ?_⟩
    cases hr
    rw [rejectBatch_batch h₁, hf]
    rfl
  | @executed t₀ b t₁ _ st₁ h₀ hf hpass h₁ =>
    have hst := (releaseStaleReader_unasked h₀).2
    rw [hst] at hf hpass h₁
    have hread : ¬ (some b = some true ∧ st.extIsWrite) := by
      rintro ⟨hb, hw⟩
      rw [Option.some.inj hb, Bool.true_and] at hpass
      cases hw.symm.trans hpass
    have hrejects : RejectsSync st (t₀ ++ ⟨.inReadOnly, b⟩ :: t₁) ↔ st.synthesisFails := by
      rw [RejectsSync, show st.extSessionBlocked = none from hf, hhead h₀,
        or_iff_right (by simp), or_iff_right hread]
    rw [hrejects]
    subst hr
    have hend := executeSync_batch h₁ hf hx
    exact hend

omit [External] in
theorem buffer_hasExecute (st : Relay) (msg : Message) :
    (st.buffer msg).extHasExecute = st.extHasExecute := by
  unfold Relay.buffer
  split <;> rfl

omit [External] in
theorem GuardedParse.hasExecute (h : GuardedParse st st₁) :
    st₁.extHasExecute = st.extHasExecute := by
  rcases h with rfl | ⟨_, rfl⟩ | ⟨_, rfl⟩ <;> rfl

theorem ParseStep.hasExecute (h : ParseStep seen st msg rules now (.inl st')) :
    st'.extHasExecute = st.extHasExecute := by
  obtain ⟨cfg, st₁, -, hg, hn⟩ := h
  rw [hn.state, buffer_hasExecute]
  exact hg.guarded.hasExecute

omit [External] in
theorem BindStep.hasExecute (h : BindStep st msg (.inl st')) :
    st'.extHasExecute = st.extHasExecute := by
  rcases h with ⟨-, h⟩ | ⟨-, h⟩ | ⟨detail, ok, -, -, h⟩
  · rw [Sum.inl.inj h, buffer_hasExecute]
    rfl
  · cases h
  · cases ok <;> cases h
    rfl

omit [External] in
theorem closeStatement_hasExecute (st : Relay) (payload : Bytes) :
    (st.closeStatement payload).extHasExecute = st.extHasExecute := by
  unfold Relay.closeStatement
  dsimp only
  split <;> rfl

omit [External] in
theorem endBatch_hasExecute {flow : Flow} (he : flow.map Relay.endBatch id = .inl st') :
    st'.extHasExecute = false := by
  cases flow with
  | inl st₁ =>
    cases he
    rfl
  | inr st₁ => cases he

theorem SyncStep.hasExecute (h : SyncStep R seen st msg t (.inl st'))
    (hx : st.extHasExecute = false) : st'.extHasExecute = false := by
  generalize hr : (Sum.inl st' : Flow) = r at h
  cases h with
  | rejected =>
    cases hr
    rfl
  | noBind =>
    cases hr
    rfl
  | synthFailed _ _ _ hu =>
    cases hr
    rw [hu.same]
    exact hx
  | synthRead => exact endBatch_hasExecute hr.symm
  | synthWrite => exact endBatch_hasExecute hr.symm
  | batchRead => exact endBatch_hasExecute hr.symm
  | batchWrite => exact endBatch_hasExecute hr.symm

def ExecuteFree (st : Relay) : Prop := st.synth.isSome = true → st.extHasExecute = false

theorem Step.executeFree (h : Step R st tr (.inl st')) (hx : ExecuteFree st) :
    ExecuteFree st' := by
  intro hm
  rw [h.change.mode] at hm
  generalize hr : (Sum.inl st' : Flow) = r at h
  cases h with
  | idle =>
    rw [(proceed_inl hr.symm).2]
    exact hx hm
  | query _ _ hq =>
    have hb := congrArg BatchState.extHasExecute hq.batch
    rw [← hr] at hb
    exact hb.trans (hx hm)
  | parse _ _ _ _ hp =>
    subst hr
    exact hp.hasExecute.trans (hx hm)
  | bind _ _ _ hp =>
    subst hr
    exact hp.hasExecute.trans (hx hm)
  | close _ _ _ hn =>
    subst hr
    rw [hn.state, buffer_hasExecute, closeStatement_hasExecute]
    exact hx hm
  | describe =>
    rw [(proceed_inl hr.symm).2]
    exact hx hm
  | buffered _ hs =>
    rw [hs] at hm
    cases hm
  | sync _ _ hs =>
    subst hr
    exact hs.hasExecute (hx hm)

theorem rounds_executeFree (h : Rounds relayStep st rs b) (hx : ExecuteFree st) :
    ∀ r ∈ rs, ExecuteFree r.1 := by
  induction h with
  | leave => simpa using hx
  | again hrun _ ih =>
    exact List.forall_mem_cons.mpr
      ⟨hx, ih ((relayStep_step hrun (configured_all _)).executeFree hx)⟩

theorem relayStep_syncBatch (h : Runs (relayStep st) tr (.inl st')) (hs : ReceivesSync tr)
    (hr : refused tr = false) (hx : ExecuteFree st) :
    (RejectsSync st tr ∧ st'.batch = .over st.extQueryText) ∨
      (¬ RejectsSync st tr ∧ st'.batch = .over []) := by
  obtain ⟨msg, hm, ht⟩ := hs
  obtain ⟨b, msg', m, t, rfl, hh⟩ := relayStep_handled h
  cases hm
  cases hh with
  | limited h₁ => rw [rateLimited_refused_eq h₁] at hr; cases hr
  | query _ hq =>
    rw [ht] at hq
    exact absurd hq (by decide)
  | extended h₁ hq h₂ =>
    rename_i t₁ t₂
    rw [handleExtended_sync ht] at h₂
    have hseen : readOnlySeen (⟨.ctxDone, b⟩ :: ⟨.readClient, .message msg⟩ ::
        ⟨.inMaintenance, m⟩ :: (t₁ ++ t₂) : Trace Ans) = readOnlySeen t₂ := by
      simp [readOnlySeen, answers_append, answers_cons_ne, rateLimited_ops.answers_eq_nil h₁]
    unfold RejectsSync
    rw [hseen]
    exact handleSync_batch h₂ hx

end BatchReset

/-- After a Sync that was handled the route is reset to the reader's, while it begins as the
writer's. The other batch variables are back exactly if the Sync was not answered with an error, or
the batch had no text. -/
theorem batch_reset_iff [External] (dbName : Bytes) (session : Session) (multiplex : Bool)
    (pre post : List (Relay × Trace Ans)) (r next : Relay × Trace Ans) (t : Trace Ans)
    (h : RelayRun dbName session multiplex (pre ++ r :: next :: post) t)
    (hs : ReceivesSync r.2) (hr : refused r.2 = false) :
    let start := (Relay.init dbName session multiplex).batch
    next.1.batch ≠ start ∧
      ({ next.1.batch with extRoute := start.extRoute } = start ↔
        (RejectsSync r.1 r.2 → r.1.extQueryText = [])) := by
  obtain ⟨st, hrounds, -⟩ := h
  have hrun := (hrounds.drop rfl).uncons.1
  have hx := rounds_executeFree hrounds (fun _ => rfl) r (by simp)
  rcases relayStep_syncBatch hrun hs hr hx with ⟨hrej, hb⟩ | ⟨hrej, hb⟩
  · rw [hb]
    refine ⟨fun he => ?_, ?_⟩
    · cases congrArg BatchState.extRoute he
    · constructor
      · exact fun he _ => congrArg BatchState.extQueryText he
      · intro ht
        rw [ht hrej]
        rfl
  · rw [hb]
    refine ⟨fun he => ?_, fun _ hrej' => absurd hrej' hrej, fun _ => rfl⟩
    cases congrArg BatchState.extRoute he

def secondRound [External] (f : Relay × Trace Ans → Relay → Bool) :
    List (Relay × Trace Ans) → Bool
  | _ :: r :: next :: _ => f r next.1
  | _ => false

theorem secondRound_split [External] {f : Relay × Trace Ans → Relay → Bool}
    {rs : List (Relay × Trace Ans)} (h : secondRound f rs) :
    ∃ pre r next post, rs = pre ++ r :: next :: post ∧ f r next.1 := by
  rcases rs with _ | ⟨r₀, _ | ⟨r, _ | ⟨next, post⟩⟩⟩
  · cases h
  · cases h
  · cases h
  · exact ⟨[r₀], r, next, post, rfl, h⟩

theorem blockedSync_run : ∃ (_ : External) (session : Session) (t : Trace Ans)
    (pre post : List (Relay × Trace Ans)) (r next : Relay × Trace Ans),
    RelayRun [] session false (pre ++ r :: next :: post) t ∧ ReceivesSync r.2 ∧
      refused r.2 = false ∧ RejectsSync r.1 r.2 ∧ next.1.extRoute = .reader ∧
      r.1.extQueryText = ascii "LISTEN a" ∧ next.1.extQueryText = ascii "LISTEN a" := by
  let _ := asciiExternal
  refine ⟨asciiExternal, ?_⟩
  obtain ⟨session, rs, t, h, hc⟩ := Script.play_check (n := 60)
    (s := { Script.simple [parseMessage [] (ascii "LISTEN a"), syncMessage] [] with
      config := { guardConfig with multiplex := false } })
    (f := fun rs _ => secondRound (fun r next => decide (ReceivesSync r.2) && !refused r.2 &&
      r.1.extSessionBlocked.isSome && decide (next.extRoute = .reader) &&
      decide (r.1.extQueryText = ascii "LISTEN a") &&
      decide (next.extQueryText = ascii "LISTEN a")) rs) (by decide +kernel)
  obtain ⟨pre, r, next, post, rfl, hf⟩ := secondRound_split hc
  simp only [Bool.and_eq_true, decide_eq_true_eq, Bool.not_eq_true'] at hf
  obtain ⟨⟨⟨⟨⟨hs, hr⟩, hb⟩, hroute⟩, htext⟩, htext'⟩ := hf
  exact ⟨session, t, pre, post, r, next, h, hs, hr, .inl hb, hroute, htext, htext'⟩

/-- The text of a blocked batch is still there after its Sync, and the route is not that of the
start. -/
theorem blocked_text_stays : ∃ (_ : External) (session : Session) (t : Trace Ans)
    (pre post : List (Relay × Trace Ans)) (r next : Relay × Trace Ans),
    RelayRun [] session false (pre ++ r :: next :: post) t ∧ ReceivesSync r.2 ∧
      refused r.2 = false ∧ next.1.extQueryText = ascii "LISTEN a" ∧
      next.1.batch ≠ (Relay.init [] session false).batch := by
  obtain ⟨ext, session, t, pre, post, r, next, h, hs, hr, -, hroute, -, htext⟩ := blockedSync_run
  refine ⟨ext, session, t, pre, post, r, next, h, hs, hr, htext, fun he => ?_⟩
  have hstart : next.1.extRoute = .writer := congrArg BatchState.extRoute he
  rw [hroute] at hstart
  cases hstart

theorem blockedSync_reset_iff : ∃ (_ : External) (session : Session)
    (r next : Relay × Trace Ans), r.1.extQueryText = ascii "LISTEN a" ∧ RejectsSync r.1 r.2 ∧
      next.1.batch ≠ (Relay.init [] session false).batch ∧
      ({ next.1.batch with extRoute := .writer } = (Relay.init [] session false).batch ↔
        (RejectsSync r.1 r.2 → r.1.extQueryText = [])) := by
  obtain ⟨ext, session, t, pre, post, r, next, h, hs, hr, hrej, -, htext, -⟩ := blockedSync_run
  exact ⟨ext, session, r, next, htext, hrej,
    batch_reset_iff [] session false pre post r next t h hs hr⟩

end Pgmux
