import Pgmux.Handling

namespace Pgmux

open Interaction

section TxBound

variable [External] {st st' : Relay} {tr t : Trace Ans}

def TxBound (st : Relay) : Prop := st.session.inTransaction = true → st.boundWriter.isSome = true

omit [External] in
theorem TxBound.of_idle (h : st.session.inTransaction = false) : TxBound st := by
  intro ht
  simp [h] at ht

omit [External] in
theorem TxBound.of_bound (h : st.boundWriter.isSome) : TxBound st := fun _ => h

omit [External] in
theorem TxBound.of_same (h : TxBound st)
    (hs : st'.session.inTransaction = st.session.inTransaction)
    (hw : st'.boundWriter = st.boundWriter) : TxBound st' := by
  unfold TxBound
  rw [hs, hw]
  exact h

theorem Finish.txBound
    (h : Finish R st c acquired p s d ending rebinding leaving t (.inl st'))
    (hb : acquired = false → st.boundWriter.isSome)
    (he : ending → s.inTransaction = false) (hl : leaving → s.inTransaction = false) :
    TxBound st' := by
  have hs : st'.session = s := h.session
  generalize hr : (.inl st' : Flow) = r at h
  cases h with
  | bind _ _ hw =>
    cases hr
    exact .of_bound (by rw [hw]; rfl)
  | keep hn _ hw =>
    cases hr
    cases acquired with
    | true => exact .of_idle (hs ▸ he (hn rfl))
    | false => exact .of_bound (hw ▸ hb rfl)
  | unbind _ _ _ _ _ hgo => exact .of_idle (hs ▸ hl hgo)
  | back _ _ _ _ _ hgo => exact .of_idle (hs ▸ hl hgo)

theorem finishQuery_txBound
    (h : Runs (finishQuery st query c acquired p was now) tr (.inl st'))
    (hb : acquired = false → st.boundWriter.isSome) (hw : was = true → acquired = false)
    (hn : st.session.inTransaction = now) : TxBound st' := by
  subst hn
  apply (finishQuery_finish h (configured_all tr)).txBound hb
  · exact fun he => he.2
  · rintro ⟨-, hl⟩
    -- a new connection was taken outside of a transaction, which the query did not begin
    rw [← Bool.not_eq_true]
    intro hnow
    obtain ⟨hwas, ha⟩ := hl hnow
    rw [hw hwas] at ha
    cases ha

omit [External] in
theorem Relay.StaysInTx.idle (h : st.StaysInTx acquired)
    (hi : acquired = true → st.session.inTransaction = false) :
    st.applyTxFlags.session.inTransaction = false := by
  rw [← Bool.not_eq_true]
  intro htx
  obtain ⟨ha, hs⟩ := h htx
  rw [hi ha] at hs
  cases hs

omit [External] in
theorem applyTxFlags_end (h : st.extTxEnd) :
    st.applyTxFlags.session.inTransaction = false := by
  rw [applyTxFlags_inTransaction, h]
  rfl

theorem finishBatch_txBound (h : Runs (finishBatch st c acquired p) tr (.inl st'))
    (hb : acquired = false → st.boundWriter.isSome)
    (hi : acquired = true → st.session.inTransaction = false) : TxBound st' :=
  (finishBatch_finish h (configured_all tr)).txBound hb applyTxFlags_end fun hl => hl.2.idle hi

theorem finishSynthesized_txBound (h : Runs (finishSynthesized st c acquired p) tr (.inl st'))
    (hb : acquired = false → st.boundWriter.isSome)
    (hi : acquired = true → st.session.inTransaction = false) : TxBound st' :=
  (finishSynthesized_finish h (configured_all tr)).txBound hb applyTxFlags_end
    fun hl => hl.2.idle hi

omit [External] in
theorem TxBound.idle_of_unbound (h : TxBound st) (hn : st.boundWriter = none) :
    st.session.inTransaction = false := by
  cases htx : st.session.inTransaction with
  | false => rfl
  | true =>
    have := h htx
    simp [hn] at this

theorem routeQueryLocked_reader_idle {s : Session}
    (h : (s.routeQueryLocked now query).1 = .reader) : routedTx s.inTransaction query = false := by
  cases ht : s.routesByType query with
  | false =>
    rw [routeQueryLocked_fixed ht] at h
    cases h
  | true =>
    simp only [Session.routesByType, Bool.and_eq_true, Bool.not_eq_true'] at ht
    exact ht.1.2

/-- A simple query keeps a writer bound for a transaction, unless the read-only check rejects one
that changes the flag. -/
theorem handleQuery_txBound (h : Runs (handleQuery st msg) tr (.inl st')) (hb : TxBound st)
    (hin : true ∈ answers .inReadOnly tr → ∀ rules ∈ rulesSeen tr, ∀ now ∈ timesSeen tr,
      (∃ cfg ∈ configsSeen tr, classifyBy cfg.astParser (checkedText rules msg) = .write) →
      routedTx st.session.inTransaction (checkedText rules msg) = st.session.inTransaction) :
    TxBound st' := by
  obtain ⟨cfg, rules, t, rfl, hs⟩ := handleQuery_cases h
  split at hs
  · cases hs.2
    exact hb
  generalize hst₁ : st.guardedQuery cfg (checkedText rules msg)
    (sharedTree cfg rules msg) = st₁ at hs
  obtain ⟨hbw, -, htx⟩ := guardedQuery_bound st cfg (checkedText rules msg)
    (sharedTree cfg rules msg)
  rw [hst₁] at hbw htx
  obtain ⟨now, t₁, qtype, ro, t₂, rfl, h₁, h₂⟩ := routeQuery_cases hs
  have hrouted : (st₁.routed now (checkedText rules msg)).session.inTransaction =
      routedTx st.session.inTransaction (checkedText rules msg) := by
    rw [← htx]
    exact routeQueryLocked_inTransaction ..
  cases h₂ with
  | rejected hro hqt _ hst =>
    subst hro hqt
    cases hst
    obtain ⟨cfg', hc, hw⟩ := routedType_write h₁ fun _ => preParse_tree
    have hk := hin (mem_answers.mpr (by simp)) rules (mem_answers.mpr (by simp)) now
      (mem_answers.mpr (by simp)) ⟨cfg', mem_answers.mpr (by simp [mem_answers.mp hc]), hw⟩
    exact hb.of_same (hrouted.trans hk) hbw
  | write _ _ hw =>
    obtain ⟨lsn, c, acquired, p, tr, hkept, hnew, hf⟩ :=
      (writeQuery_path hw (fun _ => preParse_tree) (configured_all t₂)).finished
    refine finishQuery_txBound hf hkept (fun hwas => ?_) rfl
    cases acquired with
    | false => rfl
    | true =>
      have := hb.idle_of_unbound (hbw.symm.trans (hnew rfl))
      rw [htx, this] at hwas
      cases hwas
  | read hroute _ hst =>
    rw [(proceed_inl hst.symm).2]
    apply TxBound.of_idle
    rw [hrouted, ← htx]
    exact routeQueryLocked_reader_idle hroute

omit [External] in
theorem GuardedParse.tx (h : GuardedParse st st') :
    st'.session.inTransaction = st.session.inTransaction ∧ st'.boundWriter = st.boundWriter := by
  rcases h with rfl | ⟨_, rfl⟩ | ⟨feature, rfl⟩
  · exact ⟨rfl, rfl⟩
  · exact ⟨rfl, rfl⟩
  · refine ⟨?_, rfl⟩
    simp only [Relay.pin, Session.pin]
    split <;> rfl

omit [External] in
theorem buffer_tx (st : Relay) (msg : Message) :
    (st.buffer msg).session = st.session ∧ (st.buffer msg).boundWriter = st.boundWriter := by
  unfold Relay.buffer
  split <;> exact ⟨rfl, rfl⟩

theorem ParseStep.txBound (h : ParseStep seen st msg rules now (.inl st')) (hb : TxBound st) :
    TxBound st' := by
  obtain ⟨cfg, st₁, -, hg, hn⟩ := h
  obtain ⟨htx, hw⟩ := hg.guarded.tx
  have hbuf := buffer_tx { st₁ with extRoute := st₁.parseRoute (st.registeredRoute rules now msg) }
    (parsedMessage rules msg)
  rw [hn.inl]
  exact hb.of_same ((congrArg Session.inTransaction hbuf.1).trans htx) (hbuf.2.trans hw)

omit [External] in
theorem BindStep.txBound (h : BindStep st msg (.inl st')) (hb : TxBound st) : TxBound st' := by
  rcases h with ⟨-, he⟩ | ⟨-, he⟩ | ⟨detail, ok, -, -, he⟩
  · cases he
    obtain ⟨hs, hw⟩ := buffer_tx (st.bindFlags (parseBindMessage msg.payload).2) msg
    exact hb.of_same (congrArg Session.inTransaction hs) hw
  · cases he
  · rw [(proceed_inl he.symm).2]
    exact hb.of_same rfl rfl

omit [External] in
theorem closeStatement_tx (st : Relay) (payload : Bytes) :
    (st.closeStatement payload).session.inTransaction = st.session.inTransaction ∧
      (st.closeStatement payload).boundWriter = st.boundWriter := by
  unfold Relay.closeStatement
  dsimp only
  split <;> exact ⟨rfl, rfl⟩

omit [External] in
theorem TxBound.endBatch (h : TxBound st) : TxBound st.endBatch := h.of_same rfl rfl

theorem ReaderGone.txBound (h : ReaderGone R st t st') (hb : TxBound st) : TxBound st' := by
  rw [h.same]
  exact hb.of_same rfl rfl

theorem Unexecuted.txBound (h : Unexecuted R st t st') (hb : TxBound st) : TxBound st' := by
  rw [h.same]
  exact hb.of_same rfl rfl

theorem ReaderPath.tx (h : ReaderPath R st ms t (.inl st')) :
    st'.session = st.session ∧ st'.boundWriter = st.boundWriter := by
  generalize hr : (Sum.inl st' : Flow) = r at h
  cases h with
  | kept =>
    cases hr
    exact ⟨rfl, rfl⟩
  | released =>
    cases hr
    exact ⟨rfl, rfl⟩
  | broken => cases hr
  | bound =>
    cases hr
    exact ⟨rfl, rfl⟩
  | visits =>
    rw [(proceed_inl hr.symm).2]
    exact ⟨rfl, rfl⟩

theorem SyncStep.txBound (h : SyncStep R seen st msg t (.inl st')) (hb : TxBound st) :
    TxBound st' := by
  generalize hr : (Sum.inl st' : Flow) = r at h
  cases h with
  | rejected hg =>
    cases hr
    exact (hg.txBound hb).of_same rfl rfl
  | noBind _ _ hu =>
    cases hr
    exact (hu.txBound hb).endBatch
  | synthFailed _ _ _ hu =>
    cases hr
    exact (hu.txBound hb).of_same rfl rfl
  | synthRead =>
    obtain ⟨st₁, he, rfl⟩ := map_endBatch_inl hr.symm
    rw [(proceed_inl he).2]
    exact hb.endBatch
  | synthWrite _ _ _ _ _ hg hp =>
    obtain ⟨st₂, rfl, rfl⟩ := map_endBatch_inl hr.symm
    have hb₁ := hg.txBound hb
    obtain ⟨lsn, c, acquired, p, tr, hkept, hnew, hf⟩ := hp.finished
    exact (finishSynthesized_txBound hf hkept fun ha => hb₁.idle_of_unbound (hnew ha)).endBatch
  | batchRead _ _ _ hp =>
    obtain ⟨st₂, rfl, rfl⟩ := map_endBatch_inl hr.symm
    exact (hb.of_same (congrArg Session.inTransaction hp.tx.1) hp.tx.2).endBatch
  | batchWrite _ _ _ hg hp =>
    obtain ⟨st₂, rfl, rfl⟩ := map_endBatch_inl hr.symm
    have hb₁ := hg.txBound hb
    obtain ⟨lsn, c, acquired, p, tr, hkept, hnew, hf⟩ := hp.finished
    exact (finishBatch_txBound hf hkept fun ha => hb₁.idle_of_unbound (hnew ha)).endBatch

end TxBound

end Pgmux
