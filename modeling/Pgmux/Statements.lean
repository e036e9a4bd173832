import Pgmux.SessionCalls
import Pgmux.Step

namespace Pgmux

open Interaction

section Statements

variable [External] {st st' : Relay}

/-- The statements that the session knows, and what it has of the batch, stay as they are. -/
structure SameBatch (st st' : Relay) : Prop where
  extBuf : st'.extBuf = st.extBuf
  extIsWrite : st'.extIsWrite = st.extIsWrite
  muxBindDetail : st'.muxBindDetail = st.muxBindDetail
  synth : st'.synth = st.synth
  blocked : st'.extSessionBlocked = st.extSessionBlocked
  stmtWrite : st'.session.stmtWrite = st.session.stmtWrite

omit [External] in
theorem SameBatch.refl (st : Relay) : SameBatch st st := ⟨rfl, rfl, rfl, rfl, rfl, rfl⟩

omit [External] in
theorem SameBatch.trans (h₁ : SameBatch st st₁) (h₂ : SameBatch st₁ st₂) : SameBatch st st₂ :=
  ⟨h₂.extBuf.trans h₁.extBuf, h₂.extIsWrite.trans h₁.extIsWrite,
    h₂.muxBindDetail.trans h₁.muxBindDetail, h₂.synth.trans h₁.synth,
    h₂.blocked.trans h₁.blocked, h₂.stmtWrite.trans h₁.stmtWrite⟩

omit [External] in
theorem Left.sameBatch (h : Left st s st') (hs : s.stmtWrite = st.session.stmtWrite) :
    SameBatch st st' := by
  rw [h]
  exact ⟨rfl, rfl, rfl, rfl, rfl, hs⟩

theorem Finish.left (h : Finish R st c acquired p₁ s d ending rebinding leaving t r) :
    Left st s (Flow.state r) := by
  cases h with
  | bind _ hl => exact hl
  | keep _ hl => exact hl
  | unbind _ _ _ hl => rwa [state_proceed]
  | back _ _ _ hl => exact hl

theorem WriterPath.sameBatch (h : WriterPath R panics st ms fin t r)
    (hfin : ∀ s c acquired p₁ tr r, Runs (fin { st with session := s } c acquired p₁) tr r →
      Configured R tr → SameBatch { st with session := s } (Flow.state r)) :
    SameBatch st (Flow.state r) := by
  cases h with
  | refused => exact .refl st
  | failed _ _ hd =>
    cases hd with
    | fresh => exact .refl st
    | bound => exact ⟨rfl, rfl, rfl, rfl, rfl, rfl⟩
    | unbound => exact .refl st
  | panicked => exact .refl st
  | served _ _ _ hs hr hR =>
    obtain ⟨lsn, rfl⟩ := hs
    have h₁ : SameBatch st { st with session := st.session.setLastWriteLSN lsn } :=
      ⟨rfl, rfl, rfl, rfl, rfl, rfl⟩
    exact h₁.trans (hfin _ _ _ _ _ _ hr hR)

omit [External] in
theorem applyTxFlags_stmtWrite (st : Relay) :
    st.applyTxFlags.session.stmtWrite = st.session.stmtWrite := by
  unfold Relay.applyTxFlags
  dsimp only
  split <;> split <;> rfl

omit [External] in
theorem Guarded.sameBatch (h : Guarded st st₁) : SameBatch st st₁ := by
  rcases h with rfl | ⟨feature, rfl⟩
  · exact .refl st₁
  · refine ⟨rfl, rfl, rfl, rfl, rfl, ?_⟩
    simp only [Relay.pin, Session.pin]
    split <;> rfl

theorem routed_sameBatch (st : Relay) (now : Nat) (query : Bytes) :
    SameBatch st (st.routed now query) :=
  ⟨rfl, rfl, rfl, rfl, rfl, (routeQueryLocked_stmts st.session now query).2⟩

theorem QueryStep.sameBatch (h : QueryStep R seen st msg t r) : SameBatch st (Flow.state r) := by
  cases h with
  | blocked => exact .refl st
  | readOnly _ _ hg => exact hg.guarded.sameBatch.trans (routed_sameBatch ..)
  | write _ _ hg _ _ _ _ hx =>
    refine hg.guarded.sameBatch.trans ((routed_sameBatch ..).trans (hx.sameBatch ?_))
    exact fun s c acquired p₁ tr r hr hR => (finishQuery_finish hr hR).left.sameBatch rfl
  | read _ _ hg =>
    rw [state_proceed]
    exact hg.guarded.sameBatch.trans (routed_sameBatch ..)

structure BatchOver (st st' : Relay) : Prop where
  extBuf : st'.extBuf = []
  muxBindDetail : st'.muxBindDetail = none
  synth : st'.synth = st.synth
  stmtWrite : st'.session.stmtWrite = st.session.stmtWrite

omit [External] in
theorem SameBatch.clear (h : SameBatch st st₁) : BatchOver st st₁.clearBatch :=
  ⟨rfl, rfl, h.synth, h.stmtWrite⟩

theorem ReaderGone.sameBatch (h : ReaderGone R st t st₁) : SameBatch st st₁ := by
  rw [h.same]
  exact ⟨rfl, rfl, rfl, rfl, rfl, rfl⟩

theorem Unexecuted.sameBatch (h : Unexecuted R st t st₁) : SameBatch st st₁ := by
  rw [h.same]
  exact ⟨rfl, rfl, rfl, rfl, rfl, rfl⟩

theorem ReaderPath.sameBatch (h : ReaderPath R st ms t r) : SameBatch st (Flow.state r) := by
  cases h with
  | kept => exact .refl st
  | released => exact ⟨rfl, rfl, rfl, rfl, rfl, rfl⟩
  | broken => exact ⟨rfl, rfl, rfl, rfl, rfl, rfl⟩
  | bound => exact ⟨rfl, rfl, rfl, rfl, rfl, rfl⟩
  | visits =>
    rw [state_proceed]
    exact .refl st

omit [External] in
theorem BatchOver.of_flow (h : SameBatch st (Flow.state flow))
    (he : flow.map Relay.endBatch id = .inl st') : BatchOver st st' := by
  cases flow with
  | inl st₁ =>
    cases he
    exact ⟨rfl, rfl, h.synth, h.stmtWrite⟩
  | inr st₁ => cases he

theorem SyncStep.over (h : SyncStep R seen st msg t (.inl st')) : BatchOver st st' := by
  generalize hr : (Sum.inl st' : Flow) = r at h
  cases h with
  | rejected hg =>
    cases hr
    exact ⟨rfl, rfl, hg.sameBatch.synth, hg.sameBatch.stmtWrite⟩
  | noBind _ _ hu =>
    cases hr
    exact ⟨rfl, rfl, hu.sameBatch.synth, hu.sameBatch.stmtWrite⟩
  | synthFailed _ _ _ hu =>
    cases hr
    exact hu.sameBatch.clear
  | synthRead _ _ _ _ _ _ => exact .of_flow (by rw [state_proceed]; exact .refl st) hr.symm
  | synthWrite _ _ _ _ _ hg hx =>
    refine .of_flow (hg.sameBatch.trans (hx.sameBatch ?_)) hr.symm
    exact fun s c acquired p₁ tr r hr hR =>
      (finishSynthesized_finish hr hR).left.sameBatch (applyTxFlags_stmtWrite _)
  | batchRead _ _ _ hx => exact .of_flow hx.sameBatch hr.symm
  | batchWrite _ _ _ hg hx =>
    refine .of_flow (hg.sameBatch.trans (hx.sameBatch ?_)) hr.symm
    exact fun s c acquired p₁ tr r hr hR =>
      (finishBatch_finish hr hR).left.sameBatch (applyTxFlags_stmtWrite _)

structure Registered (seen : Event → Prop) (st : Relay) (rules : Option External.Rules)
    (msg : Message) (st' : Relay) : Prop where
  stmtWrite : st'.session.stmtWrite = st.session.stmtWrite.insert (parseNameText msg.payload).1
    (decide (st.session.classify (parsedText rules msg) = .write))
  extIsWrite : ∃ cfg : Config, seen ⟨.config, cfg⟩ ∧ st'.extIsWrite =
    (st.extIsWrite || decide (classifyBy cfg.astParser (parsedText rules msg) = .write))
  muxBindDetail : st'.muxBindDetail = st.muxBindDetail
  synth : st'.synth = st.synth.map fun synth => synth.registerStatement
    (parseNameText msg.payload).1 (parsedText rules msg)
    (parseParseMessageFull msg.payload).paramOIDs
  extBuf : st'.extBuf =
    if st.synth.isSome then st.extBuf else st.extBuf ++ [parsedMessage rules msg]
  unblocked : st'.extSessionBlocked = none → st.extSessionBlocked = none ∧ ∃ cfg : Config,
    seen ⟨.config, cfg⟩ ∧
      (guardCheck cfg (parsedText rules msg) none = none ∨ cfg.compatMode ≠ .block)

omit [External] in
theorem GuardedParse.kept (h : GuardedParse st st₁) : st₁.extBuf = st.extBuf ∧
    st₁.extIsWrite = st.extIsWrite ∧ st₁.muxBindDetail = st.muxBindDetail ∧
    st₁.synth = st.synth ∧ st₁.session.stmtWrite = st.session.stmtWrite := by
  rcases h with rfl | ⟨feature, rfl⟩ | ⟨feature, rfl⟩
  · exact ⟨rfl, rfl, rfl, rfl, rfl⟩
  · exact ⟨rfl, rfl, rfl, rfl, rfl⟩
  · exact ⟨rfl, rfl, rfl, rfl, (Guarded.sameBatch (.inr ⟨feature, rfl⟩)).stmtWrite⟩

theorem ParseGuarded.unblocked (h : ParseGuarded seen st text st₁)
    (hn : st₁.extSessionBlocked = none) : st.extSessionBlocked = none ∧ ∃ cfg : Config,
      seen ⟨.config, cfg⟩ ∧ (guardCheck cfg text none = none ∨ cfg.compatMode ≠ .block) := by
  rcases h with ⟨hb, rfl⟩ | ⟨hb, cfg, hc, rfl⟩
  · simp [hn] at hb
  · refine ⟨hb, cfg, hc, ?_⟩
    unfold Relay.guarded at hn
    split at hn
    · cases hn
    · rename_i hmode
      exact .inr (by rw [hmode]; decide)
    · rename_i hnone hpin
      cases hg : guardCheck cfg text none with
      | none => exact .inl rfl
      | some feature => exact .inr fun hm => hnone feature hg hm

omit [External] in
theorem Noted.state (h : Noted st st₁ (.inl st')) : st' = st₁ := by
  obtain ⟨ok, -, h⟩ := h
  cases ok <;> cases h
  rfl

theorem ParseStep.registered (h : ParseStep seen st msg rules now (.inl st')) :
    Registered seen st rules msg st' := by
  obtain ⟨cfg, st₁, hcfg, hg, hn⟩ := h
  obtain rfl := hn.state
  obtain ⟨hbuf, hwrite, hdetail, hsynth, hstmt⟩ := hg.guarded.kept
  have hsome : st₁.synth.isSome = st.synth.isSome := by
    rw [hsynth]
    exact Option.isSome_map
  unfold Relay.buffer
  dsimp only
  rw [hsome]
  cases hy : st.synth.isSome <;>
    exact ⟨hstmt, ⟨cfg, hcfg, hwrite⟩, hdetail, hsynth, by simp [hbuf, hy]; rfl, hg.unblocked⟩

structure BoundTo (st : Relay) (msg : Message) (name : Bytes) (st' : Relay) : Prop where
  session : st'.session = st.session
  synth : st'.synth = st.synth
  extIsWrite : st'.extIsWrite = (st.extIsWrite || st.session.statementIsWrite name)
  blocked : st'.extSessionBlocked = st.extSessionBlocked
  mode : (st.synth = none ∧ name = (parseBindMessage msg.payload).2 ∧
      st'.extBuf = st.extBuf ++ [msg]) ∨
    (st.synth.isSome = true ∧ st'.extBuf = st.extBuf ∧ ∃ detail,
      parseBindMessageFull msg.payload = some detail ∧ st'.muxBindDetail = some detail ∧
      detail.statementName = name)

omit [External] in
theorem buffer_proxy (h : st.synth = none) (m : Message) :
    st.buffer m = { st with extBuf := st.extBuf ++ [m] } := by
  simp [Relay.buffer, h]

omit [External] in
theorem BindStep.boundTo (h : BindStep st msg (.inl st')) : ∃ name, BoundTo st msg name st' := by
  rcases h with ⟨hy, h⟩ | ⟨-, h⟩ | ⟨detail, ok, hy, hd, h⟩
  · have hy' : (st.bindFlags (parseBindMessage msg.payload).2).synth = none := hy
    rw [buffer_proxy hy'] at h
    cases h
    exact ⟨_, rfl, rfl, rfl, rfl, .inl ⟨hy, rfl, rfl⟩⟩
  · cases h
  · cases ok <;> cases h
    exact ⟨_, rfl, rfl, rfl, rfl, .inr ⟨hy, rfl, detail, hd, rfl, rfl⟩⟩

structure ClosedBy (st : Relay) (msg : Message) (st' : Relay) : Prop where
  extIsWrite : st'.extIsWrite = st.extIsWrite
  muxBindDetail : st'.muxBindDetail = st.muxBindDetail
  blocked : st'.extSessionBlocked = st.extSessionBlocked
  extBuf : st'.extBuf = if st.synth.isSome then st.extBuf else st.extBuf ++ [msg]
  forgets : (st'.session = st.session ∧ st'.synth = st.synth ∧
      (parseCloseMessage msg.payload).1 ≠ 'S'.toUInt8) ∨
    (st'.session = st.session.closeStatement (parseCloseMessage msg.payload).2 ∧
      (parseCloseMessage msg.payload).1 = 'S'.toUInt8 ∧
      st'.synth = st.synth.map fun synth => synth.closeStatement (parseCloseMessage msg.payload).2)

omit [External] in
theorem closedBy_of_noted (h : Noted st ((st.closeStatement msg.payload).buffer msg) (.inl st')) :
    ClosedBy st msg st' := by
  obtain rfl := h.state
  have hy := closeStatement_synth st msg.payload
  unfold Relay.buffer
  rw [hy]
  unfold Relay.closeStatement
  dsimp only
  by_cases hk : (parseCloseMessage msg.payload).1 = 'S'.toUInt8
  · simp only [hk, if_true]
    split <;> rename_i hs
    · exact ⟨rfl, rfl, rfl, by rw [if_pos hs], .inr ⟨rfl, hk, rfl⟩⟩
    · exact ⟨rfl, rfl, rfl, by rw [if_neg hs], .inr ⟨rfl, hk, rfl⟩⟩
  · simp only [hk, if_false]
    split <;> rename_i hs
    · exact ⟨rfl, rfl, rfl, by rw [if_pos hs], .inl ⟨rfl, rfl, hk⟩⟩
    · exact ⟨rfl, rfl, rfl, by rw [if_neg hs], .inl ⟨rfl, rfl, hk⟩⟩

omit [External] in
theorem ClosedBy.known (h : ClosedBy st msg st') (hs : st'.synth = some synth)
    (hg : synth.getStatement n = some stmt) :
    ∃ synth₀, st.synth = some synth₀ ∧ synth₀.getStatement n = some stmt := by
  rcases h.forgets with ⟨-, hy, -⟩ | ⟨-, -, hy⟩
  · exact ⟨synth, hy ▸ hs, hg⟩
  · rw [hy] at hs
    obtain ⟨synth₀, h₀, rfl⟩ := Option.map_eq_some_iff.mp hs
    exact ⟨synth₀, h₀, (getStatement_closeStatement hg).2⟩

theorem describeTarget_known (h : describeTarget synth payload = .ok stmt) :
    ∃ n, synth.getStatement n = some stmt := by
  unfold describeTarget at h
  split at h
  · split at h
    · cases h
    split at h
    · cases h
    split at h
    · cases h
    · rename_i hg
      cases h
      exact ⟨_, hg⟩
  · cases h

/-- How a round that goes on changes the batch and what the session knows of its statements. -/
inductive Change (tr : Trace Ans) (st st' : Relay) : Prop
  | same : SameBatch st st' → Change tr st st'
  | registered : received tr = some msg → msg.type = msgParse → ⟨.rewriter, rules⟩ ∈ tr →
      Registered (· ∈ tr) st rules msg st' → Change tr st st'
  | bound : received tr = some msg → msg.type = msgBind → BoundTo st msg name st' →
      Change tr st st'
  | closed : received tr = some msg → msg.type = msgClose → ClosedBy st msg st' → Change tr st st'
  | buffered : st.synth = none → msg.type ≠ msgQuery → msg.type ≠ msgParse → msg.type ≠ msgBind →
      st' = { st with extHasExecute := x, extBuf := st.extBuf ++ [msg] } → Change tr st st'
  | ended : BatchOver st st' → Change tr st st'

theorem Step.change (h : Step R st tr (.inl st')) : Change tr st st' := by
  generalize hr : (Sum.inl st' : Flow) = r at h
  cases h with
  | idle =>
    rename_i b _
    cases b <;> cases hr
    exact .same (.refl st)
  | query _ _ hq =>
    have hs := hq.sameBatch
    rw [← hr] at hs
    exact .same hs
  | parse hm ht _ hrules hp =>
    rw [← hr] at hp
    exact .registered hm ht hrules hp.registered
  | bind hm ht _ hb =>
    rw [← hr] at hb
    obtain ⟨name, hb⟩ := hb.boundTo
    exact .bound hm ht hb
  | close hm ht _ hn =>
    rw [← hr] at hn
    exact .closed hm ht (closedBy_of_noted hn)
  | describe =>
    rename_i ok _ _ _ _ _
    cases ok <;> cases hr
    exact .same (.refl st)
  | buffered _ hy hq _ hp hb _ _ _ =>
    cases hr
    exact .buffered hy hq hp hb rfl
  | sync _ _ hs =>
    rw [← hr] at hs
    exact .ended hs.over

theorem Change.mode (h : Change tr st st') : st'.synth.isSome = st.synth.isSome := by
  cases h with
  | same hs => rw [hs.synth]
  | registered _ _ _ hr =>
    rw [hr.synth]
    exact Option.isSome_map
  | bound _ _ hb => rw [hb.synth]
  | closed _ _ hc =>
    rcases hc.forgets with ⟨-, hy, -⟩ | ⟨-, -, hy⟩
    · rw [hy]
    · rw [hy]
      exact Option.isSome_map
  | buffered _ _ _ _ he => rw [he]
  | ended ho => rw [ho.synth]

end Statements

end Pgmux
