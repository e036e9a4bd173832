import Pgmux.SessionCalls
import Pgmux.Statements

namespace Pgmux

open Interaction

section SessionTrace

variable [External] {st : Relay} {P : TimedCall → Prop}

def Called (P : TimedCall → Prop) (s s' : Session) : Prop :=
  ∃ calls, s' = s.run calls ∧ ∀ e ∈ calls, P e

theorem Called.refl (s : Session) : Called P s s := ⟨[], rfl, fun _ he => nomatch he⟩

theorem Called.trans (h₁ : Called P s s₁) (h₂ : Called P s₁ s₂) : Called P s s₂ := by
  obtain ⟨calls₁, rfl, hP₁⟩ := h₁
  obtain ⟨calls₂, rfl, hP₂⟩ := h₂
  refine ⟨calls₁ ++ calls₂, by simp [Session.run], ?_⟩
  exact List.forall_mem_append.mpr ⟨hP₁, hP₂⟩

theorem Called.one (now : Nat) (c : SessionCall) (hc : P (now, c)) :
    Called P s (s.call now c) :=
  ⟨[(now, c)], rfl, by simpa using hc⟩

theorem Called.mono (h : Called P s s') (hP : ∀ e, P e → P' e) : Called P' s s' := by
  obtain ⟨calls, rfl, he⟩ := h
  exact ⟨calls, rfl, fun e hm => hP e (he e hm)⟩

def Timed (tr : Trace Ans) (e : TimedCall) : Prop :=
  match e.2 with
  | .query _ => ⟨.now, e.1⟩ ∈ tr
  | .parse _ _ => ⟨.now, e.1⟩ ∈ tr
  | _ => True

theorem Timed.mono {t t' : Trace Ans} (h : Timed t e) (ht : ∀ x ∈ t, x ∈ t') : Timed t' e := by
  obtain ⟨now, c⟩ := e
  cases c with
  | query text => exact ht _ h
  | parse name text => exact ht _ h
  | _ => trivial

def BatchCall (tr : Trace Ans) (e : TimedCall) : Prop :=
  Timed tr e ∧ ∀ lsn, e.2 ≠ .setLastWriteLSN lsn

theorem Finish.session (h : Finish R st c acquired p₁ s d ending rebinding leaving t r) :
    (Flow.state r).session = s := by
  rw [h.left]

theorem Dropped.session (h : Dropped st c p₁ acquired t st') : st'.session = st.session := by
  cases h with
  | fresh => rfl
  | bound => rfl
  | unbound => rfl

theorem configured_all (tr : Trace Ans) : Configured (fun _ => True) tr := fun _ _ => trivial

theorem finishQuery_session (h : Runs (finishQuery st query c acquired p was now) tr r) :
    (Flow.state r).session = st.session :=
  (finishQuery_finish h (configured_all tr)).session

theorem applyTxFlags_called (st : Relay) :
    Called (BatchCall tr) st.session st.applyTxFlags.session := by
  have hset : ∀ (s : Session) (b : Bool), Called (BatchCall tr) s (s.setInTransaction b) :=
    fun s b => .one 0 (.setInTransaction b) ⟨trivial, by simp⟩
  unfold Relay.applyTxFlags
  dsimp only
  split
  · split
    · exact (hset _ _).trans (hset _ _)
    · exact hset _ _
  · split
    · exact hset _ _
    · exact .refl _

theorem onWriter_session {exchange : ConnId → Proc (Outcome Session)}
    {finish : Relay → ConnId → Bool → PoolId → Proc Flow}
    (h : Runs (onWriter st exchange finish) tr r)
    (hx : ∀ c t s, Runs (exchange c) t (.done s) → Called P st.session s)
    (hf : ∀ st c acquired p t r, Runs (finish st c acquired p) t r →
      Called P st.session (Flow.state r).session) :
    Called P st.session (Flow.state r).session := by
  cases onWriter_ways h with
  | refused => exact .refl _
  | dropped _ _ h₃ =>
    rw [state_inr, (dropWriter_dropped h₃).session]
    exact .refl _
  | panicked => exact .refl _
  | finished _ h₂ h₃ => exact (hx _ _ _ h₂).trans (hf _ _ _ _ _ _ h₃)

theorem handleWriteQuery_session
    (h : Runs (handleWriteQuery c msg query s pq qtype cfg) tr (.done s'))
    (hpq : TreeOf query pq) : Called (Timed t) s s' := by
  cases handleWriteQuery_conn h hpq with
  | done hs => exact hs.elim fun lsn he => he ▸ .one 0 (.setLastWriteLSN lsn) trivial

theorem forwardFor_session (h : Runs (forwardFor s ms c) tr (.done s')) : s' = s := by
  obtain ⟨t₁, ok, t₂, -, h, rfl⟩ := h.of_bind
  cases ok with
  | true =>
    obtain ⟨-, he⟩ := runs_pure.mp h
    cases he
    rfl
  | false =>
    obtain ⟨-, he⟩ := runs_pure.mp h
    cases he

theorem Guarded.called (h : Guarded st st₁) : Called (BatchCall tr) st.session st₁.session := by
  rcases h with rfl | ⟨feature, rfl⟩
  · exact .refl _
  · exact .one 0 (.pin feature.name) ⟨trivial, by simp⟩

theorem routeQuery_session (h : Runs (routeQuery st msg query pq cfg) tr r)
    (hpq : TreeOf query pq) :
    Called (Timed tr) st.session (Flow.state r).session := by
  obtain ⟨now, t₁, qtype, b, t, rfl, -, h⟩ := routeQuery_cases h
  have hq : Called (Timed (⟨.now, now⟩ :: (t₁ ++ ⟨.inReadOnly, b⟩ :: t))) st.session
      (st.routed now query).session :=
    .one now (.query query) (by simp [Timed])
  cases h with
  | rejected _ _ _ he =>
    rw [he]
    exact hq
  | write _ _ hw =>
    apply hq.trans
    refine onWriter_session hw (fun _ _ _ hx => handleWriteQuery_session hx hpq) ?_
    intro _ _ _ _ _ _ hf
    rw [finishQuery_session hf]
    exact .refl _
  | read _ _ he =>
    rw [he, state_proceed]
    exact hq

theorem handleQuery_session (h : Runs (handleQuery st msg) tr r) :
    Called (Timed tr) st.session (Flow.state r).session := by
  rcases handleQuery_routed h with ⟨-, rfl⟩ | ⟨cfg, rules, pq, st₁, t, rfl, hpq, hp, h⟩
  · exact .refl _
  · have hg : Called (BatchCall []) st.session st₁.session := hp.guarded.called
    exact (hg.mono fun e he => he.1.mono (by simp)).trans
      ((routeQuery_session h hpq).mono fun e he => he.mono fun x hx => List.mem_append_right _ hx)

theorem GuardedParse.called (h : GuardedParse st st₁) :
    Called (BatchCall tr) st.session st₁.session := by
  rcases h with rfl | ⟨feature, rfl⟩ | ⟨feature, rfl⟩
  · exact .refl _
  · exact .refl _
  · exact .one 0 (.pin feature.name) ⟨trivial, by simp⟩

omit [External] in
theorem buffer_session (st : Relay) (msg : Message) : (st.buffer msg).session = st.session := by
  unfold Relay.buffer
  split <;> rfl

theorem handleParse_session (h : Runs (handleParse st msg) tr r) :
    Called (BatchCall tr) st.session (Flow.state r).session := by
  obtain ⟨rules, now, t, rfl, cfg, st₁, -, hg, ok, -, rfl⟩ := handleParse_step h
  rw [state_proceed, buffer_session]
  have hparse : Called (BatchCall (⟨.rewriter, rules⟩ :: ⟨.now, now⟩ :: t)) st.session
      (st.registered rules now cfg.astParser msg).session :=
    .one now (.parse (parseNameText msg.payload).1 (parsedText rules msg))
      ⟨by simp [Timed], by simp⟩
  exact hparse.trans hg.guarded.called

theorem handleClose_session (h : Runs (handleClose st msg) tr r) :
    Called (BatchCall tr) st.session (Flow.state r).session := by
  obtain ⟨ok, -, rfl⟩ := handleClose_step h
  rw [state_proceed, buffer_session]
  unfold Relay.closeStatement
  dsimp only
  split
  · exact .one 0 (.close (parseCloseMessage msg.payload).2) ⟨trivial, by simp⟩
  · exact .refl _

theorem handleBind_session (h : Runs (handleBind st msg) tr r) :
    (Flow.state r).session = st.session := by
  rcases handleBind_step h with ⟨-, rfl⟩ | ⟨-, rfl⟩ | ⟨detail, ok, -, -, rfl⟩
  · rw [state_inl, buffer_session]
    rfl
  · rfl
  · rw [state_proceed]
    rfl

theorem handleDescribe_session (h : Runs (handleDescribe st msg) tr r) :
    (Flow.state r).session = st.session := by
  unfold handleDescribe at h
  split at h
  · obtain ⟨t₁, ok, t₂, rfl, -, h⟩ := h.of_seq
    obtain ⟨rfl, rfl⟩ := runs_pure.mp h
    rw [state_proceed]
  · obtain ⟨rfl, rfl⟩ := runs_pure.mp h
    rfl

theorem batchOnWriter_session {finish : Relay → ConnId → Bool → PoolId → Proc Flow}
    (h : Runs (onWriter st (forwardFor st.session ms) finish) tr r)
    (hf : ∀ st c acquired p t r, Runs (finish st c acquired p) t r →
      (Flow.state r).session = st.applyTxFlags.session) :
    Called (BatchCall tr') st.session (Flow.state r).session := by
  refine onWriter_session h (fun c t s hx => ?_) fun st c acquired p t r hr => ?_
  · rw [forwardFor_session hx]
    exact .refl _
  · rw [hf st c acquired p t r hr]
    exact applyTxFlags_called st

theorem ReaderPath.session (h : ReaderPath R st ms t r) :
    (Flow.state r).session = st.session := by
  cases h with
  | kept => rfl
  | released => rfl
  | broken => rfl
  | bound => rfl
  | visits => rw [state_proceed]

omit [External] in
theorem endBatch_session (flow : Flow) :
    (Flow.state (flow.map Relay.endBatch id)).session = (Flow.state flow).session := by
  cases flow <;> rfl

theorem executeSync_session (h : Runs (executeSync st msg) tr r) :
    Called (BatchCall tr') st.session (Flow.state r).session := by
  cases executeSync_ways h with
  | multiplex _ h₁ =>
    cases syncMultiplex_ways h₁ with
    | noBind => exact .refl _
    | failed => exact .refl _
    | executed _ _ hx =>
      rw [endBatch_session]
      unfold executeSynthesizedQuery at hx
      split at hx
      · obtain ⟨addr, t, hread, rfl⟩ := runs_perform_bind.mp hx
        obtain ⟨ok, -, rfl⟩ := hread.of_map
        rw [state_proceed]
        exact .refl _
      · exact batchOnWriter_session hx fun _ _ _ _ t r hr =>
          (finishSynthesized_finish hr (configured_all t)).session
  | read _ _ h₁ =>
    rw [endBatch_session, (readBatch_path h₁ (configured_all tr)).session]
    exact .refl _
  | write _ _ h₁ =>
    rw [endBatch_session]
    exact batchOnWriter_session h₁ fun _ _ _ _ t r hr =>
      (finishBatch_finish hr (configured_all t)).session

theorem handleSync_session (h : Runs (handleSync st msg) tr r) :
    Called (BatchCall tr') st.session (Flow.state r).session := by
  have hs : ∀ {t₀ st₁}, Runs (releaseStaleReader st) t₀ st₁ → st₁.session = st.session := by
    intro t₀ st₁ h₀
    rcases releaseStaleReader_cases h₀ (configured_all t₀) with ⟨-, -, rfl⟩ | ⟨-, hg⟩
    · rfl
    · rw [hg.same]
  have hrej : ∀ {st₁ text t₁ st₂}, Runs (rejectBatch st₁ text) t₁ st₂ →
      st₂.session = st₁.session := by
    intro st₁ text t₁ st₂ h₁
    obtain ⟨st₃, hg, rfl⟩ := rejectBatch_cases h₁ (configured_all t₁)
    rw [hg.same]
    rfl
  cases handleSync_ways h with
  | blocked h₀ _ h₁ =>
    rw [state_inl, hrej h₁, hs h₀]
    exact .refl _
  | readOnly h₀ _ _ h₁ =>
    rw [state_inl, hrej h₁, hs h₀]
    exact .refl _
  | executed h₀ _ _ h₁ =>
    rw [← hs h₀]
    exact executeSync_session h₁

theorem handleExtended_session (h : Runs (handleExtended st msg) tr r) :
    Called (BatchCall tr) st.session (Flow.state r).session := by
  unfold handleExtended at h
  split at h
  · exact handleParse_session h
  split at h
  · rw [handleBind_session h]
    exact .refl _
  split at h
  · exact handleClose_session h
  split at h
  · rw [handleDescribe_session h]
    exact .refl _
  split at h
  · unfold handleExecute at h
    split at h
    all_goals
      obtain ⟨rfl, rfl⟩ := runs_pure.mp h
      exact .refl _
  split at h
  · exact handleSync_session h
  · unfold handleOther at h
    split at h
    all_goals
      obtain ⟨rfl, rfl⟩ := runs_pure.mp h
      exact .refl _

def RoundCall (tr : Trace Ans) (e : TimedCall) : Prop :=
  Timed tr e ∧ ((∃ msg, received tr = some msg ∧ msg.type = msgQuery) ∨
    ∀ lsn, e.2 ≠ .setLastWriteLSN lsn)

theorem relayStep_session (h : Runs (relayStep st) tr r) :
    Called (RoundCall tr) st.session (Flow.state r).session := by
  cases relayStep_ways h with
  | ends => exact .refl _
  | limited => exact .refl _
  | query ht _ h₂ =>
    refine (handleQuery_session h₂).mono fun e he => ⟨he.mono fun x hx => by simp [hx], ?_⟩
    exact .inl ⟨_, rfl, ht⟩
  | extended _ _ _ h₂ =>
    exact (handleExtended_session h₂).mono fun e he =>
      ⟨he.1.mono fun x hx => by simp [hx], .inr he.2⟩

end SessionTrace

end Pgmux
