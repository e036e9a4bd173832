import Pgmux.Handling
import Pgmux.SafeRelay

namespace Pgmux

open Interaction

section Hands

variable [External] {st st' : Relay} {tr t : Trace Ans}

def LentByWriter (c : ConnId) (tr : Trace Ans) : Prop :=
  ∃ p, ⟨.writerPool, p⟩ ∈ tr ∧ ⟨.acquire p, some c⟩ ∈ tr

theorem Obtained.source (h : Obtained w p t (some (c, acquired))) (hsub : ∀ e ∈ t, e ∈ tr) :
    (w = some c ∧ acquired = false) ∨
      (w = none ∧ acquired = true ∧ LentByWriter c tr) := by
  cases h with
  | bound hb => exact .inl ⟨hb, rfl⟩
  | fresh hb =>
    rename_i p₂
    exact .inr ⟨hb, rfl, p₂, hsub _ (by simp), hsub _ (by simp)⟩

def MuxReaderless (st : Relay) : Prop := st.synth.isSome = true → st.boundReader = none

structure SameHands (st st' : Relay) : Prop where
  writer : st'.boundWriter = st.boundWriter
  reader : st'.boundReader = st.boundReader
  mode : st'.synth.isSome = st.synth.isSome

omit [External] in
theorem SameHands.boundConn (h : SameHands st st') : st'.boundConn = st.boundConn :=
  congrArg (Option.map Lease.conn) h.writer

omit [External] in
theorem buffer_sameHands (st : Relay) (msg : Message) : SameHands st (st.buffer msg) := by
  unfold Relay.buffer
  split <;> exact ⟨rfl, rfl, rfl⟩

omit [External] in
theorem SameHands.trans (h₁ : SameHands st st₁) (h₂ : SameHands st₁ st₂) : SameHands st st₂ :=
  ⟨h₂.writer.trans h₁.writer, h₂.reader.trans h₁.reader, h₂.mode.trans h₁.mode⟩

theorem ParseStep.sameHands (h : ParseStep seen st msg rules now (.inl st')) :
    SameHands st st' := by
  obtain ⟨cfg, st₁, -, hg, hn⟩ := h
  rw [hn.inl]
  refine SameHands.trans ?_ (buffer_sameHands _ _)
  have hmode : (st.registered rules now cfg.astParser msg).synth.isSome = st.synth.isSome := by
    simp [Relay.registered, Relay.register]
  rcases hg.guarded with rfl | ⟨_, rfl⟩ | ⟨_, rfl⟩ <;> exact ⟨rfl, rfl, hmode⟩

omit [External] in
theorem BindStep.sameHands (h : BindStep st msg (.inl st')) : SameHands st st' := by
  rcases h with ⟨-, he⟩ | ⟨-, he⟩ | ⟨detail, ok, -, -, he⟩
  · cases he
    have hflags : SameHands st (st.bindFlags (parseBindMessage msg.payload).2) := ⟨rfl, rfl, rfl⟩
    exact hflags.trans (buffer_sameHands _ _)
  · cases he
  · rw [(proceed_inl he.symm).2]
    exact ⟨rfl, rfl, rfl⟩

omit [External] in
theorem closeStatement_sameHands (st : Relay) (payload : Bytes) :
    SameHands st (st.closeStatement payload) := by
  obtain ⟨hw, hr, -⟩ := closeStatement_kept st payload
  exact ⟨hw, hr, closeStatement_synth st payload⟩

/-- A round binds what the writer pool lent, binds no reader in multiplex mode, and keeps the
mode. -/
structure Hands (tr : Trace Ans) (st st' : Relay) : Prop where
  writer : ∀ c, st'.boundConn = some c → st.boundConn = some c ∨ LentByWriter c tr
  reader : MuxReaderless st → MuxReaderless st'
  mode : st'.synth.isSome = st.synth.isSome

theorem SameHands.hands (h : SameHands st st') : Hands tr st st' := by
  refine ⟨fun c hc => .inl (h.boundConn.symm.trans hc), fun hm hs => ?_, h.mode⟩
  rw [h.reader]
  exact hm (h.mode.symm.trans hs)

theorem Hands.of_same (h : SameHands st st₁) (hx : Hands tr st₁ st') : Hands tr st st' := by
  refine ⟨fun c hc => ?_, fun hm => hx.reader fun hs => ?_, hx.mode.trans h.mode⟩
  · rw [← h.boundConn]
    exact hx.writer c hc
  · rw [h.reader]
    exact hm (h.mode.symm.trans hs)

theorem Hands.endBatch {flow : Flow} (h : flow.map Relay.endBatch id = .inl st')
    (hx : ∀ st₁, flow = .inl st₁ → Hands tr st st₁) : Hands tr st st' := by
  obtain ⟨st₁, hf, rfl⟩ := map_endBatch_inl h
  exact ⟨(hx st₁ hf).writer, (hx st₁ hf).reader, (hx st₁ hf).mode⟩

theorem ReaderGone.hands (h : ReaderGone R st t st₁) : Hands tr st st₁ := by
  rw [h.same]
  exact ⟨fun c hc => .inl hc, fun _ _ => rfl, rfl⟩

theorem Hands.trans (h₁ : Hands tr st st₁) (h₂ : Hands tr st₁ st₂) : Hands tr st st₂ := by
  refine ⟨fun c hc => ?_, fun hm => h₂.reader (h₁.reader hm), h₂.mode.trans h₁.mode⟩
  rcases h₂.writer c hc with hc | hl
  · exact h₁.writer c hc
  · exact .inr hl

theorem Unexecuted.hands (h : Unexecuted R st t st₁) : Hands tr st st₁ := by
  rcases h with ⟨-, rfl⟩ | hg
  · exact SameHands.hands ⟨rfl, rfl, rfl⟩
  · exact hg.hands

theorem Finish.hands (h : Finish R st c acquired p s d ending rebinding leaving t (.inl st'))
    (hc : st.boundConn = some c ∨ LentByWriter c tr) : Hands tr st st' := by
  generalize hr : (Sum.inl st' : Flow) = r at h
  have hmode : ∀ {st'}, Left st s st' → st'.synth.isSome = st.synth.isSome := by
    intro st' hl
    rw [hl]
  have hleft : ∀ {st'}, Left st s st' → MuxReaderless st → MuxReaderless st' := by
    intro st' hl hm hs
    rw [hl.boundReader]
    apply hm
    rw [hl] at hs
    exact hs
  cases h with
  | bind _ hl hb _ =>
    cases hr
    refine ⟨fun c' hc' => ?_, hleft hl, hmode hl⟩
    rw [Relay.boundConn, hb] at hc'
    cases hc'
    exact hc
  | keep _ hl hb _ =>
    cases hr
    refine ⟨fun c' hc' => .inl ?_, hleft hl, hmode hl⟩
    rwa [Relay.boundConn, hb] at hc'
  | unbind _ _ _ hl hb =>
    rw [(proceed_inl hr.symm).2]
    refine ⟨fun c' hc' => ?_, hleft hl, hmode hl⟩
    rw [Relay.boundConn, hb] at hc'
    cases hc'
  | back _ _ _ hl hb =>
    cases hr
    refine ⟨fun c' hc' => .inl ?_, hleft hl, hmode hl⟩
    rwa [Relay.boundConn, hb] at hc'

theorem WriterPath.hands (h : WriterPath R panics st ms fin t (.inl st')) (hsub : ∀ e ∈ t, e ∈ tr)
    (hfin : ∀ st c acquired p t' r', Runs (fin st c acquired p) t' r' → Configured R t' →
      ∃ s d ending rebinding leaving,
        Finish R st c acquired p s d ending rebinding leaving (conn t') r') :
    Hands tr st st' := by
  cases h with
  | served ho hx hk hs hr hconf =>
    obtain ⟨s', d, ending, rebinding, leaving, hf⟩ := hfin _ _ _ _ _ _ hr hconf
    refine Hands.trans ?_ (hf.hands ?_)
    · exact SameHands.hands ⟨rfl, rfl, rfl⟩
    rcases ho.source fun e he => hsub e (List.mem_append_left _ he) with ⟨hb, -⟩ | ⟨-, -, hl⟩
    · exact .inl hb
    · exact .inr hl

theorem ReaderPath.hands (h : ReaderPath R st ms t (.inl st')) (hs : st.synth = none) :
    Hands tr st st' := by
  generalize hr : (Sum.inl st' : Flow) = r at h
  have hmode : st.synth.isSome = false := by rw [hs]; rfl
  cases h with
  | kept =>
    cases hr
    exact SameHands.hands ⟨rfl, rfl, rfl⟩
  | released =>
    cases hr
    exact ⟨fun c hc => .inl hc, fun _ _ => rfl, rfl⟩
  | broken => cases hr
  | bound =>
    cases hr
    exact ⟨fun c hc => .inl hc, fun _ hm => absurd (hmode.symm.trans hm) (by simp), rfl⟩
  | visits =>
    rw [(proceed_inl hr.symm).2]
    exact SameHands.hands ⟨rfl, rfl, rfl⟩

theorem SyncStep.hands (h : SyncStep R (· ∈ tr) st msg (conn tr) (.inl st')) :
    Hands tr st st' := by
  have hsub : ∀ e ∈ conn tr, e ∈ tr := fun e he => List.mem_of_mem_filter he
  generalize hconn : conn tr = t at h hsub
  generalize hr : (Sum.inl st' : Flow) = r at h
  cases h with
  | rejected hg =>
    cases hr
    exact hg.hands.trans (SameHands.hands ⟨rfl, rfl, rfl⟩)
  | noBind hy hd hu =>
    cases hr
    exact hu.hands.trans (SameHands.hands ⟨rfl, rfl, rfl⟩)
  | synthFailed hy hd hn hu =>
    cases hr
    exact hu.hands.trans (SameHands.hands ⟨rfl, rfl, rfl⟩)
  | synthRead hy hd hs hu hr' hv =>
    refine Hands.endBatch hr.symm fun st₁ he => ?_
    rw [(proceed_inl he).2]
    exact SameHands.hands ⟨rfl, rfl, rfl⟩
  | synthWrite hy hd hs hu hr' hg hw =>
    refine Hands.endBatch hr.symm fun st₁ he => ?_
    subst he
    refine hg.hands.trans (hw.hands (fun e he => hsub e (List.mem_append_right _ he)) ?_)
    intro st c acquired p t' r' hrun hc
    exact ⟨_, _, _, _, _, finishSynthesized_finish hrun hc⟩
  | batchRead hy hu hr' hx =>
    refine Hands.endBatch hr.symm fun st₁ he => ?_
    subst he
    exact hx.hands hy
  | batchWrite hy hu hr' hg hw =>
    refine Hands.endBatch hr.symm fun st₁ he => ?_
    subst he
    refine hg.hands.trans (hw.hands (fun e he => hsub e (List.mem_append_right _ he)) ?_)
    intro st c acquired p t' r' hrun hc
    exact ⟨_, _, _, _, _, finishBatch_finish hrun hc⟩

theorem QueryStep.hands (h : QueryStep R (· ∈ tr) st msg (conn tr) (.inl st')) :
    Hands tr st st' := by
  have hsub : ∀ e ∈ conn tr, e ∈ tr := fun e he => List.mem_of_mem_filter he
  generalize hconn : conn tr = t at h hsub
  generalize hr : (Sum.inl st' : Flow) = r at h
  have hguard : ∀ {st₁ now text}, Guarded st st₁ → SameHands st (st₁.routed now text) := by
    intro st₁ now text hg
    refine ⟨hg.kept.1, hg.kept.2.1, ?_⟩
    rcases hg with rfl | ⟨_, rfl⟩ <;> rfl
  cases h with
  | blocked =>
    cases hr
    exact SameHands.hands ⟨rfl, rfl, rfl⟩
  | readOnly _ _ hg _ =>
    cases hr
    exact (hguard hg.guarded).hands
  | read _ _ hg _ _ _ =>
    rw [(proceed_inl hr.symm).2]
    exact (hguard hg.guarded).hands
  | write _ _ hg _ _ _ _ hw =>
    subst hr
    refine .of_same (hguard hg.guarded) (hw.hands hsub ?_)
    intro st c acquired p t' r' hrun hc
    exact ⟨_, _, _, _, _, finishQuery_finish hrun hc⟩

theorem relayStep_hands (h : Runs (relayStep st) tr (.inl st')) : Hands tr st st' := by
  have hstep := relayStep_step h (configured_all tr)
  generalize hr : (Sum.inl st' : Flow) = r at hstep
  cases hstep with
  | idle =>
    rw [(proceed_inl hr.symm).2]
    exact SameHands.hands ⟨rfl, rfl, rfl⟩
  | query _ _ hx =>
    subst hr
    exact hx.hands
  | parse _ _ _ _ hx =>
    subst hr
    exact hx.sameHands.hands
  | bind _ _ _ hx =>
    subst hr
    exact hx.sameHands.hands
  | close _ _ _ hn =>
    subst hr
    rw [hn.inl]
    exact ((closeStatement_sameHands _ _).trans (buffer_sameHands _ _)).hands
  | describe =>
    rw [(proceed_inl hr.symm).2]
    exact SameHands.hands ⟨rfl, rfl, rfl⟩
  | buffered =>
    cases hr
    exact SameHands.hands ⟨rfl, rfl, rfl⟩
  | sync _ _ hx =>
    subst hr
    exact hx.hands

/-- A writer that is bound at a round was bound before, or the writer pool lent it in a round. -/
theorem rounds_lent (h : Rounds relayStep st rs b) (hrs : rs = pre ++ a :: post)
    (hc : a.1.boundConn = some c) :
    st.boundConn = some c ∨ ∃ a₀ ∈ pre, LentByWriter c a₀.2 := by
  induction h generalizing pre with
  | leave hrun =>
    rcases List.cons_eq_append_iff.mp hrs with ⟨rfl, he⟩ | ⟨past', rfl, he⟩
    · cases he
      exact .inl hc
    · simp at he
  | again hrun hrest ih =>
    cases pre with
    | nil =>
      cases hrs
      exact .inl hc
    | cons a₀ pre =>
      cases hrs
      rcases ih rfl with hb | ⟨a₁, ha₁, hl⟩
      · rcases (relayStep_hands hrun).writer c hb with hb | hl
        · exact .inl hb
        · exact .inr ⟨_, .head _, hl⟩
      · exact .inr ⟨a₁, .tail _ ha₁, hl⟩

end Hands

end Pgmux
