import Pgmux.SessionTrace

namespace Pgmux

open Interaction

section Handling

variable [External] {st st' : Relay} {tr t : Trace Ans}

inductive Handled (st : Relay) (msg : Message) (st' : Relay) : Trace Ans → Prop
  | limited : Runs rateLimited t₁ (some text) → Runs (reject text) t₂ () → st' = st →
      Handled st msg st' (t₁ ++ t₂)
  | query : Runs rateLimited t₁ none → msg.type = msgQuery →
      Runs (handleQuery st msg) t₂ (.inl st') → Handled st msg st' (t₁ ++ t₂)
  | extended : Runs rateLimited t₁ none → msg.type ≠ msgQuery →
      Runs (handleExtended st msg) t₂ (.inl st') → Handled st msg st' (t₁ ++ t₂)

theorem relayStep_handled (h : Runs (relayStep st) tr (.inl st')) :
    ∃ b msg m t, tr = ⟨.ctxDone, b⟩ :: ⟨.readClient, .message msg⟩ :: ⟨.inMaintenance, m⟩ :: t ∧
      Handled st msg st' t := by
  cases relayStep_ways h with
  | limited h₁ h₂ => exact ⟨_, _, _, _, rfl, .limited h₁ h₂ rfl⟩
  | query ht h₁ h₂ => exact ⟨_, _, _, _, rfl, .query h₁ ht h₂⟩
  | extended ht _ h₁ h₂ => exact ⟨_, _, _, _, rfl, .extended h₁ ht h₂⟩

theorem reject_ops : Within (fun o => ∃ m, o = .sendClient m) (reject text) :=
  .bind (.bind (within_perform ⟨_, rfl⟩) fun _ => within_pure _) fun _ =>
    .bind (within_perform ⟨_, rfl⟩) fun _ => within_pure _

theorem rateLimited_ops : Within (fun o => ∃ scope, o = .allow scope) rateLimited :=
  .bind (within_perform ⟨_, rfl⟩) fun _ => .ite (.bind (within_perform ⟨_, rfl⟩) fun _ => .ite
    (.bind (within_perform ⟨_, rfl⟩) fun _ => .ite (within_pure _) (within_pure _))
    (within_pure _)) (within_pure _)

def allowAnswers (tr : Trace Ans) : List Bool :=
  answers (.allow .all) tr ++ answers (.allow .user) tr ++ answers (.allow .ip) tr

theorem allowAnswers_subset (h : t ⊆ tr) : allowAnswers t ⊆ allowAnswers tr := by
  intro x hx
  simp only [allowAnswers, List.mem_append] at hx ⊢
  rcases hx with (hx | hx) | hx
  · exact Or.inl (Or.inl (answers_subset h hx))
  · exact Or.inl (Or.inr (answers_subset h hx))
  · exact Or.inr (answers_subset h hx)

theorem rateLimited_refused (h : Runs rateLimited tr (some text)) : false ∈ allowAnswers tr := by
  unfold rateLimited at h
  rw [runs_perform_bind] at h
  obtain ⟨b₁, t, h, rfl⟩ := h
  unfold allowAnswers
  cases b₁ with
  | false =>
    refine List.mem_append_left _ (List.mem_append_left _ (mem_answers.mpr ?_))
    exact .head _
  | true =>
    simp only [if_true, runs_perform_bind] at h
    obtain ⟨b₂, t, h, rfl⟩ := h
    cases b₂ with
    | false =>
      refine List.mem_append_left _ (List.mem_append_right _ (mem_answers.mpr ?_))
      exact .tail _ (.head _)
    | true =>
      simp only [if_true, runs_perform_bind] at h
      obtain ⟨b₃, t, h, rfl⟩ := h
      cases b₃ with
      | false =>
        refine List.mem_append_right _ (mem_answers.mpr ?_)
        exact .tail _ (.tail _ (.head _))
      | true => simp at h

theorem routedType_ops : Within (fun o => o = .config) (routedType route query pq) := by
  cases route with
  | reader => exact within_pure _
  | writer =>
    refine .bind (within_perform rfl) fun cfg => ?_
    split
    · exact within_pure _
    · exact .bind (within_perform rfl) fun _ => within_pure _

theorem Footprint.unsent {q : Proc α} (h : Footprint ks q)
    (hs : ks.all (fun k => !([.send, .ready].contains k))) (hr : Runs q t x) :
    ⟨.sendClient m, b⟩ ∉ t := by
  have hw : Within (· ≠ .sendClient m) q := by
    refine h.avoids _ hs fun o ho => ?_
    rintro rfl
    cases hm : m.isReady <;> simp [Op.kind, hm] at ho
  exact fun hm => hw t x hr _ hm rfl

theorem fallback_conn (h : Runs (fallback reset ms) tr ok) : conn tr ≠ [] := by
  obtain ⟨p, t, h, rfl⟩ := runs_perform_bind.mp h
  simp [conn_cons, Op.onConn]

theorem onWriter_conn (h : Runs (onWriter st exchange fin) tr r) : conn tr ≠ [] := by
  obtain ⟨p, t, h, rfl⟩ := runs_perform_bind.mp h
  simp [conn_cons, Op.onConn]

theorem readOn_conn {relay : ConnId → Proc (Option (Option Bytes))}
    {store : Option Bytes → Proc Bool}
    {fb : Proc Bool} (hfb : ∀ tr ok, Runs fb tr ok → conn tr ≠ [])
    (h : Runs (readOn addr ms breakOnSend relay store fb) tr ok) : conn tr ≠ [] := by
  cases readOn_ways h with
  | passed h₀ _ h =>
    rw [conn_append, h₀.conn rfl]
    exact hfb _ _ h
  | refused => simp [conn_cons, Op.onConn]
  | reached => simp [conn_cons, Op.onConn]

theorem handleReadQueryTraced_cached
    (h : Runs (handleReadQueryTraced msg query s pq cfg dbName) tr ok) (hc : conn tr = []) :
    ∀ m b, ⟨.sendClient m, b⟩ ∉ tr := by
  intro m b hm
  cases handleReadQueryTraced_ways h with
  | hit h₁ =>
    rcases List.mem_append.mp hm with hm | hm
    · exact lookupRead_foot.unsent rfl h₁ hm
    · simp at hm
  | missed h₁ h₂ =>
    rw [conn_append, List.append_eq_nil_iff] at hc
    exact readOn_conn (fun _ _ hf => fallback_conn hf) h₂ hc.2

theorem Obtained.writer_bound {t : Trace Ans}
    (h : Obtained st.boundConn p₁ t (some (c, acquired))) :
    (acquired = false → st.boundWriter.isSome) ∧
      (acquired = true → st.boundWriter = none) := by
  cases h with
  | bound hb =>
    refine ⟨fun _ => ?_, nofun⟩
    cases hw : st.boundWriter with
    | some lease => rfl
    | none => simp [Relay.boundConn, hw] at hb
  | fresh hb => exact ⟨nofun, fun _ => by simpa [Relay.boundConn] using hb⟩

theorem WriterPath.finished (h : WriterPath R panics st ms fin t (.inl st')) :
    ∃ lsn c acquired p tr,
    (acquired = false → st.boundWriter.isSome) ∧
    (acquired = true → st.boundWriter = none) ∧
    Runs (fin { st with session := st.session.setLastWriteLSN lsn } c acquired p) tr
      (.inl st') := by
  cases h with
  | served ho _ _ hs hr =>
    obtain ⟨lsn, rfl⟩ := hs
    obtain ⟨hkept, hnew⟩ := ho.writer_bound
    exact ⟨lsn, _, _, _, _, hkept, hnew, hr⟩

omit [External] in
theorem proceed_inl (h : proceed ok st = .inl st') : ok = true ∧ st' = st := by
  cases ok with
  | true => exact ⟨rfl, (Sum.inl.inj h).symm⟩
  | false => cases h

omit [External] in
theorem Noted.inl (h : Noted st₀ st (.inl st')) : st' = st := by
  obtain ⟨ok, -, he⟩ := h
  exact (proceed_inl he.symm).2

omit [External] in
theorem map_endBatch_inl {flow : Flow} (h : flow.map Relay.endBatch id = .inl st') :
    ∃ st₁, flow = .inl st₁ ∧ st' = st₁.endBatch := by
  cases flow with
  | inl st₁ => exact ⟨st₁, rfl, (Sum.inl.inj h).symm⟩
  | inr st₁ => cases h

theorem routedType_write (h : Runs (routedType route query pq) t .write)
    (hpq : ∀ tree, pq = some tree → PgQuery.parse query = some tree) :
    ∃ cfg ∈ configsSeen t, classifyBy cfg.astParser query = .write := by
  cases route with
  | reader =>
    obtain ⟨-, he⟩ := runs_pure.mp h
    cases he
  | writer =>
    obtain ⟨cfg, hcfg, he⟩ := classifyQueryParsed_type h hpq
    exact ⟨cfg, mem_answers.mpr hcfg, he.symm⟩

theorem guardedQuery_bound (st : Relay) (cfg : Config) (text : Bytes) (pq : Option PgQuery.Tree) :
    (st.guardedQuery cfg text pq).boundWriter = st.boundWriter ∧
      (st.guardedQuery cfg text pq).boundReader = st.boundReader ∧
      (st.guardedQuery cfg text pq).session.inTransaction = st.session.inTransaction := by
  unfold Relay.guardedQuery
  split
  · refine ⟨rfl, rfl, ?_⟩
    simp only [Relay.pin, Session.pin]
    split <;> rfl
  · exact ⟨rfl, rfl, rfl⟩

end Handling

end Pgmux
