import Pgmux.Step

namespace Pgmux

open Interaction

section Written

variable [External] {P : ConnId → Message → Prop}

def Written (P : ConnId → Message → Prop) (t : Trace Ans) : Prop :=
  ∀ c m ok, ⟨.write c m, ok⟩ ∈ t → P c m

def writes (tr : Trace Ans) : List (ConnId × Message) :=
  tr.filterMap fun e =>
    match e with
    | ⟨.write c m, _⟩ => some (c, m)
    | _ => none

theorem mem_writes : (c, m) ∈ writes tr ↔ ∃ ok, ⟨.write c m, ok⟩ ∈ tr := by
  unfold writes
  rw [List.mem_filterMap]
  constructor
  · rintro ⟨⟨o, x⟩, hm, he⟩
    cases o <;> cases he
    exact ⟨x, hm⟩
  · rintro ⟨ok, hm⟩
    exact ⟨_, hm, rfl⟩

theorem Written.of_mem (h : Written P tr) (hm : (c, m) ∈ writes tr) : P c m := by
  obtain ⟨ok, hm⟩ := mem_writes.mp hm
  exact h c m ok hm

def OwnQuery (tr : Trace Ans) (m : Message) : Prop :=
  m = queryMessage currentLSNQuery ∨ ∃ cfg : Config, ⟨.config, cfg⟩ ∈ tr ∧
    m = queryMessage cfg.resetQuery

instance (tr : Trace Ans) (m : Message) : Decidable (OwnQuery tr m) :=
  decidable_of_iff (m = queryMessage currentLSNQuery ∨
    ∃ cfg ∈ configsSeen tr, m = queryMessage cfg.resetQuery)
    (or_congr Iff.rfl (exists_congr fun _ => and_congr mem_answers Iff.rfl))

def resetsSeen (tr : Trace Ans) (q : Bytes) : Prop :=
  ∃ cfg : Config, ⟨.config, cfg⟩ ∈ tr ∧ cfg.resetQuery = q

theorem configured_resetsSeen (tr : Trace Ans) : Configured (resetsSeen tr) tr :=
  fun cfg h => ⟨cfg, h, rfl⟩

def OwnQueries (R : Bytes → Prop) (P : ConnId → Message → Prop) : Prop :=
  ∀ c, P c (queryMessage currentLSNQuery) ∧ ∀ q, R q → P c (queryMessage q)

theorem ownQueries_of (h : ∀ c m, OwnQuery tr m → P c m) : OwnQueries (resetsSeen tr) P := by
  intro c
  refine ⟨h c _ (.inl rfl), ?_⟩
  rintro q ⟨cfg, hc, rfl⟩
  exact h c _ (.inr ⟨cfg, hc, rfl⟩)

theorem Written.nil : Written P ([] : Trace Ans) := fun _ _ _ h => nomatch h

theorem Written.append (h₁ : Written P t₁) (h₂ : Written P t₂) : Written P (t₁ ++ t₂) := by
  intro c m ok hm
  rcases List.mem_append.mp hm with hm | hm
  · exact h₁ c m ok hm
  · exact h₂ c m ok hm

theorem Written.cons (h : Written P t) (he : ∀ c m, e.1 ≠ .write c m) : Written P (e :: t) := by
  intro c m ok hm
  rcases List.mem_cons.mp hm with rfl | hm
  · exact (he c m rfl).elim
  · exact h c m ok hm

theorem Written.write (h : Written P t) (hp : P c m) : Written P (⟨.write c m, ok⟩ :: t) := by
  intro c' m' ok' hm
  rcases List.mem_cons.mp hm with he | hm
  · cases he
    exact hp
  · exact h c' m' ok' hm

theorem written_conn (h : Written P (conn tr)) : Written P tr := by
  intro c m ok hm
  exact h c m ok (List.mem_filter.mpr ⟨hm, rfl⟩)

theorem writes_conn (tr : Trace Ans) : writes (conn tr) = writes tr := by
  unfold writes conn
  rw [List.filterMap_filter]
  refine List.filterMap_congr fun e _ => ?_
  obtain ⟨o, x⟩ := e
  cases o <;> rfl

theorem Reads.written (h : Reads c t) : Written P t := by
  intro c' m ok hm
  obtain ⟨r, hr⟩ := h _ hm
  cases hr

theorem Sent.written (h : Sent c ms t ok) (hp : ∀ m ∈ ms, P c m) : Written P t := by
  induction h with
  | done => exact .nil
  | fail => exact Written.nil.write (hp _ (.head _))
  | more _ ih =>
    exact (ih fun m hm => hp m (.tail _ hm)).write (hp _ (.head _))

theorem Exchange.written (h : Exchange c ms t ok) (hp : ∀ m ∈ ms, P c m) : Written P t := by
  cases h with
  | unsent h => exact h.written hp
  | sent h hr => exact (h.written hp).append hr.reads.written

theorem Drained.written (h : Drained c t ok) : Written P t := by
  induction h with
  | broken => exact Written.nil.cons (by simp)
  | error => exact Written.nil.cons (by simp)
  | ready => exact Written.nil.cons (by simp)
  | more _ _ _ ih => exact ih.cons (by simp)

theorem Probed.written (h : Probed c q t ok) (hp : P c (queryMessage q)) : Written P t := by
  cases h with
  | unsent => exact Written.nil.write hp
  | sent h => exact h.written.write hp

theorem HandedBack.written (h : HandedBack R c p dirty t) (hp : OwnQueries R P) :
    Written P t := by
  cases h with
  | plain => exact Written.nil.cons (by simp)
  | reset hq h => exact (h.written ((hp c).2 _ hq)).append (Written.nil.cons (by simp))
  | failed hq h => exact (h.written ((hp c).2 _ hq)).append (Written.nil.cons (by simp))

theorem Tracked.written (h : Tracked c t) (hp : OwnQueries R P) : Written P t := by
  rcases h with rfl | ⟨ok, h⟩
  · exact .nil
  · exact h.written (hp c).1

theorem Visit.written (h : Visit R strict ms t) (hp : OwnQueries R P)
    (hm : ∀ c, ∀ m ∈ ms, P c m) : Written P t := by
  cases h with
  | look => exact Written.nil.cons (by simp)
  | refused => exact Written.nil.cons (by simp)
  | failed hx =>
    exact ((hx.written (hm _)).append (Written.nil.cons (by simp))).cons (by simp)
  | served hx hb => exact ((hx.written (hm _)).append (hb.written hp)).cons (by simp)

theorem Visits.written (h : Visits R strict ms t) (hp : OwnQueries R P)
    (hm : ∀ c, ∀ m ∈ ms, P c m) : Written P t := by
  induction h with
  | nil => exact .nil
  | cons hv _ ih => exact (hv.written hp hm).append ih

theorem Finish.written (h : Finish R st c acquired p₁ s d ending rebinding leaving t r)
    (hp : OwnQueries R P) : Written P t := by
  cases h with
  | bind => exact .nil
  | keep => exact .nil
  | unbind _ hh => exact hh.written hp
  | back _ hh => exact hh.written hp

def WriterConn (st : Relay) (t : Trace Ans) (c : ConnId) : Prop :=
  st.boundConn = some c ∨ ∃ p, ⟨.writerPool, p⟩ ∈ t ∧ ⟨.acquire p, some c⟩ ∈ t

theorem Obtained.written (h : Obtained b p₁ t r) : Written P t := by
  cases h with
  | bound => exact Written.nil.cons (by simp)
  | fresh => exact ((Written.nil.cons (by simp)).cons (by simp)).cons (by simp)
  | refused => exact ((Written.nil.cons (by simp)).cons (by simp)).cons (by simp)
  | barred => exact Written.nil.cons (by simp)

theorem Obtained.writerConn (h : Obtained st.boundConn p₁ t (some (c, acquired))) :
    WriterConn st (t ++ rest) c := by
  cases h with
  | bound hb => exact .inl hb
  | fresh =>
    rename_i p₂ _
    exact .inr ⟨p₂, by simp, by simp⟩

theorem Dropped.written (h : Dropped st c p₁ acquired t st') : Written P t := by
  cases h with
  | fresh => exact Written.nil.cons (by simp)
  | bound => exact Written.nil.cons (by simp)
  | unbound => exact .nil

theorem WriterPath.written (h : WriterPath R panics st ms fin t r) (hp : OwnQueries R P)
    (hm : ∀ c, WriterConn st t c → ∀ m ∈ ms, P c m)
    (hfin : ∀ s c acquired p₁ tr r, Runs (fin { st with session := s } c acquired p₁) tr r →
      Configured R tr → Written P (conn tr)) : Written P t := by
  cases h with
  | refused ho => exact ho.written
  | failed ho hx hd =>
    exact ho.written.append ((hx.written (hm _ ho.writerConn)).append hd.written)
  | panicked ho _ hx ht =>
    exact ho.written.append ((hx.written (hm _ ho.writerConn)).append (ht.written hp))
  | served ho hx ht _ hr hR =>
    exact ho.written.append ((hx.written (hm _ ho.writerConn)).append
      ((ht.written hp).append (hfin _ _ _ _ _ _ hr hR)))

theorem ReaderPath.written (h : ReaderPath R st ms t r) (hp : OwnQueries R P)
    (hb : ∀ l, st.boundReader = some l → ∀ m ∈ ms, P l.conn m)
    (hm : st.boundReader = none → ∀ c, ∀ m ∈ ms, P c m) : Written P t := by
  cases h with
  | kept hl hx => exact hx.written (hb _ hl)
  | released hl hx => exact (hx.written (hb _ hl)).append (Written.nil.cons (by simp))
  | broken hl hx => exact (hx.written (hb _ hl)).append (Written.nil.cons (by simp))
  | bound hl _ hv hx =>
    exact (hv.written hp (hm hl)).append ((hx.written (hm hl _)).cons (by simp))
  | visits hl hv => exact hv.written hp (hm hl)

theorem ReaderGone.written (h : ReaderGone R st t st') (hp : OwnQueries R P) : Written P t := by
  cases h with
  | absent => exact .nil
  | released _ hh => exact hh.written hp

theorem Unexecuted.written (h : Unexecuted R st t st') (hp : OwnQueries R P) : Written P t := by
  rcases h with ⟨rfl, -⟩ | hg
  · exact .nil
  · exact hg.written hp

theorem QueryStep.written (h : QueryStep R seen st msg t r) (hp : OwnQueries R P)
    (hm : ∀ c, P c msg) : Written P t := by
  have hmsg : ∀ c, ∀ m ∈ [msg], P c m := by
    intro c m h
    obtain rfl := List.mem_singleton.mp h
    exact hm c
  cases h with
  | blocked => exact .nil
  | readOnly => exact .nil
  | write _ _ _ _ _ _ _ hx =>
    exact hx.written hp (fun c _ => hmsg c) fun s c acquired p₁ tr r hr hR =>
      (finishQuery_finish hr hR).written hp
  | read _ _ _ _ _ hv => exact hv.written hp hmsg

theorem WriterConn.mono (h : WriterConn { st with boundReader := l } t c) :
    WriterConn st (t₀ ++ t) c := by
  rcases h with h | ⟨p, h₁, h₂⟩
  · exact .inl h
  · exact .inr ⟨p, List.mem_append_right _ h₁, List.mem_append_right _ h₂⟩

theorem SyncStep.written (h : SyncStep R seen st msg t r) (hp : OwnQueries R P)
    (hmux : ∀ synth detail query, st.synth = some synth → st.muxBindDetail = some detail →
      synth.synthesize detail.statementName detail.parameters detail.formatCodes = some query →
      Unblocked seen st → ∀ c, P c (queryMessage query))
    (hbound : st.synth = none → Unblocked seen st → ∀ l, st.boundReader = some l →
      st.readsBatch → ∀ m ∈ st.extBuf ++ [msg], P l.conn m)
    (hread : st.synth = none → Unblocked seen st → st.boundReader = none →
      st.readsBatch → ∀ c, ∀ m ∈ st.extBuf ++ [msg], P c m)
    (hwrite : st.synth = none → Unblocked seen st → st.readsBatch = false →
      ∀ c, WriterConn st t c → ∀ m ∈ st.extBuf ++ [msg], P c m) : Written P t := by
  have hsingle : ∀ query, (∀ c, P c (queryMessage query)) →
      ∀ c, ∀ m ∈ [queryMessage query], P c m := by
    intro query h c m hm
    obtain rfl := List.mem_singleton.mp hm
    exact h c
  cases h with
  | rejected hg => exact hg.written hp
  | noBind _ _ hu => exact hu.written hp
  | synthFailed _ _ _ hu => exact hu.written hp
  | synthRead hy hd hq hb _ hv =>
    exact hv.written hp (hsingle _ (hmux _ _ _ hy hd hq hb))
  | synthWrite hy hd hq hb _ hg hx =>
    refine (hg.written hp).append (hx.written hp (fun c _ => ?_) ?_)
    · exact hsingle _ (hmux _ _ _ hy hd hq hb) c
    · exact fun s c acquired p₁ tr r hr hR => (finishSynthesized_finish hr hR).written hp
  | batchRead hy hb hr hx =>
    exact hx.written hp (fun l hl => hbound hy hb l hl hr) fun hl => hread hy hb hl hr
  | batchWrite hy hb hr hg hx =>
    refine (hg.written hp).append (hx.written hp (fun c hc => ?_) ?_)
    · rw [hg.same] at hc
      exact hwrite hy hb hr c hc.mono
    · exact fun s c acquired p₁ tr r hr hR => (finishBatch_finish hr hR).written hp

end Written

end Pgmux
