import Pgmux.Hands

namespace Pgmux

open Interaction

section Held

variable [External] {st st' : Relay} {tr t : Trace Ans} {r : Flow}

def Relay.carries (st : Relay) (msg m : Message) : Bool :=
  if msg.type = msgQuery then m = msg
  else if msg.type = msgSync then
    if st.synth.isSome then st.synthesized.map queryMessage = some m else m.type ≠ msgQuery
  else false

def Relay.executionOf (st : Relay) (msg : Message) : Event → Option ConnId
  | ⟨.write c m, _⟩ => if st.carries msg m then some c else none
  | _ => none

def executions (st : Relay) (tr : Trace Ans) : List ConnId :=
  match received tr with
  | some msg => tr.filterMap (st.executionOf msg)
  | none => []

theorem mem_executions : c ∈ executions st tr ↔ ∃ msg m ok, received tr = some msg ∧
    ⟨.write c m, ok⟩ ∈ tr ∧ st.carries msg m := by
  unfold executions
  cases received tr with
  | none => simp
  | some msg =>
    simp only [List.mem_filterMap]
    constructor
    · rintro ⟨⟨o, x⟩, he, hx⟩
      cases o with
      | write d m =>
        simp only [Relay.executionOf] at hx
        split at hx
        · rename_i hc
          cases hx
          exact ⟨msg, m, x, rfl, he, hc⟩
        · cases hx
      | _ => cases hx
    · rintro ⟨_, m, ok, hm, he, hc⟩
      cases hm
      exact ⟨_, he, by simp [Relay.executionOf, hc]⟩

def givenBack : Event → Option ConnId
  | ⟨.release _ c, _⟩ => some c
  | ⟨.discard _ c, _⟩ => some c
  | _ => none

def handBacks (tr : Trace Ans) : List ConnId := tr.filterMap givenBack

/-- A connection that the session has is lent to it once more: it is the bound reader, or a pool
hands it out in the round. -/
def LentTwice (st : Relay) (tr : Trace Ans) (c : ConnId) : Prop :=
  st.boundReader.map ReaderLease.conn = some c ∨ ∃ p, ⟨.acquire p, some c⟩ ∈ tr

/-- The statements of a pinned session go to the bound writer, or to one that gets bound, and a
bound writer stays bound. -/
structure Held (st : Relay) (tr t : Trace Ans) (r : Flow) (executed : Message → Prop) : Prop where
  executed : ∀ c m ok, ⟨.write c m, ok⟩ ∈ t → executed m →
    (st.boundConn = some c ∨ st.boundConn = none ∧ LentByWriter c tr) ∧
      ∀ st', r = .inl st' → st'.boundConn = some c
  kept : ∀ c st', st.boundConn = some c → r = .inl st' → st'.boundConn = some c ∧
    (c ∈ handBacks t → LentTwice st tr c)

/-- The end of a writer path on a pinned session: the connection is bound and not touched. -/
def Kept (c : ConnId) (tr : Trace Ans) (r : Flow) : Prop :=
  conn tr = [] ∧ ∃ st', r = .inl st' ∧ st'.boundConn = some c

theorem Finish.kept
    (h : Finish R st c acquired p s d ending rebinding leaving (conn tr) r)
    (hb : acquired = false → st.boundConn = some c) (he : acquired = true → ¬ ending)
    (hl : ¬ leaving) : Kept c tr r := by
  generalize ht : conn tr = t at h
  cases h with
  | bind _ _ hw => exact ⟨ht, _, rfl, by rw [Relay.boundConn, hw]; rfl⟩
  | keep hn _ hw =>
    cases acquired with
    | true => exact absurd (hn rfl) (he rfl)
    | false => exact ⟨ht, _, rfl, by rw [Relay.boundConn, hw]; exact hb rfl⟩
  | unbind _ _ _ _ _ hgo => exact absurd hgo hl
  | back _ _ _ _ _ hgo => exact absurd hgo hl

theorem finishQuery_kept (h : Runs (finishQuery st query c acquired p was now) tr r)
    (hp : st.session.pinned) (hb : acquired = false → st.boundConn = some c)
    (he : acquired = true → was = true → now = true) : Kept c tr r := by
  refine (finishQuery_finish h (configured_all tr)).kept hb ?_ (by simp [hp])
  rintro ha ⟨hwas, hnow⟩
  rw [he ha hwas] at hnow
  cases hnow

theorem finishBatch_kept (h : Runs (finishBatch st c acquired p) tr r)
    (hp : st.session.pinned) (hb : acquired = false → st.boundConn = some c)
    (he : acquired = true → st.extTxEnd = false) : Kept c tr r := by
  have hpin : st.applyTxFlags.session.pinned := by
    unfold Relay.applyTxFlags
    dsimp only
    split <;> split <;> exact hp
  exact (finishBatch_finish h (configured_all tr)).kept hb (fun ha => by simp [he ha])
    (by simp [hpin])

/-- Multiplex mode does not look at the pin: only a BEGIN binds, and only what ends no transaction
stays bound. -/
theorem finishSynthesized_kept (h : Runs (finishSynthesized st c acquired p) tr r)
    (hb : acquired = false → st.boundConn = some c) (hend : st.extTxEnd = false)
    (hs : acquired = true → st.extTxStart) : Kept c tr r := by
  refine (finishSynthesized_finish h (configured_all tr)).kept hb (by simp [hend]) ?_
  rintro ⟨he | ⟨ha, hstart⟩, -⟩
  · rw [hend] at he
    cases he
  · rw [hs ha] at hstart
    cases hstart

theorem mem_handBacks : c ∈ handBacks tr ↔ ∃ e ∈ tr, givenBack e = some c := List.mem_filterMap

theorem Talk.handBacks (h : Talk c t) : handBacks t = [] := by
  apply List.filterMap_eq_nil_iff.mpr
  intro e he
  rcases h e he with ⟨m, ok, rfl⟩ | ⟨x, rfl⟩ <;> rfl

theorem Talk.writes (h : Talk c t) (hw : ⟨.write d m, ok⟩ ∈ t) : d = c := by
  rcases h _ hw with ⟨m', ok', he⟩ | ⟨x, he⟩
  · cases he
    rfl
  · cases he

def Untouched (t : Trace Ans) : Prop :=
  ∀ e ∈ t, givenBack e = none ∧ ∀ c m ok, e ≠ ⟨.write c m, ok⟩

theorem Obtained.untouched (h : Obtained w p t x) : Untouched t := by
  intro e he
  cases h with
  | bound =>
    rw [List.mem_singleton.mp he]
    exact ⟨rfl, by simp⟩
  | barred =>
    rw [List.mem_singleton.mp he]
    exact ⟨rfl, by simp⟩
  | fresh =>
    simp only [List.mem_cons, List.not_mem_nil, or_false] at he
    rcases he with rfl | rfl | rfl <;> exact ⟨rfl, by simp⟩
  | refused =>
    simp only [List.mem_cons, List.not_mem_nil, or_false] at he
    rcases he with rfl | rfl | rfl <;> exact ⟨rfl, by simp⟩

/-- A writer path that ends the session has sent to its connection only. -/
theorem Obtained.held (ho : Obtained st.boundConn p t₀ (some (c, acquired)))
    (hsub : ∀ e ∈ t₀, e ∈ tr) (hw : ∀ d m ok, ⟨.write d m, ok⟩ ∈ t → d = c) (st' : Relay) :
    Held st tr (t₀ ++ t) (.inr st') fun _ => True := by
  refine ⟨fun d m ok hmem _ => ⟨?_, fun _ he => by cases he⟩, fun _ _ _ he => by cases he⟩
  have hd : d = c := by
    rcases List.mem_append.mp hmem with hmem | hmem
    · exact ((ho.untouched _ hmem).2 d m ok rfl).elim
    · exact hw d m ok hmem
  rw [hd]
  rcases ho.source hsub with ⟨hb, -⟩ | ⟨hb, -, hl⟩
  · exact .inl hb
  · exact .inr ⟨hb, hl⟩

theorem WriterPath.held (h : WriterPath R panics st ms fin t r) (hsub : ∀ e ∈ t, e ∈ tr)
    (hp : (Flow.state r).session.pinned = true)
    (hfin : ∀ s c acquired p t' r', SameButLSN st.session s →
      (acquired = true → st.boundWriter = none) → (acquired = false → st.boundConn = some c) →
      Runs (fin { st with session := s } c acquired p) t' r' →
      (Flow.state r').session.pinned = true → Kept c t' r') :
    Held st tr t r fun _ => True := by
  cases h with
  | refused ho =>
    refine ⟨fun c m ok hw _ => ((ho.untouched _ hw).2 c m ok rfl).elim, ?_⟩
    intro c st' _ he
    cases he
  | failed ho hx hd =>
    refine ho.held (fun e he => hsub e (List.mem_append_left _ he)) (fun d m ok hw => ?_) _
    rcases List.mem_append.mp hw with hw | hw
    · exact hx.talk.writes hw
    · cases hd with
      | fresh => cases List.mem_singleton.mp hw
      | bound => cases List.mem_singleton.mp hw
      | unbound => cases hw
  | panicked ho _ hx hk =>
    exact ho.held (fun e he => hsub e (List.mem_append_left _ he))
      (fun d m ok hw => (hx.talk.append hk.talk).writes hw) _
  | served ho hx hk hs hr hconf =>
    rename_i p₁ t₀ c acquired t₁ t₂ s t₃
    have hsrc := ho.source fun e he => hsub e (List.mem_append_left _ he)
    obtain ⟨hconn, st₁, rfl, hb₁⟩ : Kept c t₃ r := by
      refine hfin s c acquired p₁ t₃ r hs ?_ ?_ hr hp
      · rintro rfl
        rcases hsrc with ⟨-, he⟩ | ⟨hb, -⟩
        · cases he
        · simpa [Relay.boundConn] using hb
      · rintro rfl
        rcases hsrc with ⟨hb, -⟩ | ⟨-, he, -⟩
        · exact hb
        · cases he
    rw [hconn, List.append_nil]
    have htalk : Talk c (t₁ ++ t₂) := hx.talk.append hk.talk
    refine ⟨?_, ?_⟩
    · intro d m ok hw _
      have hd' : d = c := by
        rcases List.mem_append.mp hw with hw | hw
        · exact ((ho.untouched _ hw).2 d m ok rfl).elim
        · exact htalk.writes hw
      rw [hd']
      refine ⟨?_, fun st' he => by cases he; exact hb₁⟩
      rcases hsrc with ⟨hb, -⟩ | ⟨hb, -, hl⟩
      · exact .inl hb
      · exact .inr ⟨hb, hl⟩
    · intro d st' hb he
      cases he
      have hd' : d = c := by
        rcases hsrc with ⟨hb', -⟩ | ⟨hb', -⟩
        · exact Option.some.inj (hb.symm.trans hb')
        · rw [hb'] at hb
          cases hb
      rw [hd']
      refine ⟨hb₁, fun hg => ?_⟩
      obtain ⟨e, he, hg⟩ := mem_handBacks.mp hg
      rcases List.mem_append.mp he with he | he
      · rw [(ho.untouched e he).1] at hg
        cases hg
      · have := mem_handBacks.mpr ⟨e, he, hg⟩
        rw [htalk.handBacks] at this
        cases this

theorem HandedBack.writes (h : HandedBack R c p dirty t) (hw : ⟨.write d m, ok⟩ ∈ t) :
    m.type = msgQuery := by
  have hprobe : ∀ {q t ok'}, Probed c q t ok' → ⟨.write d m, ok⟩ ∈ t → m.type = msgQuery := by
    intro q t ok' hp hw
    cases hp with
    | unsent =>
      cases List.mem_singleton.mp hw
      rfl
    | sent hd =>
      rcases List.mem_cons.mp hw with he | hw
      · cases he
        rfl
      · obtain ⟨x, he⟩ := hd.reads _ hw
        cases he
  cases h with
  | plain => cases List.mem_singleton.mp hw
  | reset _ hp =>
    rcases List.mem_append.mp hw with hw | hw
    · exact hprobe hp hw
    · cases List.mem_singleton.mp hw
  | failed _ hp =>
    rcases List.mem_append.mp hw with hw | hw
    · exact hprobe hp hw
    · cases List.mem_singleton.mp hw

theorem Only.handBacks (h : Only c t) (hd : d ∈ handBacks t) : d = c := by
  obtain ⟨e, he, hg⟩ := mem_handBacks.mp hd
  have hc := h e he
  obtain ⟨o, x⟩ := e
  cases o with
  | release p c' =>
    cases hg
    exact Option.some.inj hc
  | discard p c' =>
    cases hg
    exact Option.some.inj hc
  | _ => cases hg

theorem ReaderGone.held {P : Message → Prop} (h : ReaderGone R st t₀ st₁)
    (hP : ∀ m, P m → m.type = msgQuery → t₀ = []) (hx : Held st₁ tr t r P) :
    Held st tr (t₀ ++ t) r P := by
  have hst := h.same
  have hw : st₁.boundConn = st.boundConn := by rw [hst]; rfl
  refine ⟨?_, ?_⟩
  · intro c m ok hm hPm
    rcases List.mem_append.mp hm with hm | hm
    · cases h with
      | absent => cases hm
      | released _ hb =>
        rw [hP m hPm (hb.writes hm)] at hm
        cases hm
    · rw [← hw]
      exact hx.executed c m ok hm hPm
  · intro c st' hb hr
    rw [← hw] at hb
    obtain ⟨hb', hg⟩ := hx.kept c st' hb hr
    refine ⟨hb', fun hc => ?_⟩
    rw [handBacks, List.filterMap_append] at hc
    rcases List.mem_append.mp hc with hc | hc
    · cases h with
      | absent => cases hc
      | released hl hback =>
        refine .inl ?_
        rw [hl, hback.only.handBacks hc]
        rfl
    · rcases hg hc with hl | hl
      · rw [hst] at hl
        cases hl
      · exact .inr hl

theorem Held.quiet {P : Message → Prop}
    (hb : ∀ st', r = .inl st' → st'.boundConn = st.boundConn) : Held st tr [] r P := by
  refine ⟨fun c m ok hw _ => (List.not_mem_nil hw).elim, ?_⟩
  intro c st' hc hr
  exact ⟨(hb st' hr).trans hc, fun hg => (List.not_mem_nil hg).elim⟩

theorem Held.mono {P Q : Message → Prop} (h : Held st tr t r P) (hQ : ∀ m, Q m → P m) :
    Held st tr t r Q :=
  ⟨fun c m ok hw hm => h.executed c m ok hw (hQ m hm), h.kept⟩

theorem Held.of_same {st₁ : Relay} {P : Message → Prop} (hw : st₁.boundConn = st.boundConn)
    (hr : st₁.boundReader = st.boundReader) (h : Held st₁ tr t r P) : Held st tr t r P := by
  refine ⟨?_, ?_⟩
  · rw [← hw]
    exact h.executed
  · rw [← hw]
    intro c st' hb he
    obtain ⟨hk, hg⟩ := h.kept c st' hb he
    refine ⟨hk, fun hc => ?_⟩
    rw [LentTwice, ← hr]
    exact hg hc

theorem Visit.lent (h : Visit R strict ms t) (hc : c ∈ handBacks t) :
    ∃ p, ⟨.acquire p, some c⟩ ∈ t := by
  cases h with
  | look => cases hc
  | refused => cases hc
  | failed hx =>
    rename_i d t₁ p
    have honly : Only d (t₁ ++ [⟨.discard (some p) d, ()⟩]) := hx.only.append (.cons rfl .nil)
    rw [Only.handBacks (.cons rfl honly) hc]
    exact ⟨p, .head _⟩
  | served hx hb =>
    rw [Only.handBacks (.cons rfl (hx.only.append hb.only)) hc]
    exact ⟨_, .head _⟩

theorem Visits.lent (h : Visits R strict ms t) (hc : c ∈ handBacks t) :
    ∃ p, ⟨.acquire p, some c⟩ ∈ t := by
  induction h with
  | nil => cases hc
  | cons hv _ ih =>
    rw [handBacks, List.filterMap_append] at hc
    rcases List.mem_append.mp hc with hc | hc
    · obtain ⟨p, hp⟩ := hv.lent hc
      exact ⟨p, List.mem_append_left _ hp⟩
    · obtain ⟨p, hp⟩ := ih hc
      exact ⟨p, List.mem_append_right _ hp⟩

omit [External] in
omit [External] in
theorem endBatch_boundConn {flow : Flow} (h : flow.map Relay.endBatch id = .inl st') :
    ∃ st₁, flow = .inl st₁ ∧ st'.boundConn = st₁.boundConn := by
  obtain ⟨st₁, rfl, rfl⟩ := map_endBatch_inl h
  exact ⟨st₁, rfl, rfl⟩

theorem Held.endBatch {flow : Flow} {P : Message → Prop} (h : Held st tr t flow P) :
    Held st tr t (flow.map Relay.endBatch id) P := by
  refine ⟨fun c m ok hw hP => ?_, fun c st' hb hr => ?_⟩
  · obtain ⟨hsrc, hbound⟩ := h.executed c m ok hw hP
    refine ⟨hsrc, fun st' hr => ?_⟩
    obtain ⟨st₁, hf, hs⟩ := endBatch_boundConn hr
    exact hs.trans (hbound st₁ hf)
  · obtain ⟨st₁, hf, hs⟩ := endBatch_boundConn hr
    obtain ⟨hk, hg⟩ := h.kept c st₁ hb hf
    exact ⟨hs.trans hk, hg⟩

theorem ReaderGone.quiet {P : Message → Prop} (h : ReaderGone R st t st₁)
    (hP : ∀ m, P m → m.type = msgQuery → t = []) : Held st tr t (.inl st₁) P := by
  have hq : Held st₁ tr [] (.inl st₁) P := .quiet fun st' he => by cases he; rfl
  have hx := h.held hP hq
  rwa [List.append_nil] at hx

theorem Unexecuted.quiet {P : Message → Prop} (h : Unexecuted R st t st₁)
    (hP : ∀ m, P m → m.type = msgQuery → t = []) : Held st tr t (.inl st₁) P := by
  rcases h with ⟨rfl, rfl⟩ | hg
  · exact .quiet fun st' he => by cases he; rfl
  · exact hg.quiet hP

theorem Held.cleared {P : Message → Prop} (h : Held st tr t (.inl st₁) P)
    (hb : st₂.boundConn = st₁.boundConn) : Held st tr t (.inl st₂) P := by
  refine ⟨fun c m ok hw hP => ?_, fun c st' hc he => ?_⟩
  · obtain ⟨hsrc, hbound⟩ := h.executed c m ok hw hP
    refine ⟨hsrc, fun st' he => ?_⟩
    cases he
    exact hb.trans (hbound st₁ rfl)
  · cases he
    obtain ⟨hk, hg⟩ := h.kept c st₁ hc rfl
    exact ⟨hb.trans hk, hg⟩

theorem Held.execution
    (h : Held st tr (conn tr) r fun m => ∃ msg, received tr = some msg ∧ st.carries msg m)
    (hc : c ∈ executions st tr) :
    (st.boundConn = some c ∨ st.boundConn = none ∧ LentByWriter c tr) ∧
      ∀ st', r = .inl st' → st'.boundConn = some c := by
  obtain ⟨msg, m, ok, hm, hw, hcar⟩ := mem_executions.mp hc
  exact h.executed c m ok (List.mem_filter.mpr ⟨hw, rfl⟩) ⟨msg, hm, hcar⟩

theorem handBacks_conn (h : c ∈ handBacks tr) : c ∈ handBacks (conn tr) := by
  obtain ⟨⟨o, x⟩, he, hg⟩ := mem_handBacks.mp h
  refine mem_handBacks.mpr ⟨_, List.mem_filter.mpr ⟨he, ?_⟩, hg⟩
  cases o with
  | release p d => rfl
  | discard p d => rfl
  | _ => cases hg

theorem held_bound
    (h : Held st tr (conn tr) r fun m => ∃ msg, received tr = some msg ∧ st.carries msg m)
    (hb : st.boundConn = some c) : ∀ d ∈ executions st tr, d = c := by
  intro d hd
  rcases (h.execution hd).1 with hd | ⟨hd, -⟩
  · exact Option.some.inj (hd.symm.trans hb)
  · rw [hd] at hb
    cases hb

end Held

end Pgmux
