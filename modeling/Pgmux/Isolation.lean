import Pgmux.Script
import Pgmux.Sessions
import Pgmux.Written

namespace Pgmux

open Interaction Custody

/-- A Query with a session-modifying statement, or a Parse of one or of a named statement. -/
def modifiesSession (m : Message) : Bool :=
  if m.type = msgQuery then
    (splitStatements (extractQueryText m.payload)).any isSessionModifying
  else if m.type = msgParse then
    let (name, text) := parseParseMessage m.payload
    name ≠ [] || (splitStatements text).any isSessionModifying
  else false

/-- The session state on a connection: whether it was modified, and whether a reset query is being
answered. -/
structure Taint where
  dirty : Bool
  resetting : Bool
  deriving DecidableEq

/-- A response message; a reset takes effect with its ReadyForQuery, unless it fails. -/
def Taint.answered (s : Taint) : Option Message → Taint
  | none => ⟨s.dirty, false⟩
  | some m =>
    if m.type = msgReadyForQuery then ⟨s.dirty && !s.resetting, false⟩
    else ⟨s.dirty, s.resetting && m.type ≠ msgErrorResponse⟩

def SentReset (R : Bytes → Prop) (m : Message) (ok : Bool) : Prop :=
  ok = true ∧ ∃ q, R q ∧ m = queryMessage q

/-- What the traffic does to the session state; `R` are the configured reset queries. -/
def TaintStep (R : Bytes → Prop) (s : Taint) : Traffic → Taint → Prop
  | .wrote m ok, s' => (SentReset R m ok ∧ s' = ⟨s.dirty, true⟩) ∨
      (¬ SentReset R m ok ∧ s' = ⟨s.dirty || modifiesSession m, false⟩)
  | .got r, s' => s' = s.answered r

/-- A connection is released only when its session state is clean. -/
def isolation (R : Bytes → Prop) : Rules PoolId Traffic Taint where
  fresh _ s := s.dirty = false
  allowed _ _ := True
  step := TaintStep R
  back _ s := s.dirty = false
  gone _ _ := True
  lost := True

theorem answered_clean (h : s.dirty = false) (r : Option Message) :
    (Taint.answered s r).dirty = false := by
  unfold Taint.answered
  split
  · exact h
  · split
    · simp [h]
    · exact h

theorem TaintStep.clean (h : TaintStep R s (.wrote m ok) s') (hs : s.dirty = false)
    (hm : modifiesSession m = false) : s'.dirty = false := by
  rcases h with ⟨-, rfl⟩ | ⟨-, rfl⟩
  · exact hs
  · simp [hs, hm]

theorem currentLSN_unmodifying : modifiesSession (queryMessage currentLSNQuery) = false := by
  decide +kernel

section Isolation

variable [External] {R : Bytes → Prop} {c : ConnId}

theorem Talk.isolated (h : Talk c t) :
    Safe (isolation R) (fun x => ∃ s', x = some s') (some s) (connActs c t) :=
  (h.safe (I := fun _ => True) (fun _ _ _ _ _ => ⟨trivial, fun _ _ => trivial⟩)
    (fun _ _ _ => ⟨trivial, fun _ _ => trivial⟩) trivial).mono fun _ ⟨s', hs, _⟩ => ⟨s', hs⟩

theorem Talk.clean (h : Talk c t) (hs : s.dirty = false)
    (hw : Written (fun _ m => modifiesSession m = false) t) :
    Safe (isolation R) (fun x => ∃ s', x = some s' ∧ s'.dirty = false) (some s) (connActs c t) := by
  refine h.safe (I := fun s : Taint => s.dirty = false) (fun s m ok hm hs => ⟨trivial, ?_⟩)
    (fun s r hs => ⟨trivial, ?_⟩) hs
  · exact fun s' h => TaintStep.clean h hs (hw c m ok hm)
  · rintro s' rfl
    exact answered_clean hs r

theorem Drained.cleans (h : Drained c t true) (hs : s.resetting) :
    Safe (isolation R) (fun x => ∃ s', x = some s' ∧ s'.dirty = false) (some s)
      (connActs c t) := by
  generalize hok : true = ok at h
  induction h generalizing s with
  | broken => cases hok
  | error => cases hok
  | ready hm =>
    rw [connActs_cons _ _ rfl rfl]
    refine ⟨trivial, fun s' h => ?_⟩
    cases h
    exact ⟨_, rfl, by simp [Taint.answered, hm, hs]⟩
  | more he hr _ ih =>
    rw [connActs_cons _ _ rfl rfl]
    refine ⟨trivial, fun s' h => ?_⟩
    cases h
    exact ih (by simp [Taint.answered, hr, hs, he]) hok

theorem Probed.cleans (h : Probed c q t true) (hq : R q) :
    Safe (isolation R) (fun x => ∃ s', x = some s' ∧ s'.dirty = false) (some s)
      (connActs c t) := by
  cases h with
  | sent hd =>
    rw [connActs_cons _ _ rfl rfl]
    refine ⟨trivial, fun s' h => hd.cleans ?_⟩
    rcases h with ⟨-, rfl⟩ | ⟨hn, -⟩
    · rfl
    · exact (hn ⟨rfl, q, hq, rfl⟩).elim

/-- The policy of the relay: a connection that will not be reset is clean. -/
def isolationPolicy : Policy R c (isolation R) where
  inv _ d s := d = false → s.dirty = false
  fresh hf _ := hf
  mono _ h := nomatch h
  back {p s d t} hi h := by
    cases h with
    | plain =>
      rw [connActs_release]
      exact ⟨hi rfl, rfl⟩
    | reset hq hp =>
      rw [connActs_append, connActs_release]
      refine (hp.cleans hq).append ?_
      rintro _ ⟨s', rfl, hs⟩
      exact ⟨hs, rfl⟩
    | failed hq hp =>
      rw [connActs_append, connActs_discard]
      refine hp.talk.isolated.append ?_
      rintro _ ⟨s', rfl⟩
      exact ⟨trivial, rfl⟩

theorem isolation_serves (hm : ∀ m ∈ ms, modifiesSession m → d' = true)
    (hd : d = true → d' = true) :
    (isolationPolicy (R := R) (c := c)).Serves ms d d' := by
  intro p s t ok hi hx
  cases hd' : d' with
  | true =>
    refine hx.talk.isolated.mono ?_
    rintro _ ⟨s', rfl⟩
    refine ⟨s', rfl, ?_⟩
    cases ok with
    | true => exact fun h => nomatch h
    | false => trivial
  | false =>
    subst hd'
    have hclean : s.dirty = false := hi (by simpa using hd)
    have hw : Written (fun _ m => modifiesSession m = false) t :=
      hx.written fun m h => by simpa using hm m h
    refine (hx.talk.clean hclean hw).mono ?_
    rintro _ ⟨s', rfl, hs⟩
    refine ⟨s', rfl, ?_⟩
    cases ok with
    | true => exact fun _ => hs
    | false => trivial

theorem isolation_repool : (isolationPolicy (R := R) (c := c)).Repool p q :=
  fun _ => ⟨fun _ h => h, fun _ => trivial⟩

theorem isolation_tracks (h : Tracked c t) (hi : (isolationPolicy (R := R) (c := c)).inv p d s) :
    Safe (isolation R) (fun x => ∃ s', x = some s' ∧ isolationPolicy.inv (R := R) (c := c) p d s')
      (some s) (connActs c t) := by
  cases d with
  | true =>
    refine h.talk.isolated.mono ?_
    rintro _ ⟨s', rfl⟩
    exact ⟨s', rfl, fun h => nomatch h⟩
  | false =>
    have hw : Written (fun _ m => modifiesSession m = false) t := by
      rcases h with rfl | ⟨ok, h⟩
      · exact .nil
      · exact h.written currentLSN_unmodifying
    refine (h.talk.clean (hi rfl) hw).mono ?_
    rintro _ ⟨s', rfl, hs⟩
    exact ⟨s', rfl, fun _ => hs⟩

theorem isolation_writes (hm : ∀ m ∈ ms, modifiesSession m → d = true)
    (hd : st.connDirty → d = true)
    (ha : panics → st.boundWriter.isSome → ∀ m ∈ ms, modifiesSession m → st.connDirty = true) :
    (isolationPolicy (R := R) (c := c)).Writes panics st ms d ending rebinding t where
  serves := isolation_serves hm fun h => hd (Bool.and_eq_true .. ▸ h).2
  pools _ _ _ _ := isolation_repool
  rebinds _ _ _ _ _ := isolation_repool
  ends := .inl trivial
  aborts hp := ⟨fun _ => trivial, fun hb => isolation_serves (ha hp hb) id⟩
  tracks _ _ _ _ _ _ ht _ _ _ hi := isolation_tracks ht hi

def QueryNoticed (st : Relay) (tr : Trace Ans) : Prop :=
  ∀ msg ∈ received tr, msg.type = msgQuery → modifiesSession msg = true →
    ∀ rules ∈ rulesSeen tr, ∀ now ∈ timesSeen tr,
      (st.session.routeQueryLocked now (checkedText rules msg)).1 = .writer ∧
        (st.connDirty = true ∨ isSessionModifying (checkedText rules msg) = true ∧
          (st.boundWriter.isSome = true → Extractable tr (checkedText rules msg)))

instance (st : Relay) (tr : Trace Ans) : Decidable (QueryNoticed st tr) :=
  inferInstanceAs (Decidable (∀ _ ∈ received tr, _))

def BatchNoticed (st : Relay) (tr : Trace Ans) : Prop :=
  ∀ msg ∈ received tr, msg.type = msgSync → st.synth.isNone = true →
    (st.extBuf ++ [msg]).any modifiesSession = true →
    st.readsBatch = false ∧ st.connDirty = true

instance (st : Relay) (tr : Trace Ans) : Decidable (BatchNoticed st tr) :=
  inferInstanceAs (Decidable (∀ _ ∈ received tr, _))

def SynthNoticed (st : Relay) (tr : Trace Ans) : Prop :=
  ∀ msg ∈ received tr, msg.type = msgSync → ∀ query ∈ st.synthesized,
    modifiesSession (queryMessage query) = true → st.readsBatch = false ∧
      (st.connDirty || st.extTxEnd || (st.boundWriter.isNone && !st.extTxStart)) = true

instance (st : Relay) (tr : Trace Ans) : Decidable (SynthNoticed st tr) :=
  inferInstanceAs (Decidable (∀ _ ∈ received tr, _))

def Noticed (st : Relay) (tr : Trace Ans) : Prop :=
  QueryNoticed st tr ∧ BatchNoticed st tr ∧ SynthNoticed st tr

instance (st : Relay) (tr : Trace Ans) : Decidable (Noticed st tr) :=
  inferInstanceAs (Decidable (_ ∧ _ ∧ _))

theorem Noticed.admits (h : Noticed st tr) : (isolationPolicy (R := R) (c := c)).Admits st tr := by
  obtain ⟨hquery, hbatch, hsynth⟩ := h
  have hmux : ∀ synth detail query, st.synth = some synth → st.muxBindDetail = some detail →
      synth.synthesize detail.statementName detail.parameters detail.formatCodes = some query →
      query ∈ st.synthesized := by
    intro synth detail query hy hd hq
    simp [Relay.synthesized, hy, hd, hq]
  refine ⟨?_, ?_, ?_, ?_, ?_, ?_, ?_⟩
  · intro msg rules now st₁ hm ht hrules hnow hg hroute
    refine isolation_serves ?_ id
    simp only [List.mem_singleton]
    rintro _ rfl hmod
    rcases hg with rfl | ⟨feature, rfl⟩
    · have := (hquery _ hm ht hmod rules (mem_answers.mpr hrules) now (mem_answers.mpr hnow)).1
      simp [hroute] at this
    · simp [routeQueryLocked_pinned (pin_pinned st.session feature.name), Relay.pin] at hroute
  · intro msg rules now st₁ hm ht hrules hnow hg hroute
    have hnoticed (hmod : modifiesSession msg = true) :=
      (hquery msg hm ht hmod rules (mem_answers.mpr hrules) now (mem_answers.mpr hnow)).2
    refine isolation_writes ?_ (fun h => by simp [h]) fun hp hb => ?_ <;>
      simp only [List.mem_singleton] <;> rintro _ rfl hmod <;> rcases hg with rfl | ⟨feature, rfl⟩
    · rcases hnoticed hmod with h | h <;> simp [h]
    · simp [Relay.pin]
    · exact (hnoticed hmod).elim id fun h => ((h.2 hb).survives hp).elim
    · rfl
  · intros
    exact isolation_serves (fun _ _ _ => rfl) fun _ => rfl
  · intro msg synth detail query hm ht hy hd hq hr
    refine isolation_serves ?_ id
    simp only [List.mem_singleton]
    rintro _ rfl hmod
    have := (hsynth msg hm ht query (hmux _ _ _ hy hd hq) hmod).1
    simp [hr] at this
  · intro msg synth detail query hm ht hy hd hq hr
    refine isolation_writes ?_ (fun h => by simp [h]) fun h => h.elim
    simp only [List.mem_singleton]
    rintro _ rfl hmod
    exact (hsynth msg hm ht query (hmux _ _ _ hy hd hq) hmod).2
  · intro msg hm ht hy hr
    refine isolation_serves (fun m hmem hmod => ?_) id
    have := (hbatch msg hm ht (by simp [hy]) (List.any_eq_true.mpr ⟨m, hmem, hmod⟩)).1
    simp [hr] at this
  · intro msg hm ht hy hr
    refine isolation_writes (fun m hmem hmod => ?_) id fun h => h.elim
    exact (hbatch msg hm ht (by simp [hy]) (List.any_eq_true.mpr ⟨m, hmem, hmod⟩)).2

/-- However the sessions interleave, a connection is released clean: after a modification of its
session state a reset query has succeeded. -/
theorem sessions_isolated {I : Type} [DecidableEq I] {history : List (I × Act PoolId Traffic)}
    (h : Sessions R c Noticed history) :
    Obedient (isolation R) (.away : Place I PoolId Taint) history :=
  h.obedient isolationPolicy (fun _ _ h => h.admits) fun _ _ h => h

end Isolation

theorem sessions_isolated_set : ∃ (_ : External) (rs : List (Relay × Trace Ans)) (t : Trace Ans),
    Act.use (.wrote (queryMessage (ascii "SET a TO 1")) true) ∈ connActs 7 (flat rs ++ t) ∧
      Sessions (· = ascii "DISCARD ALL") 7 Noticed (soleHistory (connActs 7 (flat rs ++ t))) ∧
      Obedient (isolation (· = ascii "DISCARD ALL")) .away
        (soleHistory (connActs 7 (flat rs ++ t))) := by
  let _ := asciiExternal
  refine ⟨asciiExternal, ?_⟩
  obtain ⟨session, rs, t, h, hc⟩ := Script.play_check (n := 60)
    (s := .simple [queryMessage (ascii "BEGIN"), queryMessage (ascii "SET a TO 1"),
      queryMessage (ascii "COMMIT")] [readyMessage, readyMessage, readyMessage, readyMessage])
    (f := fun rs t => decide (∀ r ∈ rs, Noticed r.1 r.2) &&
      decide (∀ cfg ∈ configsSeen (flat rs ++ t), cfg.resetQuery = ascii "DISCARD ALL") &&
      decide (Act.use (.wrote (queryMessage (ascii "SET a TO 1")) true) ∈
        connActs 7 (flat rs ++ t))) (by decide +kernel)
  simp only [Bool.and_eq_true, decide_eq_true_eq] at hc
  have hs := sessions_sole (c := 7) h hc.1.2 hc.1.1
  exact ⟨rs, t, hc.2, hs, sessions_isolated hs⟩

/-- A SET outside of a transaction counts as a read and is released without a reset. -/
theorem set_released_dirty : ∃ (_ : External) (rs : List (Relay × Trace Ans)) (t : Trace Ans),
    Sessions (· = ascii "DISCARD ALL") 7 (fun _ _ => True)
        (soleHistory (connActs 7 (flat rs ++ t))) ∧
      ¬ Obedient (isolation (· = ascii "DISCARD ALL")) .away
        (soleHistory (connActs 7 (flat rs ++ t))) := by
  let _ := asciiExternal
  refine ⟨asciiExternal, ?_⟩
  obtain ⟨session, rs, t, h, hc⟩ := Script.play_check (n := 60)
    (s := .simple [queryMessage (ascii "SET a TO 1")] [readyMessage])
    (f := fun rs t =>
      decide (∀ cfg ∈ configsSeen (flat rs ++ t), cfg.resetQuery = ascii "DISCARD ALL") &&
      decide (connActs 7 (flat rs ++ t) = [.take 1,
        .use (.wrote (queryMessage (ascii "SET a TO 1")) true), .use (.got (some readyMessage)),
        .give 1])) (by decide +kernel)
  simp only [Bool.and_eq_true, decide_eq_true_eq] at hc
  refine ⟨rs, t, sessions_sole h hc.1 fun _ _ => trivial, fun ho => ?_⟩
  rw [hc.2] at ho
  have hset : ¬ SentReset (· = ascii "DISCARD ALL") (queryMessage (ascii "SET a TO 1")) true := by
    rintro ⟨-, q, rfl, hq⟩
    revert hq
    decide
  have h₁ := ho.2 (.held () ⟨false, false⟩) (.create rfl)
  have h₂ := h₁.2 (.held () ⟨true, false⟩) (.use (.inr ⟨hset, by decide +kernel⟩))
  have h₃ := h₂.2 (.held () ⟨true, false⟩) (.use rfl)
  obtain ⟨s, hs, hb⟩ := h₃.1
  cases hs
  cases hb

end Pgmux
