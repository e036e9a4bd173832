import Pgmux.Conservation
import Pgmux.Held

namespace Pgmux

open Interaction

section Pinning

variable [External] {st st' : Relay} {tr t : Trace Ans} {r : Flow}

theorem relayStep_keeps_pin (h : Runs (relayStep st) tr r) (hp : st.session.pinned) :
    (Flow.state r).session.pinned = true := by
  obtain ⟨calls, hs, -⟩ := relayStep_session h
  rw [hs]
  exact run_keeps_pin hp calls

def BatchPinSafe (st : Relay) (tr : Trace Ans) : Prop :=
  ∀ msg ∈ received tr, msg.type = msgSync → Unblocked (· ∈ tr) st →
    (st.synth = none → st.boundWriter = none → st.readsBatch = false ∧ st.extTxEnd = false) ∧
    (st.synthesized.isSome = true → st.extTxEnd = false ∧
      (st.boundWriter = none → st.readsBatch = false ∧ st.extTxStart = true))

def PinSafe (st : Relay) (tr : Trace Ans) : Prop := QueryEndsBound st tr ∧ BatchPinSafe st tr

instance (st : Relay) (tr : Trace Ans) : Decidable (Unblocked (· ∈ tr) st) :=
  decidable_of_iff (st.extSessionBlocked = none ∧
      ∃ b ∈ readOnlySeen tr, (b && st.extIsWrite) = false)
    ⟨fun ⟨hn, b, hb, hw⟩ => ⟨hn, b, mem_answers.mp hb, hw⟩,
      fun ⟨hn, b, hb, hw⟩ => ⟨hn, b, mem_answers.mpr hb, hw⟩⟩

instance (st : Relay) (tr : Trace Ans) : Decidable (BatchPinSafe st tr) :=
  inferInstanceAs (Decidable (∀ _ ∈ received tr, _))

instance (st : Relay) (tr : Trace Ans) : Decidable (PinSafe st tr) :=
  inferInstanceAs (Decidable (_ ∧ _))

omit [External] in
theorem Guarded.boundConn (h : Guarded st st₁) : st₁.boundConn = st.boundConn := by
  rw [Relay.boundConn, h.kept.1]
  rfl

theorem QueryStep.held (h : QueryStep R (· ∈ tr) st msg (conn tr) r)
    (hm : received tr = some msg) (ht : msg.type = msgQuery) (hsafe : QueryEndsBound st tr)
    (hp : (Flow.state r).session.pinned = true) : Held st tr (conn tr) r fun _ => True := by
  generalize hconn : conn tr = t at h
  cases h with
  | blocked => exact .quiet fun st' he => by cases he; rfl
  | readOnly _ _ hg _ =>
    apply Held.quiet
    intro st' he
    cases he
    exact hg.guarded.boundConn
  | read hrules hnow hg hroute hl hv =>
    rename_i rules now st₁ ok
    rw [state_proceed] at hp
    have hpin : st₁.session.pinned :=
      (routeQueryLocked_keeps_pin st₁.session now (checkedText rules msg)).symm.trans hp
    rw [routeQueryLocked_pinned hpin] at hroute
    cases hroute
  | write hrules hnow hg hcfg hro hb hroute hw =>
    rename_i rules now st₁ cfg b
    have hsub : ∀ e ∈ t, e ∈ tr := fun e he => List.mem_of_mem_filter (hconn ▸ he)
    refine Held.of_same ?_ ?_ (hw.held hsub hp ?_)
    · exact hg.guarded.boundConn
    · exact hg.guarded.kept.2.1
    intro s c acquired p t' r' hs hnew hold hrun hp'
    rw [finishQuery_session hrun] at hp'
    refine finishQuery_kept hrun hp' hold fun ha hwas => ?_
    -- in a transaction without a bound writer, the query does not end the transaction
    have hnone : st.boundWriter = none := hg.guarded.kept.1.symm.trans (hnew ha)
    rw [hg.guarded.inTransaction] at hwas
    rw [routeQueryLocked_inTransaction, hg.guarded.inTransaction, hwas]
    by_contra hend
    have := hsafe msg hm ht rules (mem_answers.mpr hrules) hwas (by simpa using hend)
    rw [hnone] at this
    cases this

omit [External] in
theorem readsBatch_unbound (h : st.readsBatch) : st.boundWriter = none := by
  simp only [Relay.readsBatch, Bool.and_eq_true, Option.isNone_iff_eq_none] at h
  exact h.2

theorem SyncStep.held (h : SyncStep R (· ∈ tr) st msg (conn tr) r) (hm : received tr = some msg)
    (ht : msg.type = msgSync) (hsafe : BatchPinSafe st tr) (hmux : MuxReaderless st)
    (hp : (Flow.state r).session.pinned = true) :
    Held st tr (conn tr) r fun m => st.carries msg m := by
  have hq : msg.type ≠ msgQuery := by rw [ht]; decide
  -- the reset of a stale reader is no statement of the client
  have hreset : ∀ {R t₀ st₁}, ReaderGone R st t₀ st₁ → ∀ m, st.carries msg m →
      m.type = msgQuery → t₀ = [] := by
    intro R t₀ st₁ hg m hc hmq
    cases hs : st.synth.isSome with
    | true =>
      cases hg with
      | absent => rfl
      | released hb =>
        rw [hmux hs] at hb
        cases hb
    | false => simp [Relay.carries, ht, hs, hmq, show msgSync ≠ msgQuery by decide] at hc
  have hsub : ∀ e ∈ conn tr, e ∈ tr := fun e he => List.mem_of_mem_filter he
  generalize hconn : conn tr = t at h hsub
  cases h with
  | rejected hg => exact (hg.quiet (hreset hg)).cleared rfl
  | noBind hy hd hu =>
    refine Held.cleared (hu.quiet ?_) rfl
    rcases hu with ⟨rfl, -⟩ | hg
    · exact fun _ _ _ => rfl
    · exact hreset hg
  | synthFailed hy hd hn hu =>
    refine Held.cleared (hu.quiet ?_) rfl
    rcases hu with ⟨rfl, -⟩ | hg
    · exact fun _ _ _ => rfl
    · exact hreset hg
  | synthRead hy hd hs hu hr hv =>
    have hsome : st.synthesized.isSome := by simp [Relay.synthesized, hy, hd, hs]
    obtain ⟨-, hbind⟩ := (hsafe msg hm ht hu).2 hsome
    rw [(hbind (readsBatch_unbound hr)).1] at hr
    cases hr
  | synthWrite hy hd hs hu hr hg hw =>
    have hsome : st.synthesized.isSome := by simp [Relay.synthesized, hy, hd, hs]
    obtain ⟨hend, hbind⟩ := (hsafe msg hm ht hu).2 hsome
    rw [endBatch_session] at hp
    have hsame := hg.same
    refine hg.held (hreset hg) (Held.endBatch (Held.mono ?_ fun _ _ => trivial))
    refine hw.held (fun e he => hsub e (List.mem_append_right _ he)) hp ?_
    intro s c acquired p t' r' _ hnew hold hrun _
    refine finishSynthesized_kept hrun hold ?_ fun ha => ?_
    · rw [hsame]
      exact hend
    · have hnone : st.boundWriter = none := by
        have := hnew ha
        rw [hsame] at this
        exact this
      rw [hsame]
      exact (hbind hnone).2
  | batchRead hy hu hr hx =>
    rw [((hsafe msg hm ht hu).1 hy (readsBatch_unbound hr)).1] at hr
    cases hr
  | batchWrite hy hu hr hg hw =>
    rw [endBatch_session] at hp
    have hsame := hg.same
    refine hg.held (hreset hg) (Held.endBatch (Held.mono ?_ fun _ _ => trivial))
    refine hw.held (fun e he => hsub e (List.mem_append_right _ he)) hp ?_
    intro s c acquired p t' r' _ hnew hold hrun hp'
    have hpin : s.pinned := by
      rw [(finishBatch_finish hrun (configured_all _)).session] at hp'
      unfold Relay.applyTxFlags at hp'
      dsimp only at hp'
      split at hp' <;> split at hp' <;> exact hp'
    refine finishBatch_kept hrun hpin hold fun ha => ?_
    have hnone : st.boundWriter = none := by
      have := hnew ha
      rw [hsame] at this
      exact this
    rw [hsame]
    exact ((hsafe msg hm ht hu).1 hy hnone).2

theorem relayStep_held (h : Runs (relayStep st) tr r) (hsafe : PinSafe st tr)
    (hmux : MuxReaderless st) (hp : (Flow.state r).session.pinned = true) :
    Held st tr (conn tr) r fun m => ∃ msg, received tr = some msg ∧ st.carries msg m := by
  have hplain : ∀ msg m, msg.type ≠ msgQuery → msg.type ≠ msgSync → st.carries msg m = false := by
    intro msg m hq hs
    simp [Relay.carries, hq, hs]
  cases relayStep_step h (configured_all tr) with
  | idle hc =>
    rw [hc]
    apply Held.quiet
    intro st' he
    rw [(proceed_inl he).2]
  | query hm ht hx => exact (hx.held hm ht hsafe.1 hp).mono fun _ _ => trivial
  | parse hm ht hc _ hx =>
    rw [hc]
    apply Held.quiet
    intro st' he
    subst he
    exact hx.sameHands.boundConn
  | bind hm ht hc hx =>
    rw [hc]
    apply Held.quiet
    intro st' he
    subst he
    exact hx.sameHands.boundConn
  | close hm ht hc hx =>
    rw [hc]
    apply Held.quiet
    intro st' he
    subst he
    rw [hx.inl]
    exact ((closeStatement_sameHands _ _).trans (buffer_sameHands _ _)).boundConn
  | describe hm ht hy hd hv =>
    refine ⟨fun c m ok hw hP => ?_, fun c st' hb he => ?_⟩
    · obtain ⟨msg', hm', hc⟩ := hP
      rw [hm] at hm'
      cases hm'
      rw [hplain _ _ (by rw [ht]; decide) (by rw [ht]; decide)] at hc
      cases hc
    · rw [(proceed_inl he).2]
      refine ⟨hb, fun hc => ?_⟩
      obtain ⟨p, hp⟩ := hv.lent hc
      exact .inr ⟨p, List.mem_of_mem_filter hp⟩
  | buffered hm hs hq hy hpa hbi hcl hc hx =>
    rw [hc]
    apply Held.quiet
    intro st' he
    cases he
    rfl
  | sync hm ht hx =>
    refine (hx.held hm ht hsafe.2 hmux hp).mono ?_
    rintro m ⟨msg', hm', hc⟩
    rw [hm] at hm'
    cases hm'
    exact hc

/-- From a round on in which a pinned session has the writer `c`, every round finds it bound and
executes on it only. -/
theorem rounds_held (h : Rounds relayStep st rs b) (hmux : MuxReaderless st)
    (hp : st.session.pinned) (hb : st.boundConn = some c)
    (hsafe : ∀ a ∈ rs, PinSafe a.1 a.2) (hrs : rs = past ++ a :: later) :
    a.1.boundConn = some c ∧ (∀ d ∈ executions a.1 a.2, d = c) ∧
      (c ∈ handBacks a.2 → later = [] ∨ LentTwice a.1 a.2 c) := by
  induction h generalizing past with
  | leave hrun =>
    have hx := relayStep_held hrun (hsafe _ (List.mem_singleton_self _)) hmux
      (relayStep_keeps_pin hrun hp)
    rcases List.cons_eq_append_iff.mp hrs with ⟨rfl, he⟩ | ⟨past', rfl, he⟩
    · cases he
      exact ⟨hb, held_bound hx hb, fun _ => .inl rfl⟩
    · simp at he
  | again hrun hrest ih =>
    have hpin := relayStep_keeps_pin hrun hp
    have hx := relayStep_held hrun (hsafe _ (.head _)) hmux hpin
    obtain ⟨hb', hgive⟩ := hx.kept c _ hb rfl
    cases past with
    | nil =>
      cases hrs
      exact ⟨hb, held_bound hx hb, fun hg => .inr (hgive (handBacks_conn hg))⟩
    | cons a₀ past =>
      cases hrs
      exact ih ((relayStep_hands hrun).reader hmux) hpin hb'
        (fun a ha => hsafe a (.tail _ ha)) rfl

end Pinning

/-- Once a session is pinned, the first writer on which it executes is bound in all later rounds,
the only connection that they execute on, and not given back before the end. -/
theorem pinned_one_writer [External] (dbName : Bytes) (session : Session) (multiplex : Bool)
    (rs : List (Relay × Trace Ans)) (t : Trace Ans) (h : RelayRun dbName session multiplex rs t)
    (pre post : List (Relay × Trace Ans)) (r next : Relay × Trace Ans)
    (hrs : rs = pre ++ r :: next :: post) (hpin : next.1.session.pinned = true)
    (hsafe : ∀ r' ∈ r :: next :: post, PinSafe r'.1 r'.2) (c : ConnId)
    (hc : c ∈ executions r.1 r.2) :
    (∃ r₀ ∈ pre ++ [r], LentByWriter c r₀.2) ∧
      ∀ past r' later, next :: post = past ++ r' :: later →
        r'.1.boundConn = some c ∧ (∀ d ∈ executions r'.1 r'.2, d = c) ∧
          (c ∈ handBacks r'.2 → later = [] ∨ LentTwice r'.1 r'.2 c) := by
  obtain ⟨st, hrounds, -⟩ := h
  have hlent := rounds_lent (c := c) hrounds hrs
  have hmux : MuxReaderless r.1 :=
    (hrounds.at_round (I := fun _ s => MuxReaderless s) (fun _ => rfl)
      (fun _ _ _ _ _ hI hrun => (relayStep_hands hrun).reader hI) hrs).1
  obtain ⟨hrun, hlater⟩ := (hrounds.drop hrs).uncons
  have hx := relayStep_held hrun (hsafe r (.head _)) hmux hpin
  obtain ⟨hsrc, hbound⟩ := hx.execution hc
  refine ⟨?_, fun past r' later he => ?_⟩
  · rcases hsrc with hb | ⟨-, hl⟩
    · rcases hlent hb with hb | ⟨r₀, hr₀, hl⟩
      · cases hb
      · exact ⟨r₀, List.mem_append_left _ hr₀, hl⟩
    · exact ⟨r, by simp, hl⟩
  · exact rounds_held hlater ((relayStep_hands hrun).reader hmux) hpin (hbound _ rfl)
      (fun a ha => hsafe a (.tail _ ha)) he

def pinScript [External] (multiplex : Bool) (inbox : List Message) : Script :=
  { Script.simple inbox (List.replicate 8 readyMessage) with
    config := { defaultConfig with multiplex, sessionCompat := true, compatMode := .pin } }

def pinnedExecutions [External] (rs : List (Relay × Trace Ans)) : List ConnId :=
  rs.flatMap fun r => if r.1.session.pinned then executions r.1 r.2 else []

def listensOn7 [External] : List (Relay × Trace Ans) → Bool
  | r :: next :: post => decide (7 ∈ executions r.1 r.2) && next.1.session.pinned &&
    decide (∀ r' ∈ r :: next :: post, PinSafe r'.1 r'.2) &&
    decide (2 ≤ (pinnedExecutions (next :: post)).length)
  | [] => false
  | [_] => false

theorem pinned_one_writer_listen : ∃ (_ : External) (rs : List (Relay × Trace Ans)),
    2 ≤ (pinnedExecutions rs).length ∧ ∀ r ∈ rs, ∀ d ∈ executions r.1 r.2, d = 7 := by
  let _ := asciiExternal
  refine ⟨asciiExternal, ?_⟩
  obtain ⟨rs, t, h, hc⟩ := Script.play_run (n := 60)
    (s := pinScript false [queryMessage (ascii "LISTEN ch"), queryMessage (ascii "BEGIN"),
      queryMessage (ascii "COMMIT"), queryMessage (ascii "SELECT 1")])
    (f := fun rs _ => listensOn7 rs) (by decide +kernel)
  obtain _ | ⟨r, _ | ⟨next, post⟩⟩ := rs
  · cases hc
  · cases hc
  · simp only [listensOn7, Bool.and_eq_true, decide_eq_true_eq] at hc
    obtain ⟨⟨⟨hex, hpin⟩, hsafe⟩, hlen⟩ := hc
    refine ⟨next :: post, hlen, fun r' hr' => ?_⟩
    obtain ⟨past, later, he⟩ := List.append_of_mem hr'
    exact ((pinned_one_writer _ _ _ _ t h [] post r next rfl hpin hsafe 7 hex).2 past r' later
      he).2.1

/-- In multiplex mode the statements of a pinned session are executed on two connections. -/
theorem pinned_on_two_writers : ∃ (_ : External) (session : Session)
    (rs : List (Relay × Trace Ans)) (t : Trace Ans), RelayRun [] session true rs t ∧
      pinnedExecutions rs = [7, 8] := by
  let _ := asciiExternal
  refine ⟨asciiExternal, ?_⟩
  obtain ⟨session, rs, t, h, hc⟩ := Script.play_check (n := 60)
    (s := pinScript true [parseMessage [] (ascii "LISTEN ch"), bindMessage [], executeMessage,
      syncMessage, parseMessage [] (ascii "SELECT 1"), bindMessage [], executeMessage, syncMessage])
    (f := fun rs _ => decide (pinnedExecutions rs = [7, 8])) (by decide +kernel)
  exact ⟨session, rs, t, h, of_decide_eq_true hc⟩

end Pgmux
