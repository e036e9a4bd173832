import Pgmux.PoolUsers
import Pgmux.Script
import Pgmux.Sessions

namespace Pgmux

open Interaction Custody

def functionCall : UInt8 := 'F'.toUInt8

/-- The messages that the backend answers with a group of messages of their own. -/
def isRequest (m : Message) : Bool :=
  m.type = msgQuery || m.type = msgSync || m.type = functionCall

def Group (q : List Message) : Prop :=
  ∃ body ready, q = body ++ [ready] ∧ (∀ m ∈ body, m.type ≠ msgReadyForQuery) ∧
    ready.type = msgReadyForQuery

/-- What the traffic does to the queue of the messages that the backend has sent. A request that
could not be written is not answered. -/
def StreamStep (q : List Message) : Traffic → List Message → Prop
  | .wrote m ok, q' => if ok && isRequest m then ∃ g, Group g ∧ q' = q ++ g else q' = q
  | .got (some m), q' => q = m :: q'
  | .got none, q' => q' = q

/-- A connection is used for the next message, and released, only when all responses were read. -/
def inSync : Rules PoolId Traffic (List Message) where
  fresh _ q := q = []
  allowed q
    | .wrote _ _ => q = []
    | .got _ => True
  step := StreamStep
  back _ q := q = []
  gone _ _ := True
  lost := True

def Pending (q : List Message) : Prop := q = [] ∨ Group q

theorem Pending.tail (h : Pending (m :: q)) : Pending q ∧ (m.type = msgReadyForQuery → q = []) := by
  rcases h with h | ⟨body, ready, hq, hb, hr⟩
  · cases h
  · cases body with
    | nil =>
      cases hq
      exact ⟨.inl rfl, fun _ => rfl⟩
    | cons b body =>
      cases hq
      refine ⟨.inr ⟨body, ready, rfl, fun m hm => hb m (.tail _ hm), hr⟩, ?_⟩
      exact fun h => (hb _ (.head _) h).elim

section Streams

variable [External] {R : Bytes → Prop} {c : ConnId}

theorem Reads.pending (h : Reads c t) (hq : Pending q) :
    Safe inSync (fun x => ∃ q', x = some q' ∧ Pending q') (some q) (connActs c t) := by
  refine h.talk.safe (I := Pending) (fun q m ok hm => ?_) (fun q r hq => ⟨trivial, ?_⟩) hq
  · obtain ⟨r, hr⟩ := h _ hm
    cases hr
  · intro q' hs
    cases r with
    | none => exact hs ▸ hq
    | some m =>
      cases hs
      exact hq.tail.1

theorem safe_got (hq : Pending q) (hm : m.type = msgReadyForQuery) :
    Safe inSync (· = some []) (some q) (connActs c ([⟨.read c, some m⟩] : Trace Ans)) := by
  rw [connActs_cons _ _ rfl rfl]
  refine ⟨trivial, fun q' hs => ?_⟩
  cases hs
  exact congrArg some (hq.tail.2 hm)

theorem Relayed.synced (h : Relayed c t true) (hq : Pending q) :
    Safe inSync (· = some []) (some q) (connActs c t) := by
  obtain ⟨t', m, rfl, hm⟩ := h.ready rfl
  have hr : Reads c t' := fun e he => h.reads e (List.mem_append_left _ he)
  rw [connActs_append]
  refine (hr.pending hq).append ?_
  rintro _ ⟨q', rfl, hq'⟩
  exact safe_got hq' hm

theorem Drained.relayed (h : Drained c t true) : Relayed c t true := by
  generalize hok : true = ok at h ⊢
  induction h with
  | broken => cases hok
  | error => cases hok
  | ready hm => exact ⟨.single _, fun _ => ⟨[], _, rfl, hm⟩⟩
  | more _ _ _ ih =>
    obtain ⟨hr, hready⟩ := ih hok
    refine ⟨fun e he => ?_, fun ht => ?_⟩
    · rcases List.mem_cons.mp he with rfl | he
      · exact ⟨_, rfl⟩
      · exact hr e he
    · obtain ⟨t', m, rfl, hm⟩ := hready ht
      exact ⟨_ :: t', m, rfl, hm⟩

theorem safe_wrote (hs : ∀ q, StreamStep [] (.wrote m ok) q →
    Safe inSync Q (some q) (connActs c t)) :
    Safe inSync Q (some []) (connActs c (⟨.write c m, ok⟩ :: t)) := by
  rw [connActs_cons _ _ rfl rfl]
  exact ⟨rfl, hs⟩

omit [External] in
theorem StreamStep.pending (h : StreamStep [] (.wrote m ok) q) : Pending q := by
  simp only [StreamStep] at h
  split at h
  · obtain ⟨g, hg, rfl⟩ := h
    exact .inr hg
  · exact .inl h

def Single (ms : List Message) : Prop := ∀ m ∈ ms.dropLast, isRequest m = false

theorem Sent.synced (h : Sent c ms t ok) (hm : Single ms) :
    Safe inSync (fun x => ∃ q, x = some q ∧ Pending q) (some []) (connActs c t) := by
  induction h with
  | done => exact ⟨[], rfl, .inl rfl⟩
  | fail => exact safe_wrote fun q hq => ⟨q, rfl, hq.pending⟩
  | more hs ih =>
    rename_i ms t ok m
    refine safe_wrote fun q hq => ?_
    cases ms with
    | nil =>
      cases hs
      exact ⟨q, rfl, hq.pending⟩
    | cons m' ms =>
      have hn : isRequest m = false := hm m (by simp)
      obtain rfl : q = [] := by simpa [StreamStep, hn] using hq
      exact ih fun x hx => hm x (by simp [hx])

theorem Probed.synced (h : Probed c query t true) :
    Safe inSync (· = some []) (some []) (connActs c t) := by
  cases h with
  | sent hd => exact safe_wrote fun q hq => hd.relayed.synced hq.pending

theorem Probed.unread (h : Probed c query t ok) :
    Safe inSync (fun x => ∃ q, x = some q) (some []) (connActs c t) := by
  cases h with
  | unsent => exact safe_wrote fun q _ => ⟨q, rfl⟩
  | sent hd =>
    refine safe_wrote fun q hq => (hd.reads.pending hq.pending).mono ?_
    rintro _ ⟨q', rfl, -⟩
    exact ⟨q', rfl⟩

/-- The policy of the relay: nothing is left to be read on a connection that it holds. -/
def streamPolicy : Policy R c inSync where
  inv _ _ q := q = []
  fresh hf := hf
  mono h := h
  back {p q d t} hi h := by
    subst hi
    cases h with
    | plain =>
      rw [connActs_release]
      exact ⟨rfl, rfl⟩
    | reset hq hp =>
      rw [connActs_append, connActs_release]
      refine hp.synced.append ?_
      rintro _ rfl
      exact ⟨rfl, rfl⟩
    | failed hq hp =>
      rw [connActs_append, connActs_discard]
      refine hp.unread.append ?_
      rintro _ ⟨q', rfl⟩
      exact ⟨trivial, rfl⟩

theorem stream_serves (hm : Single ms) : (streamPolicy (R := R) (c := c)).Serves ms d d' := by
  intro p q t ok hi hx
  cases hi
  cases hx with
  | unsent hs =>
    refine (hs.synced hm).mono ?_
    rintro _ ⟨q', rfl, -⟩
    exact ⟨q', rfl, trivial⟩
  | sent hs hr =>
    rw [connActs_append]
    refine (hs.synced hm).append ?_
    rintro _ ⟨q', rfl, hq⟩
    cases ok with
    | true =>
      refine (hr.synced hq).mono ?_
      rintro _ rfl
      exact ⟨[], rfl, rfl⟩
    | false =>
      refine (hr.reads.pending hq).mono ?_
      rintro _ ⟨q', rfl, -⟩
      exact ⟨q', rfl, trivial⟩

theorem stream_repool : (streamPolicy (R := R) (c := c)).Repool p q :=
  fun _ => ⟨fun _ h => h, fun _ => trivial⟩

/-- The reads that the trace begins with end with a ReadyForQuery and no error before it. -/
def drains : Trace Ans → Bool
  | ⟨.read _, x⟩ :: t =>
    match accepted x with
    | some m => m.type ≠ msgErrorResponse && (m.type = msgReadyForQuery || drains t)
    | none => false
  | _ => false

/-- An LSN query is sent after a response, and its own is not read in full. -/
def lsnUnreadAt : Event → Trace Ans → Bool
  | ⟨.read _, _⟩, ⟨.write _ m, ok⟩ :: t =>
    ok && m = queryMessage currentLSNQuery && !drains t
  | _, _ => false

def lsnUnread : Trace Ans → Bool
  | [] => false
  | e :: t => lsnUnreadAt e t || lsnUnread t

theorem Drained.drains (h : Drained c t false) : drains (t ++ post) = false := by
  generalize hok : false = ok at h
  induction h with
  | broken hx => simp [Pgmux.drains, hx]
  | @error m hm =>
    cases ha : accepted (some m) with
    | none => simp [Pgmux.drains, ha]
    | some m' =>
      cases (accepted_eq_some.mp ha).1
      simp [Pgmux.drains, ha, hm]
  | ready => cases hok
  | @more _ _ m _ hr _ ih =>
    cases hok
    cases ha : accepted (some m) with
    | none => simp [Pgmux.drains, ha]
    | some m' =>
      cases (accepted_eq_some.mp ha).1
      simp [Pgmux.drains, ha, hr, ih rfl]

theorem lsnUnread_append (h : lsnUnread t) : lsnUnread (pre ++ t) := by
  induction pre with
  | nil => exact h
  | cons e pre ih => simp [lsnUnread, ih]

/-- The LSN query after an exchange leaves nothing to be read, unless the round shows it. -/
theorem stream_tracks (hl : lsnUnread (pre ++ (t₁ ++ (t₂ ++ post))) = false)
    (hx : Exchange c ms t₁ true) (ht : Tracked c t₂) :
    Safe inSync (fun x => x = some []) (some []) (connActs c t₂) := by
  rcases ht with rfl | ⟨ok, h⟩
  · exact rfl
  cases ok with
  | true => exact h.synced
  | false =>
    cases h with
    | unsent => exact safe_wrote fun q hq => congrArg some (by simpa [StreamStep] using hq)
    | sent hd =>
      rename_i t₃
      -- The exchange ends with the read of its ReadyForQuery, right before the LSN query.
      cases hx with
      | sent hs hr =>
        obtain ⟨t', m, rfl, -⟩ := hr.ready rfl
        have hbad : lsnUnread (⟨.read c, some m⟩ ::
            ⟨.write c (queryMessage currentLSNQuery), true⟩ :: (t₃ ++ post)) := by
          simp [lsnUnread, lsnUnreadAt, hd.drains]
        simp only [List.append_assoc, List.cons_append, List.nil_append] at hl
        rw [lsnUnread_append (lsnUnread_append (lsnUnread_append hbad))] at hl
        cases hl

theorem stream_writes (hm : Single ms) (hl : lsnUnread t = false) :
    (streamPolicy (R := R) (c := c)).Writes panics st ms d ending rebinding t where
  serves := stream_serves hm
  pools _ _ _ _ := stream_repool
  rebinds _ _ _ _ _ := stream_repool
  ends := .inl trivial
  aborts _ := ⟨fun _ => trivial, fun _ => stream_serves hm⟩
  tracks pre t₁ t₂ post he hx ht p d q hi := by
    subst he
    cases hi
    refine (stream_tracks hl hx ht).mono ?_
    rintro _ rfl
    exact ⟨[], rfl, rfl⟩

def Attentive (st : Relay) (tr : Trace Ans) : Prop :=
  lsnUnread (conn tr) = false ∧ st.extBuf.all (fun m => !isRequest m) = true

instance (st : Relay) (tr : Trace Ans) : Decidable (Attentive st tr) :=
  inferInstanceAs (Decidable (_ ∧ _))

omit [External] in
theorem single_singleton (m : Message) : Single [m] := by
  simp [Single]

theorem Attentive.admits (h : Attentive st tr) : (streamPolicy (R := R) (c := c)).Admits st tr := by
  obtain ⟨hl, hb⟩ := h
  have hbatch : ∀ msg, Single (st.extBuf ++ [msg]) := by
    intro msg m hm
    rw [List.dropLast_concat] at hm
    simpa using List.all_eq_true.mp hb m hm
  refine ⟨?_, ?_, ?_, ?_, ?_, ?_, ?_⟩
  · intros
    exact stream_serves (single_singleton _)
  · intros
    exact stream_writes (single_singleton _) hl
  · intros
    refine stream_serves ?_
    intro m hm
    simp only [describeBatch, List.dropLast_cons_cons, List.dropLast_singleton, List.mem_cons,
      List.not_mem_nil, or_false] at hm
    rcases hm with rfl | rfl | rfl <;> rfl
  · intros
    exact stream_serves (single_singleton _)
  · intros
    exact stream_writes (single_singleton _) hl
  · intros
    exact stream_serves (hbatch _)
  · intros
    exact stream_writes (hbatch _) hl

theorem Probed.loaned (h : Probed c query t ok) :
    Safe inSync (fun x => ∃ q, x = some q ∧ True ∧ (ok = true → q = [])) (some [])
      (connActs c t) := by
  cases ok with
  | true =>
    refine h.synced.mono ?_
    rintro _ rfl
    exact ⟨[], rfl, trivial, fun _ => rfl⟩
  | false =>
    refine h.unread.mono ?_
    rintro _ ⟨q, rfl⟩
    exact ⟨q, rfl, trivial, fun h => nomatch h⟩

theorem Exchange.loaned (h : Exchange c [m] t ok) :
    Safe inSync (fun x => ∃ q, x = some q ∧ True ∧ (ok = true → q = [])) (some [])
      (connActs c t) := by
  have hs : (streamPolicy (R := fun _ => True) (c := c)).Serves [m] false false :=
    stream_serves (single_singleton m)
  refine (hs 0 [] t ok rfl h).mono ?_
  rintro _ ⟨q, rfl, hq⟩
  refine ⟨q, rfl, trivial, fun hok => ?_⟩
  subst hok
  exact hq

theorem ApiUse.loaned (h : ApiUse R sql c t ok) :
    Safe inSync (fun x => ∃ q, x = some q ∧ True ∧ (ok = true → q = [])) (some [])
      (connActs c t) := by
  cases h with
  | query hx =>
    refine hx.loaned.mono ?_
    rintro _ ⟨q, rfl, -⟩
    exact ⟨q, rfl, trivial, fun h => nomatch h⟩
  | reset hx _ hy =>
    rw [connActs_append]
    refine hx.loaned.append ?_
    rintro _ ⟨q, rfl, -, hq⟩
    cases hq rfl
    exact hy.loaned

def PoolUser (c : ConnId) (ok : Relay → Trace Ans → Prop) (a : List (Act PoolId Traffic)) : Prop :=
  (∃ dbName session multiplex rs t, RelayRun dbName session multiplex rs t ∧
    (∀ r ∈ rs, ok r.1 r.2) ∧ a <+: connActs c (flat rs ++ t)) ∨
  (∃ tr, Runs pollReaderLSNsForGroup tr () ∧ a <+: connActs c tr) ∨
  ∃ req tr r, Runs (handleApiQuery req) tr r ∧ a <+: connActs c tr

theorem PoolUser.synced (h : PoolUser c Attentive a) : Safe inSync (fun _ => True) none a := by
  rcases h with ⟨_, _, _, rs, t, hrun, hok, ha⟩ | ⟨tr, hrun, b, hb⟩ | ⟨req, tr, r, hrun, b, hb⟩
  · exact hrun.safe_prefix (R := fun _ => True) (fun _ _ => trivial) (P := streamPolicy)
      (fun r hr => (hok r hr).admits) ha
  · have hs := (pollReaderLSNsForGroup_loans hrun).safe (c := c) (fun _ _ _ h => h.talk)
      (D := inSync) (fun t ok p s h hf => hf ▸ h.loaned) none
    rw [connActs_conn, ← hb] at hs
    exact hs.left
  · have hs := (handleApiQuery_loans (R := fun _ => True) hrun fun _ _ => trivial).safe (c := c)
      (fun _ _ _ h => h.talk) (D := inSync) (fun t ok p s h hf => hf ▸ h.loaned) none
    rw [connActs_conn, ← hb] at hs
    exact hs.left

/-- However the users of the pools interleave, a request is sent, and a connection is released,
only after every response to earlier requests was read. -/
theorem users_inSync {I : Type} [DecidableEq I] {history : List (I × Act PoolId Traffic)}
    (h : ∀ i, PoolUser c Attentive (acts i history)) :
    Obedient inSync (.away : Place I PoolId (List Message)) history :=
  obedient_of_safe (fun _ _ h => h) (fun _ _ hw => nomatch hw) fun i => (h i).synced

end Streams

def causalScript [External] (inbox replies : List Message) : Script :=
  { Script.simple inbox replies with config := { defaultConfig with causalConsistency := true } }

theorem users_inSync_insert : ∃ (_ : External) (rs : List (Relay × Trace Ans)) (t : Trace Ans),
    Act.use (.wrote (queryMessage currentLSNQuery) true) ∈ connActs 7 (flat rs ++ t) ∧
      (∀ i, PoolUser 7 Attentive (acts i (soleHistory (connActs 7 (flat rs ++ t))))) ∧
      Obedient inSync .away (soleHistory (connActs 7 (flat rs ++ t))) := by
  let _ := asciiExternal
  refine ⟨asciiExternal, ?_⟩
  obtain ⟨session, rs, t, h, hc⟩ := Script.play_check (n := 60)
    (s := causalScript [queryMessage (ascii "INSERT INTO t VALUES (1)")]
      [readyMessage, readyMessage])
    (f := fun rs t => decide (∀ r ∈ rs, Attentive r.1 r.2) &&
      decide (Act.use (.wrote (queryMessage currentLSNQuery) true) ∈ connActs 7 (flat rs ++ t)))
    (by decide +kernel)
  simp only [Bool.and_eq_true, decide_eq_true_eq] at hc
  have hu : ∀ i, PoolUser 7 Attentive (acts i (soleHistory (connActs 7 (flat rs ++ t)))) := by
    intro i
    rw [acts_soleHistory]
    exact .inl ⟨_, session, _, rs, t, h, hc.1, List.prefix_refl _⟩
  exact ⟨rs, t, hc.2, hu, users_inSync hu⟩

/-- An LSN query that is answered with an error is abandoned before its ReadyForQuery, and the
connection is released. -/
theorem lsn_error_out_of_sync : ∃ (_ : External) (rs : List (Relay × Trace Ans)) (t : Trace Ans),
    (∀ i, PoolUser 7 (fun _ _ => True) (acts i (soleHistory (connActs 7 (flat rs ++ t))))) ∧
      ¬ Obedient inSync .away (soleHistory (connActs 7 (flat rs ++ t))) := by
  let _ := asciiExternal
  refine ⟨asciiExternal, ?_⟩
  obtain ⟨session, rs, t, h, hc⟩ := Script.play_check (n := 60)
    (s := causalScript [queryMessage (ascii "INSERT INTO t VALUES (1)")]
      [readyMessage, errorMessage])
    (f := fun rs t => decide (connActs 7 (flat rs ++ t) = [.take 1,
      .use (.wrote (queryMessage (ascii "INSERT INTO t VALUES (1)")) true),
      .use (.got (some readyMessage)), .use (.wrote (queryMessage currentLSNQuery) true),
      .use (.got (some errorMessage)), .give 1])) (by decide +kernel)
  refine ⟨rs, t, fun i => ?_, fun ho => ?_⟩
  · rw [acts_soleHistory]
    exact .inl ⟨_, session, _, rs, t, h, fun _ _ => trivial, List.prefix_refl _⟩
  · rw [of_decide_eq_true hc] at ho
    have h₁ := ho.2 (.held () []) (.create rfl)
    have h₂ := h₁.2 (.held () [readyMessage])
      (.use ⟨[readyMessage], ⟨[], readyMessage, rfl, by simp, rfl⟩, rfl⟩)
    have h₃ := h₂.2 (.held () []) (.use rfl)
    have h₄ := h₃.2 (.held () [errorMessage, readyMessage])
      (.use ⟨_, ⟨[errorMessage], readyMessage, rfl, by decide, rfl⟩, rfl⟩)
    have h₅ := h₄.2 (.held () [readyMessage]) (.use rfl)
    obtain ⟨q, hq, hb⟩ := h₅.1
    cases hq
    cases hb

end Pgmux
