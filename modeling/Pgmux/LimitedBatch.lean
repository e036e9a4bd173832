import Pgmux.BatchWriter
import Pgmux.MuxExecution
import Pgmux.Statements
import Pgmux.WriteInvalidation

namespace Pgmux

open Interaction

section LimitedBatch

variable [External]

/-- A rate limit refused the message of the round. The limits are asked after the check for
maintenance. -/
def refused : Trace Ans → Bool
  | _ :: _ :: _ :: ⟨.allow .all, false⟩ :: _ => true
  | _ :: _ :: _ :: ⟨.allow .all, true⟩ :: ⟨.allow .user, false⟩ :: _ => true
  | _ :: _ :: _ :: ⟨.allow .all, true⟩ :: ⟨.allow .user, true⟩ :: ⟨.allow .ip, false⟩ :: _ => true
  | _ => false

def OffersMessage (tr : Trace Ans) : Prop :=
  ∃ msg, received tr = some msg ∧ msg.type ≠ msgQuery ∧ msg.type ≠ msgSync

def ReceivesSync (tr : Trace Ans) : Prop := ∃ msg, received tr = some msg ∧ msg.type = msgSync

def SyncPasses (tr : Trace Ans) : Prop := ReceivesSync tr ∧ refused tr = false

/-- Rounds in which no Sync passes. -/
inductive Unsynced : Relay → List (Relay × Trace Ans) → Relay → Prop
  | nil : Unsynced st [] st
  | cons : Runs (relayStep st) t (.inl st₁) → ¬ SyncPasses t → Unsynced st₁ rs st' →
      Unsynced st ((st, t) :: rs) st'

/-- The Sync that passes, and the rounds up to it. A client whose Sync was refused may send anything
before the next one. -/
inductive Synced (st : Relay) : Bool → List (Relay × Trace Ans) → Relay → Trace Ans → Prop
  | passed : Runs (relayStep st) tr r → SyncPasses tr → Synced st false [] st tr
  | later : Runs (relayStep st) t (.inl st₁) → ReceivesSync t → refused t = true →
      Unsynced st₁ mid st' → Runs (relayStep st') tr r → SyncPasses tr →
      Synced st true ((st, t) :: mid) st' tr

/-- The last Bind that passes the limits. -/
def lastBound (rs : List (Relay × Trace Ans)) : Option BindMessageDetail :=
  lastBind (rs.filter fun r => !refused r.2)

/-- What stands for the batch when a Sync passes: the messages that it left in the buffer, or the
query of its last Bind unless another Bind has replaced it. -/
def remaining (batch : List (Relay × Trace Ans)) (st : Relay) (mid : List (Relay × Trace Ans))
    (st' : Relay) : List Message :=
  if st.synth.isSome then
    if (lastBound mid).isSome then []
    else (((lastBound batch).bind st'.bindQuery).map queryMessage).toList
  else st.extBuf

/-- If a limit refuses a message of the batch or its Sync, nothing of the batch is executed. -/
def RejectedWhole (batch : List (Relay × Trace Ans)) (st : Relay) (syncRefused : Bool) : Prop :=
  (∃ r ∈ batch, refused r.2 = true) ∨ syncRefused = true →
    ∀ mid st' tr, Synced st syncRefused mid st' tr →
      ∀ c, ∀ m ∈ remaining batch st mid st', ⟨.write c m, true⟩ ∉ tr

/-- Some Parse of the statement that a Bind names, as the rewriter passes it on, would take the
parameters of the Bind. -/
def Preparable (detail : BindMessageDetail) : Prop :=
  ∃ msg rules, msg.type = msgParse ∧ (parseNameText msg.payload).1 = detail.statementName ∧
    ∃ synth : Synthesizer, ((synth.registerStatement (parseNameText msg.payload).1
      (parsedText rules msg) (parseParseMessageFull msg.payload).paramOIDs).synthesize
        detail.statementName detail.parameters detail.formatCodes).isSome

/-- In proxy mode every message of the batch is refused. In multiplex mode the last Bind that passes
has no query, and after a refused Sync a client can give it none. -/
def NothingLeft (batch : List (Relay × Trace Ans)) (st : Relay) (syncRefused : Bool) : Prop :=
  if st.synth.isSome then
    ∀ detail ∈ lastBound batch, st.bindQuery detail = none ∧
      (syncRefused = true → ¬ Preparable detail)
  else ∀ r ∈ batch, refused r.2 = true

variable {st st' : Relay} {tr t : Trace Ans}

theorem rateLimited_refused_eq (h : Runs rateLimited t x) (e₁ e₂ e₃ : Event) (u : Trace Ans) :
    refused (e₁ :: e₂ :: e₃ :: (t ++ u)) = x.isSome := by
  unfold rateLimited at h
  rw [runs_perform_bind] at h
  obtain ⟨b, t, h, rfl⟩ := h
  cases b with
  | false =>
    obtain ⟨rfl, rfl⟩ := runs_pure.mp h
    rfl
  | true =>
    rw [if_pos rfl, runs_perform_bind] at h
    obtain ⟨b, t, h, rfl⟩ := h
    cases b with
    | false =>
      obtain ⟨rfl, rfl⟩ := runs_pure.mp h
      rfl
    | true =>
      rw [if_pos rfl, runs_perform_bind] at h
      obtain ⟨b, t, h, rfl⟩ := h
      cases b with
      | false =>
        obtain ⟨rfl, rfl⟩ := runs_pure.mp h
        rfl
      | true =>
        obtain ⟨rfl, rfl⟩ := runs_pure.mp h
        rfl

theorem relayStep_offered (h : Runs (relayStep st) tr (.inl st')) (hm : received tr = some msg)
    (hq : msg.type ≠ msgQuery) :
    (refused tr ∧ st' = st) ∨
      (refused tr = false ∧ ∃ t, Runs (handleExtended st msg) t (.inl st')) := by
  obtain ⟨b, msg', m, t, rfl, hh⟩ := relayStep_handled h
  cases hm
  cases hh with
  | limited h₁ _ hs => exact .inl ⟨rateLimited_refused_eq h₁ .., hs⟩
  | query _ ht _ => exact (hq ht).elim
  | extended h₁ _ h₂ => exact .inr ⟨rateLimited_refused_eq h₁ .., _, h₂⟩

theorem synthesize_eq_of_getStatement {synth synth' : Synthesizer}
    (h : synth'.getStatement name = synth.getStatement name) :
    synth'.synthesize name params codes = synth.synthesize name params codes := by
  unfold Synthesizer.getStatement at h
  rw [Synthesizer.synthesize, h, Synthesizer.synthesize]

/-- The Bind has no query, and no Parse gives it one. -/
def Relay.Unusable (st : Relay) (detail : BindMessageDetail) : Prop :=
  st.bindQuery detail = none ∧ ¬ Preparable detail

theorem Relay.Unusable.of_statements (h : st.Unusable detail)
    (hk : ∀ synth', st'.synth = some synth' → ∀ stmt, synth'.getStatement detail.statementName =
      some stmt → ∃ synth, st.synth = some synth ∧
        synth.getStatement detail.statementName = some stmt) : st'.Unusable detail := by
  refine ⟨?_, h.2⟩
  rw [Relay.bindQuery, Option.bind_eq_none_iff]
  intro synth' hs'
  rw [Option.eq_none_iff_forall_not_mem]
  intro query hquery
  obtain ⟨stmt, hstmt⟩ := synthesize_statement hquery
  obtain ⟨synth, hs, hknown⟩ := hk synth' hs' stmt hstmt
  have hnone := h.1
  rw [Relay.bindQuery, hs, Option.bind_some,
    ← synthesize_eq_of_getStatement (hstmt.trans hknown.symm)] at hnone
  rw [Option.mem_def.mp hquery] at hnone
  cases hnone

theorem Registered.unusable (h : Registered R st rules msg st') (ht : msg.type = msgParse)
    (hu : st.Unusable detail) : st'.Unusable detail := by
  by_cases hn : (parseNameText msg.payload).1 = detail.statementName
  · refine ⟨?_, hu.2⟩
    rw [Relay.bindQuery, h.synth, Option.bind_eq_none_iff]
    intro synth' hs'
    obtain ⟨synth, -, rfl⟩ := Option.map_eq_some_iff.mp hs'
    rw [← Option.not_isSome_iff_eq_none]
    exact fun hsome => hu.2 ⟨msg, rules, ht, hn, synth, hsome⟩
  · refine hu.of_statements fun synth' hs' stmt hg => ?_
    rw [h.synth] at hs'
    obtain ⟨synth, hs, rfl⟩ := Option.map_eq_some_iff.mp hs'
    rcases getStatement_registerStatement hg with ⟨he, -⟩ | ⟨-, hg⟩
    · exact (hn he.symm).elim
    · exact ⟨synth, hs, hg⟩

/-- What a message that passes, and is no Query and no Sync, does to the batch. -/
structure Taken (st : Relay) (msg : Message) (st' : Relay) : Prop where
  blocked : st.extSessionBlocked.isSome → st'.extSessionBlocked.isSome
  buffered : ∃ ms, st'.extBuf = st.extBuf ++ ms ∧ (∀ m ∈ ms, m.type ≠ msgQuery) ∧
    (st.synth = none → ms ≠ [])
  bound : st.synth.isSome → st'.muxBindDetail =
    (if msg.type = msgBind then parseBindMessageFull msg.payload else none).or st.muxBindDetail
  unusable : ∀ detail, st.Unusable detail → st'.Unusable detail

theorem Taken.of_same (hb : msg.type ≠ msgBind) (hs : st.synth.isSome) : Taken st msg st where
  blocked := id
  buffered := ⟨[], by simp, by simp, fun hn => by simp [hn] at hs⟩
  bound _ := by rw [if_neg hb, Option.none_or]
  unusable _ := id

theorem Taken.of_buffered (hb : msg.type ≠ msgBind) (hq : msg.type ≠ msgQuery) (x : Bool) :
    Taken st msg { st with extHasExecute := x, extBuf := st.extBuf ++ [msg] } where
  blocked := id
  buffered := ⟨[msg], rfl, by simpa using hq, by simp⟩
  bound _ := by rw [if_neg hb, Option.none_or]
  unusable _ := id

omit [External] in
theorem isSome_of_none_imp {a b : Option α} (h : b = none → a = none) (ha : a.isSome) :
    b.isSome := by
  rw [Option.isSome_iff_ne_none] at ha ⊢
  exact mt h ha

theorem Registered.taken (h : Registered R st rules msg st') (ht : msg.type = msgParse) :
    Taken st msg st' where
  blocked := isSome_of_none_imp fun hn => (h.unblocked hn).1
  buffered := by
    have hq : (parsedMessage rules msg).type ≠ msgQuery := by
      rw [parsedMessage, forwardedParse_type ht]
      decide
    rw [h.extBuf]
    cases st.synth with
    | none => exact ⟨[parsedMessage rules msg], by simp, by simpa using hq, by simp⟩
    | some synth => exact ⟨[], by simp, by simp, by simp⟩
  bound _ := by rw [h.muxBindDetail, if_neg (by rw [ht]; decide), Option.none_or]
  unusable _ := h.unusable ht

theorem BoundTo.taken (h : BoundTo st msg name st') (ht : msg.type = msgBind) :
    Taken st msg st' where
  blocked hb := by rwa [h.blocked]
  buffered := by
    rcases h.mode with ⟨-, -, hbuf⟩ | ⟨hsome, hbuf, -⟩
    · exact ⟨[msg], hbuf, by simp [ht]; decide, by simp⟩
    · exact ⟨[], by simp [hbuf], by simp, fun hn => by simp [hn] at hsome⟩
  bound hs := by
    rcases h.mode with ⟨hnone, -⟩ | ⟨-, -, detail, hd, hdetail, -⟩
    · simp [hnone] at hs
    · rw [hdetail, if_pos ht, hd, Option.some_or]
  unusable detail hu := ⟨by rw [Relay.bindQuery, h.synth]; exact hu.1, hu.2⟩

theorem ClosedBy.taken (h : ClosedBy st msg st') (ht : msg.type = msgClose) :
    Taken st msg st' where
  blocked hb := by rwa [h.blocked]
  buffered := by
    rw [h.extBuf]
    cases st.synth with
    | none => exact ⟨[msg], by simp, by simp [ht]; decide, by simp⟩
    | some synth => exact ⟨[], by simp, by simp, by simp⟩
  bound _ := by rw [h.muxBindDetail, if_neg (by rw [ht]; decide), Option.none_or]
  unusable _ hu := hu.of_statements fun _ hs' _ hg => h.known hs' hg

theorem handleExtended_taken (h : Runs (handleExtended st msg) t (.inl st'))
    (hq : msg.type ≠ msgQuery) (hy : msg.type ≠ msgSync) : Taken st msg st' := by
  unfold handleExtended at h
  split at h
  · rename_i ht
    obtain ⟨rules, now, t, -, hstep⟩ := handleParse_step h
    exact hstep.registered.taken ht
  split at h
  · rename_i ht
    obtain ⟨name, hb⟩ := (handleBind_step h).boundTo
    exact hb.taken ht
  rename_i hb
  split at h
  · rename_i ht
    exact (closedBy_of_noted (handleClose_step h)).taken ht
  split at h
  · unfold handleDescribe at h
    split at h
    · rename_i synth hs
      obtain ⟨t₁, ok, t₂, rfl, -, h⟩ := h.of_seq
      obtain ⟨-, he⟩ := runs_pure.mp h
      rw [(proceed_inl he.symm).2]
      exact .of_same hb (by rw [hs]; rfl)
    · cases (runs_pure.mp h).2
      exact .of_buffered hb hq _
  split at h
  · unfold handleExecute at h
    split at h <;> rename_i hs <;> cases (runs_pure.mp h).2
    · exact .of_same hb hs
    · exact .of_buffered hb hq _
  · unfold handleOther at h
    split at h <;> rename_i hs <;> cases (runs_pure.mp h).2
    · exact .of_same hb hs
    · exact .of_buffered hb hq _

/-- What the rounds in which no Sync passes leave of a batch. -/
structure BatchKept (st : Relay) (rs : List (Relay × Trace Ans)) (st' : Relay) : Prop where
  mode : st'.synth.isSome = st.synth.isSome
  reader : MuxReaderless st → MuxReaderless st'
  blocked : st.extSessionBlocked.isSome → st'.extSessionBlocked.isSome
  buffered : ∃ ms, st'.extBuf = st.extBuf ++ ms ∧ (∀ m ∈ ms, m.type ≠ msgQuery) ∧
    (st.synth = none → (∀ r ∈ rs, OffersMessage r.2) →
      (ms = [] ↔ ∀ r ∈ rs, refused r.2 = true))
  bound : st.synth.isSome → st'.muxBindDetail = (lastBound rs).or st.muxBindDetail
  unusable : ∀ detail, st.Unusable detail → st'.Unusable detail

theorem BatchKept.nil (st : Relay) : BatchKept st [] st where
  mode := rfl
  reader := id
  blocked := id
  buffered := ⟨[], by simp⟩
  bound _ := rfl
  unusable _ := id

theorem lastBound_single (st : Relay) (tr : Trace Ans) :
    lastBound [(st, tr)] = if refused tr then none else bindOf tr := by
  cases hr : refused tr <;> simp [lastBound, hr, lastBind]

theorem relayStep_kept (h : Runs (relayStep st) tr (.inl st')) (hn : ¬ SyncPasses tr) :
    BatchKept st [(st, tr)] st' := by
  have hands := relayStep_hands h
  obtain ⟨b, msg, m, t, rfl, hh⟩ := relayStep_handled h
  cases hh with
  | @limited t₁ text t₂ h₁ h₂ hs =>
    have hr := rateLimited_refused_eq h₁ ⟨.ctxDone, b⟩ ⟨.readClient, .message msg⟩
      ⟨.inMaintenance, m⟩ t₂
    rw [hs]
    refine ⟨rfl, id, id, ⟨[], by simp [hr]⟩, fun _ => ?_, fun _ => id⟩
    rw [lastBound_single, hr]
    rfl
  | @query t₁ t₂ h₁ ht h₂ =>
    have hsame : SameBatch st st' := (handleQuery_step h₂ (configured_resetsSeen t₂)).sameBatch
    refine ⟨hands.mode, hands.reader, fun hb => by rwa [hsame.blocked], ⟨[], ?_, by simp, ?_⟩,
      fun _ => ?_, fun detail hu => ⟨by rw [Relay.bindQuery, hsame.synth]; exact hu.1, hu.2⟩⟩
    · rw [hsame.extBuf, List.append_nil]
    · intro _ hall
      obtain ⟨msg', hm, hq, -⟩ := hall _ (.head _)
      cases hm
      exact (hq ht).elim
    · have hb : bindOf (⟨.ctxDone, b⟩ :: ⟨.readClient, .message msg⟩ :: ⟨.inMaintenance, m⟩ ::
          (t₁ ++ t₂) : Trace Ans) = none := if_neg (by rw [ht]; decide)
      rw [lastBound_single, hb, ite_self, Option.none_or, hsame.muxBindDetail]
  | @extended t₁ t₂ h₁ ht h₂ =>
    have hr := rateLimited_refused_eq h₁ ⟨.ctxDone, b⟩ ⟨.readClient, .message msg⟩
      ⟨.inMaintenance, m⟩ t₂
    have hy : msg.type ≠ msgSync := fun hy => hn ⟨⟨msg, rfl, hy⟩, hr⟩
    have htaken := handleExtended_taken h₂ ht hy
    obtain ⟨ms, hbuf, hms, hne⟩ := htaken.buffered
    refine ⟨hands.mode, hands.reader, htaken.blocked, ⟨ms, hbuf, hms, fun hs _ => ?_⟩,
      fun hs => ?_, htaken.unusable⟩
    · simpa [hr] using hne hs
    · rw [lastBound_single, hr]
      exact htaken.bound hs

omit [External] in
theorem synth_eq_none_of_mode {st st' : Relay} (h : st'.synth.isSome = st.synth.isSome)
    (hs : st.synth = none) : st'.synth = none := by
  rw [hs] at h
  simpa using h

theorem lastBound_append (rs rs' : List (Relay × Trace Ans)) :
    lastBound (rs ++ rs') = (lastBound rs').or (lastBound rs) := by
  rw [lastBound, List.filter_append, lastBind_append]
  rfl

theorem BatchKept.append (h₁ : BatchKept st rs st₁) (h₂ : BatchKept st₁ rs' st₂) :
    BatchKept st (rs ++ rs') st₂ where
  mode := h₂.mode.trans h₁.mode
  reader hr := h₂.reader (h₁.reader hr)
  blocked hb := h₂.blocked (h₁.blocked hb)
  buffered := by
    obtain ⟨ms₁, he₁, hm₁, hr₁⟩ := h₁.buffered
    obtain ⟨ms₂, he₂, hm₂, hr₂⟩ := h₂.buffered
    refine ⟨ms₁ ++ ms₂, by rw [he₂, he₁, List.append_assoc], ?_, fun hs hall => ?_⟩
    · exact List.forall_mem_append.mpr ⟨hm₁, hm₂⟩
    · rw [List.forall_mem_append] at hall
      rw [List.append_eq_nil_iff, hr₁ hs hall.1, hr₂ (synth_eq_none_of_mode h₁.mode hs) hall.2,
        List.forall_mem_append]
  bound hs := by
    rw [h₂.bound (by rw [h₁.mode]; exact hs), h₁.bound hs, lastBound_append, Option.or_assoc]
  unusable detail hu := h₂.unusable detail (h₁.unusable detail hu)

theorem Unsynced.kept (h : Unsynced st rs st') : BatchKept st rs st' := by
  induction h with
  | nil => exact .nil _
  | cons hrun hn _ ih => exact (relayStep_kept hrun hn).append ih

theorem OffersMessage.not_syncPasses (h : OffersMessage tr) : ¬ SyncPasses tr := by
  rintro ⟨⟨msg, hm, ht⟩, -⟩
  obtain ⟨msg', hm', -, hy⟩ := h
  rw [hm] at hm'
  cases hm'
  exact hy ht

theorem rounds_unsynced (h : Rounds relayStep st (batch ++ next :: post) b)
    (hbatch : ∀ r ∈ batch, ¬ SyncPasses r.2) : Unsynced st batch next.1 := by
  induction batch generalizing st with
  | nil =>
    have hst : next.1 = st := h.head rfl
    rw [hst]
    exact .nil
  | cons r batch ih =>
    have hst : r.1 = st := h.head rfl
    obtain ⟨after, rest, hafter⟩ := List.exists_cons_of_ne_nil
      (List.append_ne_nil_of_right_ne_nil batch (List.cons_ne_nil next post))
    rw [List.cons_append, hafter] at h
    obtain ⟨hrun, hrest⟩ := h.uncons
    rw [← hafter] at hrest
    have hlater := ih hrest fun r hr => hbatch r (.tail _ hr)
    obtain ⟨st₀, t⟩ := r
    obtain rfl : st₀ = st := hst
    exact .cons hrun (hbatch _ (.head _)) hlater

theorem relayStep_roomy (h : Runs (relayStep st) tr r) (hm : received tr = some msg)
    (hq : msg.type ≠ msgQuery) :
    (conn tr = [] ∧ ∃ b, r = proceed b st) ∨ (st.extBuf.length < maxExtBufMessages ∧
      ∃ t₀ t, tr = t₀ ++ t ∧ conn t₀ = [] ∧ Runs (handleExtended st msg) t r) := by
  have hlimits {msg m t₁ x} (h₁ : Runs rateLimited t₁ x) : conn (⟨.ctxDone, false⟩ ::
      ⟨.readClient, .message msg⟩ :: ⟨.inMaintenance, m⟩ :: t₁ : Trace Ans) = [] := by
    simp [conn_cons, Op.onConn, (rateLimited_foot.quiet rfl).conn h₁]
  cases relayStep_ways h with
  | ends hk => exact .inl ⟨hk.conn rfl, false, rfl⟩
  | limited h₁ h₂ =>
    refine .inl ⟨?_, true, rfl⟩
    rw [← List.cons_append, ← List.cons_append, ← List.cons_append, conn_append, hlimits h₁,
      (reject_foot.quiet rfl).conn h₂]
    rfl
  | query ht =>
    cases hm
    exact (hq ht).elim
  | extended _ hroom h₁ h₂ =>
    cases hm
    exact .inr ⟨hroom, _, _, rfl, hlimits h₁, h₂⟩

theorem relayStep_sync (h : Runs (relayStep st) tr r) (hs : ReceivesSync tr) :
    conn tr = [] ∨ (st.extBuf.length < maxExtBufMessages ∧ ∃ msg t₀ t, tr = t₀ ++ t ∧
      conn t₀ = [] ∧ Runs (handleSync st msg) t r) := by
  obtain ⟨msg, hm, ht⟩ := hs
  rcases relayStep_roomy h hm (by rw [ht]; decide) with ⟨hquiet, -⟩ | ⟨hroom, t₀, t, htr, hq, hrun⟩
  · exact .inl hquiet
  · rw [handleExtended_sync ht] at hrun
    exact .inr ⟨hroom, msg, t₀, t, htr, hq, hrun⟩

/-- What a Sync that passes executes. -/
def Relay.pending (st : Relay) : List Message :=
  if st.synth.isSome then (st.synthesized.map queryMessage).toList else st.extBuf

theorem pending_proxy (hs : st.synth = none) : st.pending = st.extBuf := by
  simp [Relay.pending, hs]

theorem pending_multiplex (hs : st.synth.isSome) :
    st.pending = (st.synthesized.map queryMessage).toList := by
  simp [Relay.pending, hs]

theorem handleSync_blocked (h : Runs (handleSync st msg) t r)
    (hb : st.extSessionBlocked.isSome) (hreader : MuxReaderless st)
    (hbuf : st.synth = none → ∀ m ∈ st.extBuf, m.type ≠ msgQuery) :
    Written (fun _ m => m ∉ st.pending) t := by
  have hblocked (hu : Unblocked (· ∈ t) st) : False := by
    rw [hu.1] at hb
    cases hb
  apply written_conn
  have hstep := handleSync_step h (configured_resetsSeen t)
  cases hs : st.synth with
  | none =>
    rw [pending_proxy hs]
    refine hstep.written ?_ ?_ ?_ ?_ ?_
    · refine ownQueries_of fun c m ho hm => ?_
      rcases ho with rfl | ⟨_, _, rfl⟩ <;> exact hbuf hs _ hm rfl
    · intro synth _ _ hy
      simp [hs] at hy
    · exact fun _ hu => (hblocked hu).elim
    · exact fun _ hu => (hblocked hu).elim
    · exact fun _ hu => (hblocked hu).elim
  | some synth =>
    have hmux : st.synth.isSome := by rw [hs]; rfl
    have hnone := hreader hmux
    generalize conn t = t' at hstep ⊢
    cases hstep with
    | rejected hg =>
      cases hg with
      | absent => exact .nil
      | released hr => simp [hnone] at hr
    | noBind _ hd _ => simp [Relay.synthesized, Relay.pending, hs, hd, Written]
    | synthFailed hy hd hq _ =>
      rw [hs] at hy
      cases hy
      simp [Relay.synthesized, Relay.pending, hs, hd, hq, Written]
    | synthRead _ _ _ hu => exact (hblocked hu).elim
    | synthWrite _ _ _ hu => exact (hblocked hu).elim
    | batchRead _ hu => exact (hblocked hu).elim
    | batchWrite _ hu => exact (hblocked hu).elim

section Possible

theorem runs_resetAndReleaseToPool (c : ConnId) (p : Option PoolId) :
    ∃ t alive, Runs (resetAndReleaseToPool c p) t alive := by
  refine ⟨[⟨.config, defaultConfig⟩, ⟨.write c (queryMessage defaultConfig.resetQuery), false⟩,
    ⟨.discard p c, ()⟩], p.isSome, ?_⟩
  exact .call (.call (.call .ret))

theorem runs_releaseStaleReader (st : Relay) : ∃ t b, Runs (releaseStaleReader st) t
    { st with boundReader := b } := by
  unfold releaseStaleReader
  split
  · unfold releaseReader
    cases hb : st.boundReader with
    | none =>
      refine ⟨[], st.boundReader, ?_⟩
      exact .ret
    | some l =>
      obtain ⟨t, alive, ht⟩ := runs_resetAndReleaseToPool l.conn (some l.pool)
      exact ⟨_, none, runs_bind.mpr ⟨t, alive, [], ht, .ret, rfl⟩⟩
  · exact ⟨[], st.boundReader, .ret⟩

theorem runs_forwardFor (s : Session) (ms : List Message) (c : ConnId) :
    Runs (forwardFor s ms c) (sentAll c ms ++ [⟨.read c, none⟩]) .failed := by
  refine runs_bind.mpr ⟨_, false, [], ?_, .ret, (List.append_nil _).symm⟩
  exact runs_bind.mpr ⟨_, _, _, runs_forwardAll c ms, runs_relayUntilReady c, rfl⟩

theorem runs_dropWriter (st : Relay) (c : ConnId) (acquired : Bool) (p : PoolId) :
    ∃ t st', Runs (dropWriter st c acquired p) t st' := by
  unfold dropWriter
  split
  · exact ⟨[⟨.discard (some p) c, ()⟩], _, .call .ret⟩
  · cases st.boundWriter with
    | some l => exact ⟨[⟨.discard (some l.pool) l.conn, ()⟩], _, .call .ret⟩
    | none => exact ⟨[], _, .ret⟩

theorem runs_acquireWriterConn (bound : Option ConnId) :
    ∃ t c acquired, Runs (acquireWriterConn bound) t (some (c, acquired)) := by
  cases bound with
  | some c => exact ⟨[], c, false, .ret⟩
  | none =>
    refine ⟨[⟨.writerAllow, true⟩, ⟨.writerPool, 0⟩, ⟨.acquire 0, some 0⟩], 0, true, ?_⟩
    exact .call (.call (.call .ret))

theorem runs_onWriter (st : Relay) (s : Session) (ms : List Message)
    (finish : Relay → ConnId → Bool → PoolId → Proc Flow) :
    ∃ t r c, Runs (onWriter st (forwardFor s ms) finish) t r ∧
      ∀ m ∈ ms, ⟨.write c m, true⟩ ∈ t := by
  obtain ⟨t₁, c, acquired, h₁⟩ := runs_acquireWriterConn st.boundConn
  obtain ⟨t₂, st', h₂⟩ := runs_dropWriter st c acquired 0
  have hrest : Runs (do
      ask .clearCancel
      let st ← dropWriter st c acquired 0
      return .inr st : Proc Flow) (⟨.clearCancel, ()⟩ :: (t₂ ++ [])) (.inr st') :=
    runs_perform_bind.mpr ⟨(), _, runs_bind.mpr ⟨_, _, _, h₂, .ret, rfl⟩, rfl⟩
  refine ⟨⟨.writerPool, 0⟩ :: (t₁ ++ ⟨.writerAddr, []⟩ :: ⟨.setCancel [] c, ()⟩ ::
    ((sentAll c ms ++ [⟨.read c, none⟩]) ++ (⟨.clearCancel, ()⟩ :: (t₂ ++ [])))), .inr st', c,
    ?_, ?_⟩
  · refine runs_perform_bind.mpr ⟨0, _, runs_bind.mpr ⟨_, _, _, h₁, ?_, rfl⟩, rfl⟩
    refine runs_perform_bind.mpr ⟨[], _, ?_, rfl⟩
    refine runs_perform_bind.mpr ⟨(), _, ?_, rfl⟩
    exact runs_bind.mpr ⟨_, .failed, _, runs_forwardFor s ms c, hrest, rfl⟩
  · intro m hm
    simp [sentAll, hm]

theorem runs_fallback (ms : List Message) : ∃ t c, Runs (fallback true ms) t false ∧
    ∀ m ∈ ms, ⟨.write c m, true⟩ ∈ t := by
  refine ⟨⟨.writerPool, 0⟩ :: ⟨.acquire 0, some 0⟩ :: ⟨.writerAddr, []⟩ :: ⟨.setCancel [] 0, ()⟩ ::
    ((sentAll 0 ms ++ [⟨.read 0, none⟩]) ++ [⟨.clearCancel, ()⟩, ⟨.discard (some 0) 0, ()⟩]), 0,
    ?_, ?_⟩
  · refine runs_perform_bind.mpr ⟨0, _, ?_, rfl⟩
    refine runs_perform_bind.mpr ⟨some 0, _, ?_, rfl⟩
    refine runs_perform_bind.mpr ⟨[], _, ?_, rfl⟩
    refine runs_perform_bind.mpr ⟨(), _, ?_, rfl⟩
    refine runs_bind.mpr ⟨_, false, _, ?_, ?_, rfl⟩
    · exact runs_bind.mpr ⟨_, _, _, runs_forwardAll 0 ms, runs_relayUntilReady 0, rfl⟩
    · exact .call (.call .ret)
  · intro m hm
    simp [sentAll, hm]

theorem runs_runBatch (st : Relay) (msg : Message) : ∃ t r c, Runs (runBatch st msg) t r ∧
    ∀ m ∈ st.extBuf ++ [msg], ⟨.write c m, true⟩ ∈ t := by
  unfold runBatch
  split
  · obtain ⟨t, r, c, h, ⟨hw, -, -⟩, -⟩ := readBatch_misrouted st msg 0
    exact ⟨t, r, c, h, hw⟩
  · exact runs_onWriter st st.session (st.extBuf ++ [msg]) finishBatch

theorem runs_executeSynthesizedQuery (st : Relay) (query : Bytes) :
    ∃ t r c, Runs (executeSynthesizedQuery st query) t r ∧
      ⟨.write c (queryMessage query), true⟩ ∈ t := by
  unfold executeSynthesizedQuery
  split
  · obtain ⟨t, c, h, hw⟩ := runs_fallback [queryMessage query]
    refine ⟨⟨.nextReader none, none⟩ :: (t ++ []), .inr st, c, ?_, by simp [hw]⟩
    refine runs_perform_bind.mpr ⟨none, _, ?_, rfl⟩
    exact runs_bind.mpr ⟨t, false, [], h, .ret, rfl⟩
  · obtain ⟨t, r, c, h, hw⟩ := runs_onWriter st st.session [queryMessage query] finishSynthesized
    exact ⟨t, r, c, h, hw _ (List.mem_singleton_self _)⟩

theorem runs_executeSync (st : Relay) (msg : Message) (hp : st.pending ≠ []) :
    ∃ t r c, Runs (executeSync st msg) t r ∧ ∃ m ∈ st.pending, ⟨.write c m, true⟩ ∈ t := by
  cases hs : st.synth with
  | none =>
    rw [pending_proxy hs] at hp ⊢
    obtain ⟨m, hm⟩ := List.exists_mem_of_ne_nil _ hp
    obtain ⟨t, r, c, h, hw⟩ := runs_runBatch st msg
    simp only [executeSync, hs]
    refine ⟨_, _, c, runs_bind.mpr ⟨t, r, [], h, .ret, rfl⟩, m, hm, ?_⟩
    simpa using hw m (List.mem_append_left _ hm)
  | some synth =>
    rw [pending_multiplex (by rw [hs]; rfl)] at hp ⊢
    cases hquery : st.synthesized with
    | none => simp [hquery] at hp
    | some query =>
      have hbind : (st.muxBindDetail.bind fun detail =>
          synth.synthesize detail.statementName detail.parameters detail.formatCodes) =
            some query := by
        simpa [Relay.synthesized, hs] using hquery
      obtain ⟨detail, hd, hq⟩ := Option.bind_eq_some_iff.mp hbind
      obtain ⟨t, r, c, h, hw⟩ := runs_executeSynthesizedQuery st query
      simp only [executeSync, hs, syncMultiplex, hd, hq]
      refine ⟨_, _, c, runs_bind.mpr ⟨t, r, [], h, .ret, rfl⟩, queryMessage query, ?_, ?_⟩
      · simp
      · simpa using hw

theorem runs_handleSync_of (h₁ : Runs (releaseStaleReader st) t₁ st₁)
    (hb : st₁.extSessionBlocked = none) (h₂ : Runs (executeSync st₁ msg) t₂ r) :
    Runs (handleSync st msg) (t₁ ++ ⟨.inReadOnly, false⟩ :: t₂) r := by
  refine runs_bind.mpr ⟨_, _, _, h₁, ?_, rfl⟩
  simp only [hb]
  exact runs_perform_bind.mpr ⟨false, _, h₂, rfl⟩

theorem runs_handleSync (msg : Message) (hb : st.extSessionBlocked = none) (hp : st.pending ≠ []) :
    ∃ t r c, Runs (handleSync st msg) t r ∧ ∃ m ∈ st.pending, ⟨.write c m, true⟩ ∈ t := by
  obtain ⟨t₁, reader, h₁⟩ := runs_releaseStaleReader st
  obtain ⟨t₂, r, c, h₂, m, hm, hw⟩ :=
    runs_executeSync { st with boundReader := reader } msg hp
  exact ⟨_, r, c, runs_handleSync_of h₁ hb h₂, m, hm, by simp [hw]⟩

def passedLimits (msg : Message) : Trace Ans :=
  [⟨.ctxDone, false⟩, ⟨.readClient, .message msg⟩, ⟨.inMaintenance, false⟩, ⟨.allow .all, true⟩,
    ⟨.allow .user, true⟩, ⟨.allow .ip, true⟩]

theorem runs_passed (h : Runs (handleExtended st msg) t r) (hq : msg.type ≠ msgQuery)
    (hx : msg.type ≠ msgTerminate) (hroom : st.extBuf.length < maxExtBufMessages) :
    Runs (relayStep st) (passedLimits msg ++ t) r := by
  have hlimits : Runs rateLimited [⟨.allow .all, true⟩, ⟨.allow .user, true⟩, ⟨.allow .ip, true⟩]
      none := .call (.call (.call .ret))
  have hhandled : Runs (handleMessage st msg) (⟨.inMaintenance, false⟩ ::
      ([⟨.allow .all, true⟩, ⟨.allow .user, true⟩, ⟨.allow .ip, true⟩] ++ t)) r := by
    refine runs_perform_bind.mpr ⟨false, _, ?_, rfl⟩
    refine runs_bind.mpr ⟨_, _, _, hlimits, ?_, rfl⟩
    dsimp only
    rw [if_neg hq, if_neg (by omega)]
    exact h
  refine runs_perform_bind.mpr ⟨false, _, runs_perform_bind.mpr ⟨.message msg, _, ?_, rfl⟩, rfl⟩
  dsimp only
  rw [if_neg hx]
  exact hhandled

theorem runs_passedSync (hb : st.extSessionBlocked = none)
    (hroom : st.extBuf.length < maxExtBufMessages) (hp : st.pending ≠ []) :
    ∃ tr r c, Runs (relayStep st) tr r ∧ SyncPasses tr ∧
      ∃ m ∈ st.pending, ⟨.write c m, true⟩ ∈ tr := by
  obtain ⟨t, r, c, hrun, m, hm, hw⟩ := runs_handleSync syncMessage hb hp
  rw [← handleExtended_sync rfl] at hrun
  exact ⟨_, r, c, runs_passed hrun (by decide) (by decide) hroom, ⟨⟨_, rfl, rfl⟩, rfl⟩, m, hm,
    List.mem_append_right _ hw⟩

theorem handleExtended_parse (ht : msg.type = msgParse) :
    handleExtended st msg = handleParse st msg := by
  rw [handleExtended, if_pos ht]

theorem runs_guardParse (st : Relay) (query : Bytes) : ∃ t, Runs (guardParse st query) t st := by
  unfold guardParse
  split
  · exact ⟨[], .ret⟩
  · have hguarded : st.guarded defaultConfig query = st := by
      unfold Relay.guarded
      split <;> rename_i hm <;> first | cases hm | rfl
    refine ⟨_, runs_perform_bind.mpr ⟨defaultConfig, [], ?_, rfl⟩⟩
    rw [hguarded]
    exact .ret

theorem runs_handleParse (msg : Message) (rules : Option External.Rules) (hs : st.synth.isSome) :
    ∃ t st', Runs (handleParse st msg) (⟨.rewriter, rules⟩ :: t) (.inl st') ∧
      st'.extSessionBlocked = st.extSessionBlocked := by
  have hrewrite : ∃ text, Runs (rewriteQuery (parseNameText msg.payload).2) [⟨.rewriter, rules⟩]
      text := by
    cases rules with
    | none => exact ⟨_, .call .ret⟩
    | some rules => exact ⟨_, .call .ret⟩
  obtain ⟨text, hrewrite⟩ := hrewrite
  let query := text.getD (parseNameText msg.payload).2
  let st₁ : Relay :=
    { st.register 0 (parseNameText msg.payload).1 query
        (parseParseMessageFull msg.payload).paramOIDs with
      extIsWrite := st.extIsWrite || classifyBy defaultConfig.astParser query = .write }
  have hs₁ : st₁.synth.isSome := by simpa [st₁, Relay.register] using hs
  obtain ⟨t, hguard⟩ := runs_guardParse st₁ query
  let route := (st.session.registerStatement 0 (parseNameText msg.payload).1 query).1
  refine ⟨⟨.now, (0 : Nat)⟩ :: ⟨.config, defaultConfig⟩ ::
    (t ++ [⟨.sendClient ⟨'1'.toUInt8, []⟩, true⟩]),
    { st₁ with extRoute := st₁.parseRoute route }, ?_, rfl⟩
  refine runs_bind.mpr ⟨_, text, _, hrewrite, runs_perform_bind.mpr ⟨(0 : Nat), _, ?_, rfl⟩, rfl⟩
  refine runs_bind.mpr ⟨[⟨.config, defaultConfig⟩], _, _, .call .ret, ?_, rfl⟩
  refine runs_bind.mpr ⟨t, _, _, hguard, ?_, rfl⟩
  dsimp only
  rw [if_pos hs₁]
  exact .call .ret

theorem runs_passedParse (rules : Option External.Rules) (hs : st.synth.isSome)
    (hroom : st.extBuf.length < maxExtBufMessages) (ht : msg.type = msgParse) :
    ∃ t st', Runs (relayStep st) t (.inl st') ∧ received t = some msg ∧ refused t = false ∧
      st'.extSessionBlocked = st.extSessionBlocked ∧ ∃ seen, Registered seen st rules msg st' := by
  obtain ⟨t, st', hrun, hb⟩ := runs_handleParse msg rules hs
  obtain ⟨rules', now, t', he, hstep⟩ := handleParse_step hrun
  cases he
  rw [← handleExtended_parse ht] at hrun
  exact ⟨_, st', runs_passed hrun (by rw [ht]; decide) (by rw [ht]; decide) hroom, rfl, rfl, hb,
    _, hstep.registered⟩

theorem runs_refusedSync (st : Relay) : ∃ t, Runs (relayStep st) t (.inl st) ∧ ReceivesSync t ∧
    refused t := by
  have hrun : ∃ m₁ m₂, Runs (relayStep st) [⟨.ctxDone, false⟩,
      ⟨.readClient, .message syncMessage⟩, ⟨.inMaintenance, false⟩, ⟨.allow .all, false⟩,
      ⟨.sendClient m₁, true⟩, ⟨.sendClient m₂, true⟩] (.inl st) :=
    ⟨_, _, .call (.call (.call (.call (.call (.call .ret)))))⟩
  obtain ⟨m₁, m₂, h⟩ := hrun
  exact ⟨_, h, ⟨_, rfl, rfl⟩, rfl⟩

end Possible

def Fresh (st : Relay) : Prop :=
  st.extBuf = [] ∧ st.muxBindDetail = none ∧ MuxReaderless st

section Remaining

variable {st₀ : Relay} {batch mid : List (Relay × Trace Ans)}

theorem synthesized_eq_bindQuery (st : Relay) :
    st.synthesized = st.muxBindDetail.bind st.bindQuery := by
  cases hs : st.synth <;> cases hd : st.muxBindDetail <;>
    simp [Relay.synthesized, Relay.bindQuery, hs, hd]

theorem remaining_multiplex (h : BatchKept st₀ batch st) (hf : Fresh st₀)
    (hmid : BatchKept st mid st')
    (hs : st.synth.isSome) (hnone : lastBound mid = none) :
    remaining batch st mid st' = st'.pending := by
  have hdetail : st'.muxBindDetail = lastBound batch := by
    rw [hmid.bound hs, hnone, h.bound (by rw [← h.mode]; exact hs), hf.2.1, Option.none_or,
      Option.or_none]
  rw [pending_multiplex (by rw [hmid.mode]; exact hs), remaining, if_pos hs,
    if_neg (by simp [hnone]), synthesized_eq_bindQuery, hdetail]

theorem remaining_same (h : BatchKept st₀ batch st) (hf : Fresh st₀)
    (hnone : lastBound mid = none) :
    remaining batch st mid st = st.pending := by
  cases hs : st.synth with
  | none => rw [pending_proxy hs, remaining, if_neg (by simp [hs])]
  | some synth =>
    have hsome : st.synth.isSome := by rw [hs]; rfl
    rw [← remaining_multiplex h hf (.nil st) hsome rfl, remaining, if_pos hsome,
      if_neg (by simp [hnone]), remaining, if_pos hsome, if_neg (by simp [lastBound, lastBind])]

theorem remaining_subset (h : BatchKept st₀ batch st) (hf : Fresh st₀)
    (hmid : BatchKept st mid st') :
    remaining batch st mid st' ⊆ st'.pending := by
  cases hs : st.synth with
  | none =>
    obtain ⟨ms, hbuf, -⟩ := hmid.buffered
    rw [pending_proxy (synth_eq_none_of_mode hmid.mode hs), hbuf, remaining,
      if_neg (by simp [hs])]
    exact List.subset_append_left _ _
  | some synth =>
    have hsome : st.synth.isSome := by rw [hs]; rfl
    cases hnone : lastBound mid with
    | none => rw [remaining_multiplex h hf hmid hsome hnone]; exact List.Subset.refl _
    | some detail => simp [remaining, hsome, hnone]

theorem BatchKept.bufferedTypes (h : BatchKept st₀ batch st) (hf : Fresh st₀) :
    ∀ m ∈ st.extBuf, m.type ≠ msgQuery := by
  obtain ⟨ms, he, hm, -⟩ := h.buffered
  rwa [he, hf.1, List.nil_append]

theorem BatchKept.extBuf_eq_nil_iff (h : BatchKept st₀ batch st) (hf : Fresh st₀)
    (ho : ∀ r ∈ batch, OffersMessage r.2) (hs : st.synth = none) :
    st.extBuf = [] ↔ ∀ r ∈ batch, refused r.2 := by
  obtain ⟨ms, he, -, hr⟩ := h.buffered
  rw [he, hf.1, List.nil_append]
  exact hr (synth_eq_none_of_mode h.mode.symm hs) ho

theorem Synced.kept (h : Synced st b mid st' tr) :
    BatchKept st mid st' ∧ ∃ r, Runs (relayStep st') tr r ∧ ReceivesSync tr := by
  cases h with
  | passed hrun hs => exact ⟨.nil st, _, hrun, hs.1⟩
  | later ht _ hx hmid hrun hs =>
    have hn : ¬ SyncPasses _ := fun hp => by rw [hp.2] at hx; cases hx
    exact ⟨(relayStep_kept ht hn).append hmid.kept, _, hrun, hs.1⟩

theorem synced_of_passes (h : Runs (relayStep st) tr r) (hs : SyncPasses tr) (b : Bool) :
    ∃ mid, Synced st b mid st tr ∧ lastBound mid = none := by
  cases b with
  | false => exact ⟨[], .passed h hs, rfl⟩
  | true =>
    obtain ⟨t, ht, hst, hx⟩ := runs_refusedSync st
    refine ⟨_, .later ht hst hx .nil h hs, ?_⟩
    rw [lastBound_single, if_pos hx]

/-- The client whose Sync was refused sends a Parse for the Bind that is left and another Sync. -/
theorem synced_of_preparable (h : BatchKept st₀ batch st) (hf : Fresh st₀) (hs : st.synth.isSome)
    (hb : st.extSessionBlocked = none) (hroom : st.extBuf.length < maxExtBufMessages)
    (hd : lastBound batch = some detail) (hp : Preparable detail) :
    ∃ mid st' tr c, Synced st true mid st' tr ∧
      ∃ m ∈ remaining batch st mid st', ⟨.write c m, true⟩ ∈ tr := by
  obtain ⟨msg, rules, ht, hname, synth₀, hsome⟩ := hp
  obtain ⟨t₁, hrun₁, hsync₁, hx₁⟩ := runs_refusedSync st
  obtain ⟨t₂, st', hrun₂, hm₂, hx₂, hb', seen, hreg⟩ := runs_passedParse rules hs hroom ht
  rw [hb] at hb'
  have hn₂ : ¬ SyncPasses t₂ := by
    rintro ⟨⟨msg', hm', ht'⟩, -⟩
    rw [hm₂] at hm'
    cases hm'
    rw [ht] at ht'
    exact absurd ht' (by decide)
  have hn₁ : ¬ SyncPasses t₁ := fun hp => by rw [hp.2] at hx₁; cases hx₁
  have hmid : BatchKept st [(st, t₁), (st, t₂)] st' :=
    (relayStep_kept hrun₁ hn₁).append (relayStep_kept hrun₂ hn₂)
  have hnone : lastBound [(st, t₁), (st, t₂)] = none := by
    have hbind : bindOf t₂ = none := by
      rw [bindOf, hm₂, Option.bind_some, if_neg (by rw [ht]; decide)]
    rw [show [(st, t₁), (st, t₂)] = [(st, t₁)] ++ [(st, t₂)] from rfl, lastBound_append,
      lastBound_single, lastBound_single, if_pos hx₁, hbind, ite_self, Option.or_none]
  have hremaining := remaining_multiplex h hf hmid hs hnone
  have hpending : st'.pending ≠ [] := by
    obtain ⟨synth, hsynth⟩ := Option.isSome_iff_exists.mp hs
    obtain ⟨query, hquery⟩ := Option.isSome_iff_exists.mp hsome
    have hbind : st'.bindQuery detail = some query := by
      rw [Relay.bindQuery, hreg.synth, hsynth, Option.map_some, Option.bind_some, ← hquery]
      apply synthesize_eq_of_getStatement
      rw [← hname, getStatement_registerStatement_self, getStatement_registerStatement_self]
    rw [← hremaining, remaining, if_pos hs, if_neg (by simp [hnone]), hd, Option.bind_some, hbind]
    exact List.cons_ne_nil _ _
  have hroom' : st'.extBuf.length < maxExtBufMessages := by
    rw [hreg.extBuf, if_pos hs]
    exact hroom
  obtain ⟨tr, r, c, hrun, hpass, m, hm, hw⟩ := runs_passedSync hb' hroom' hpending
  refine ⟨_, st', tr, c, .later hrun₁ hsync₁ hx₁ (.cons hrun₂ hn₂ .nil) hrun hpass, m, ?_, hw⟩
  rwa [hremaining]

theorem remaining_eq_nil (h : BatchKept st₀ batch st) (hf : Fresh st₀)
    (ho : ∀ r ∈ batch, OffersMessage r.2) (hn : NothingLeft batch st b)
    (hsynced : Synced st b mid st' tr) : remaining batch st mid st' = [] := by
  unfold NothingLeft at hn
  split at hn <;> rename_i hs
  · have hquery : ∀ detail ∈ lastBound batch, st'.bindQuery detail = none := by
      intro detail hd
      obtain ⟨hnone, hprep⟩ := hn detail hd
      have hkept := hsynced.kept.1
      cases hsynced with
      | passed => exact hnone
      | later => exact (hkept.unusable detail ⟨hnone, hprep rfl⟩).1
    rw [remaining, if_pos hs]
    cases hd : lastBound batch with
    | none => simp
    | some detail => simp [hquery detail hd]
  · rw [remaining, if_neg hs]
    exact (h.extBuf_eq_nil_iff hf ho (by simpa using hs)).mpr hn

/-- Nothing of the batch can be executed exactly if nothing is left, or the Sync is rejected. -/
theorem never_executes_iff (h : BatchKept st₀ batch st) (hf : Fresh st₀)
    (ho : ∀ r ∈ batch, OffersMessage r.2) (b : Bool) :
    (∀ mid st' tr, Synced st b mid st' tr → ∀ c, ∀ m ∈ remaining batch st mid st',
      ⟨.write c m, true⟩ ∉ tr) ↔ st.extSessionBlocked.isSome ∨
        maxExtBufMessages ≤ st.extBuf.length ∨ NothingLeft batch st b := by
  constructor
  · intro hnever
    by_contra hc
    obtain ⟨hblock, hroom, hleft⟩ : st.extSessionBlocked = none ∧
        st.extBuf.length < maxExtBufMessages ∧ ¬ NothingLeft batch st b := by
      simpa only [not_or, Bool.not_eq_true, Option.isSome_eq_false_iff, Option.isNone_iff_eq_none,
        not_le] using hc
    have hpending : st.pending = [] := by
      by_contra hp
      obtain ⟨tr, r, c, hrun, hpass, m, hm, hw⟩ := runs_passedSync hblock hroom hp
      obtain ⟨mid, hsynced, hnone⟩ := synced_of_passes hrun hpass b
      exact hnever mid st tr hsynced c m (by rwa [remaining_same h hf hnone]) hw
    unfold NothingLeft at hleft
    split at hleft <;> rename_i hs
    · refine hleft fun detail hd => ?_
      have hnone : st.bindQuery detail = none := by
        rw [← remaining_same h hf (show lastBound [] = none from rfl), remaining, if_pos hs,
          if_neg (by simp [lastBound, lastBind]), hd, Option.bind_some] at hpending
        simpa using hpending
      refine ⟨hnone, fun hb hp => ?_⟩
      subst hb
      obtain ⟨mid, st', tr, c, hsynced, m, hm, hw⟩ :=
        synced_of_preparable h hf hs hblock hroom hd hp
      exact hnever mid st' tr hsynced c m hm hw
    · rw [pending_proxy (by simpa using hs)] at hpending
      exact hleft ((h.extBuf_eq_nil_iff hf ho (by simpa using hs)).mp hpending)
  · rintro hc mid st' tr hsynced c m hm hw
    obtain ⟨hmid, r, hrun, hs⟩ := hsynced.kept
    rcases relayStep_sync hrun hs with hquiet | ⟨hroom, msg, t₀, t, rfl, hquiet, hsync⟩
    · have hconn : ⟨.write c m, true⟩ ∈ conn tr := List.mem_filter.mpr ⟨hw, rfl⟩
      simp [hquiet] at hconn
    rcases hc with hblock | hfull | hnone
    · have hconn : ⟨.write c m, true⟩ ∉ conn t₀ := by simp [hquiet]
      have hw' : ⟨.write c m, true⟩ ∈ t := by
        rcases List.mem_append.mp hw with hw | hw
        · exact absurd (List.mem_filter.mpr ⟨hw, rfl⟩) hconn
        · exact hw
      have hall := h.append hmid
      exact handleSync_blocked hsync (hmid.blocked hblock) (hall.reader hf.2.2)
        (fun _ => hall.bufferedTypes hf) c m true hw' (remaining_subset h hf hmid hm)
    · obtain ⟨ms, hbuf, -⟩ := hmid.buffered
      rw [hbuf, List.length_append] at hroom
      omega
    · rw [remaining_eq_nil h hf ho hnone hsynced] at hm
      cases hm

end Remaining

theorem relayStep_synced (h : Runs (relayStep st) tr (.inl st')) (hs : ReceivesSync tr)
    (hx : refused tr = false) : BatchOver st st' := by
  obtain ⟨msg, hm, ht⟩ := hs
  rcases relayStep_offered h hm (by rw [ht]; decide) with ⟨hx', -⟩ | ⟨-, t, hrun⟩
  · rw [hx] at hx'
    cases hx'
  · rw [handleExtended_sync ht] at hrun
    exact (handleSync_step hrun (configured_resetsSeen t)).over

theorem relayRun_fresh (h : RelayRun dbName session multiplex rs t) (hrs : rs = pre ++ r :: rest)
    (hstart : ∀ s ∈ pre.getLast?, SyncPasses s.2) : Fresh r.1 := by
  obtain ⟨st, hrounds, -⟩ := h
  have hreader : MuxReaderless r.1 := (hrounds.at_round (I := fun _ s => MuxReaderless s)
    (fun _ => rfl) (fun _ _ _ _ _ hI hrun => (relayStep_hands hrun).reader hI) hrs).1
  rcases List.eq_nil_or_concat pre with rfl | ⟨pre, s, rfl⟩
  · have hst : r.1 = Relay.init dbName session multiplex := hrounds.head (by rw [hrs]; rfl)
    rw [hst] at hreader ⊢
    exact ⟨rfl, rfl, hreader⟩
  · have hlast : rs = pre ++ s :: r :: rest := by simpa using hrs
    obtain ⟨hs, hx⟩ := hstart s (by simp)
    have hover := relayStep_synced (hrounds.drop hlast).uncons.1 hs hx
    exact ⟨hover.extBuf, hover.muxBindDetail, hreader⟩

end LimitedBatch

def Script.limitedAnswer [External] (n : Nat) : Handler Ans Script := fun s o =>
  match o with
  | .allow _ => (decide (s.inbox.length ≠ n), s)
  | o => Script.answer s o

def twoBatches [External] : Script :=
  { Script.simple
      [parseMessage [] (ascii "DELETE FROM a"), bindMessage [], executeMessage, syncMessage,
        parseMessage [] (ascii "SELECT 1"), bindMessage [], executeMessage, syncMessage]
      (List.replicate 8 readyMessage) with
    config := { defaultConfig with multiplex := true } }

instance [External] (tr : Trace Ans) : Decidable (ReceivesSync tr) :=
  decidable_of_iff (∃ msg ∈ received tr, msg.type = msgSync) Iff.rfl

instance [External] (tr : Trace Ans) : Decidable (OffersMessage tr) :=
  decidable_of_iff (∃ msg ∈ received tr, msg.type ≠ msgQuery ∧ msg.type ≠ msgSync) Iff.rfl

def secondBatch [External] (f : List (Relay × Trace Ans) → Relay × Trace Ans → Bool)
    (rs : List (Relay × Trace Ans)) : Bool :=
  match rs.drop 4 with
  | r₁ :: r₂ :: r₃ :: sync :: _ =>
    (rs.take 4).getLast?.all (fun r => decide (ReceivesSync r.2) && !refused r.2) &&
      [r₁, r₂, r₃].all (fun r => decide (OffersMessage r.2)) && f [r₁, r₂, r₃] sync
  | _ => false

theorem secondBatch_split [External] {f : List (Relay × Trace Ans) → Relay × Trace Ans → Bool}
    {rs : List (Relay × Trace Ans)} (h : secondBatch f rs) :
    ∃ pre batch sync post, rs = pre ++ (batch ++ sync :: post) ∧
      (∀ r ∈ pre.getLast?, SyncPasses r.2) ∧
      (∀ r ∈ batch, OffersMessage r.2) ∧ f batch sync := by
  unfold secondBatch at h
  split at h
  · rename_i r₁ r₂ r₃ sync post hd
    simp only [Bool.and_eq_true, List.all_eq_true, decide_eq_true_eq] at h
    obtain ⟨⟨hlast, hoffers⟩, hf⟩ := h
    refine ⟨rs.take 4, [r₁, r₂, r₃], sync, post, ?_, fun r hr => ?_, hoffers, hf⟩
    · have hsplit : rs.drop 4 = [r₁, r₂, r₃] ++ sync :: post := hd
      rw [← hsplit, List.take_append_drop]
    · rw [Option.mem_def.mp hr] at hlast
      simpa [SyncPasses] using hlast
  · cases h

theorem twoBatches_run : ∃ (_ : External) (session : Session) (rs : List (Relay × Trace Ans))
    (t : Trace Ans) (pre batch post : List (Relay × Trace Ans)) (sync : Relay × Trace Ans),
    RelayRun [] session true rs t ∧ rs = pre ++ (batch ++ sync :: post) ∧
      (∀ r ∈ pre.getLast?, SyncPasses r.2) ∧
      (∀ r ∈ batch, OffersMessage r.2) ∧
      batch.map (fun r => (received r.2, refused r.2)) =
        [(some (parseMessage [] (ascii "SELECT 1")), true), (some (bindMessage []), false),
          (some executeMessage, false)] ∧
      SyncPasses sync.2 ∧
      (∃ c, ⟨.write c (queryMessage (ascii "DELETE FROM a")), true⟩ ∈ sync.2) ∧
      remaining batch sync.1 [] sync.1 = [queryMessage (ascii "DELETE FROM a")] := by
  let _ := asciiExternal
  refine ⟨asciiExternal, ?_⟩
  obtain ⟨session, rs, t, h, hc⟩ := Script.playWith_check (n := 60) (s := twoBatches)
    (f := fun rs _ => secondBatch (fun batch sync =>
      decide (batch.map (fun r => (received r.2, refused r.2)) =
        [(some (parseMessage [] (ascii "SELECT 1")), true), (some (bindMessage []), false),
          (some executeMessage, false)]) &&
      decide (ReceivesSync sync.2) && !refused sync.2 &&
      sync.2.any (isSend (queryMessage (ascii "DELETE FROM a"))) &&
      decide (remaining batch sync.1 [] sync.1 = [queryMessage (ascii "DELETE FROM a")])) rs)
    (show (twoBatches.playWith (Script.limitedAnswer 3) 60).any _ = true by decide +kernel)
  obtain ⟨pre, batch, sync, post, hrs, hstart, hbatch, hf⟩ := secondBatch_split hc
  simp only [Bool.and_eq_true, decide_eq_true_eq, Bool.not_eq_true', List.any_eq_true] at hf
  obtain ⟨⟨⟨⟨hoffers, hsync⟩, hx⟩, ⟨e, he, hsend⟩⟩, hremaining⟩ := hf
  obtain ⟨c, rfl⟩ := eq_of_isSend hsend
  exact ⟨session, rs, t, pre, batch, post, sync, h, hrs, hstart, hbatch, hoffers, ⟨hsync, hx⟩,
    ⟨c, he⟩, hremaining⟩

end Pgmux
