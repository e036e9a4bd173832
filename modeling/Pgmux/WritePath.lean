import Pgmux.ReadPath
import Pgmux.RelayLoop

namespace Pgmux

open Interaction

section WritePath

variable [External]

/-- The connection of a writer path with the pool captured before: the bound one, or one from
the pool that was read a second time. -/
inductive Obtained (bound : Option ConnId) (p₁ : PoolId) : Trace Ans → Option (ConnId × Bool) → Prop
  | bound : bound = some c → Obtained bound p₁ [⟨.writerPool, p₁⟩] (some (c, false))
  | fresh : bound = none → Obtained bound p₁
      [⟨.writerPool, p₁⟩, ⟨.writerPool, p₂⟩, ⟨.acquire p₂, some c⟩] (some (c, true))
  | refused : bound = none → Obtained bound p₁
      [⟨.writerPool, p₁⟩, ⟨.writerPool, p₂⟩, ⟨.acquire p₂, none⟩] none
  | barred : bound = none → Obtained bound p₁ [⟨.writerPool, p₁⟩] none

theorem acquireWriterConn_obtained (h : Runs (acquireWriterConn bound) tr r) (p₁ : PoolId) :
    Obtained bound p₁ (⟨.writerPool, p₁⟩ :: conn tr) r := by
  cases acquireWriterConn_ways h with
  | bound => exact .bound rfl
  | denied => exact .barred rfl
  | refused => exact .refused rfl
  | fresh => exact .fresh rfl

def Tracked (c : ConnId) (t : Trace Ans) : Prop := t = [] ∨ ∃ ok, Probed c currentLSNQuery t ok

def SameButLSN (s s' : Session) : Prop := ∃ lsn, s' = s.setLastWriteLSN lsn

theorem trackWriteLSN_tracked (h : Runs (trackWriteLSN c s qtype cfg) tr s') :
    Tracked c (conn tr) ∧ SameButLSN s s' := by
  unfold trackWriteLSN at h
  split at h
  · obtain ⟨t₁, r, t₂, rfl, h₁, h₂⟩ := h.of_seq
    obtain ⟨ok, hp, -⟩ := queryLSN_probed h₁
    cases r with
    | some lsn =>
      obtain ⟨rfl, rfl⟩ := runs_pure.mp h₂
      exact ⟨.inr ⟨ok, by simpa using hp⟩, lsn, rfl⟩
    | none =>
      obtain ⟨rfl, rfl⟩ := runs_pure.mp h₂
      exact ⟨.inr ⟨ok, by simpa using hp⟩, s'.lastWriteLSN, rfl⟩
  · obtain ⟨rfl, rfl⟩ := runs_pure.mp h
    exact ⟨.inl rfl, s'.lastWriteLSN, rfl⟩

def TreeOf (query : Bytes) (pq : Option PgQuery.Tree) : Prop :=
  ∀ tree, pq = some tree → PgQuery.parse query = some tree

theorem extractQueryTablesParsed_tables (h : Runs (extractQueryTablesParsed query pq) tr tables)
    (hpq : TreeOf query pq) :
    ∃ cfg : Config, ⟨.config, cfg⟩ ∈ tr ∧ tables = writeTables cfg.astParser query := by
  unfold extractQueryTablesParsed at h
  rw [runs_perform_bind] at h
  obtain ⟨cfg, t, h, rfl⟩ := h
  split at h
  · rename_i tree hast
    obtain ⟨rfl, rfl⟩ := runs_pure.mp h
    exact ⟨cfg, .head _, by simp [writeTables, hast, hpq tree rfl]⟩
  · rw [runs_perform_bind] at h
    obtain ⟨cfg', t', h, rfl⟩ := h
    obtain ⟨rfl, rfl⟩ := runs_pure.mp h
    exact ⟨cfg', by simp, rfl⟩

/-- The cache is on and the tables that the query writes cannot be extracted. -/
def Panics (seen : Event → Prop) (query : Bytes) : Prop :=
  seen ⟨.queryCache, true⟩ ∧
    ∃ cfg : Config, seen ⟨.config, cfg⟩ ∧ writeTables cfg.astParser query = none

theorem Panics.mono (h : Panics seen query) (hs : ∀ e, seen e → seen' e) : Panics seen' query := by
  obtain ⟨hc, cfg, hcfg, hw⟩ := h
  exact ⟨hs _ hc, cfg, hs _ hcfg, hw⟩

theorem invalidateWrite_panics (h : Runs (invalidateWrite query pq qtype) tr false)
    (hpq : TreeOf query pq) : qtype = .write ∧ Panics (· ∈ tr) query := by
  replace h := runs_perform_bind.mp h
  obtain ⟨cached, t, h, rfl⟩ := h
  split at h
  · rename_i hw
    obtain ⟨t₁, tables, t₂, rfl, h₁, h₂⟩ := h.of_seq
    cases tables with
    | none =>
      obtain ⟨cfg, hcfg, hn⟩ := extractQueryTablesParsed_tables h₁ hpq
      exact ⟨hw.2, by simp [hw.1], cfg, by simp [hcfg], hn.symm⟩
    | some tables =>
      obtain ⟨_, -, hf⟩ := h₂.of_map
      cases hf
  · cases (runs_pure.mp h).2

/-- How an exchange with the writer ends: it fails, or is followed by the LSN query. Behind it the
session goes on, or the call panics. -/
inductive Exchanged (c : ConnId) (ms : List Message) (s : Session) (panics : Prop) :
    Outcome Session → Trace Ans → Prop
  | failed : Exchange c ms t false → Exchanged c ms s panics .failed t
  | panicked : panics → Exchange c ms t₁ true → Tracked c t₂ → t = t₁ ++ t₂ →
      Exchanged c ms s panics .panicked t
  | done : SameButLSN s s' → Exchange c ms t₁ true → Tracked c t₂ → t = t₁ ++ t₂ →
      Exchanged c ms s panics (.done s') t

theorem handleWriteQuery_conn (h : Runs (handleWriteQuery c msg query s pq qtype cfg) tr r)
    (hpq : TreeOf query pq) :
    Exchanged c [msg] s (qtype = .write ∧ Panics (· ∈ tr) query) r (conn tr) := by
  cases handleWriteQuery_ways h with
  | failed h₁ =>
    exact .failed (by simpa [conn_cons, Op.onConn] using forwardAndRelay_exchange h₁)
  | @relayed t₁ t₂ _ t₃ kept h₁ h₂ h₃ =>
    obtain ⟨ht, hs⟩ := trackWriteLSN_tracked h₂
    have hx := forwardAndRelay_exchange h₁
    have hconn : conn (t₁ ++ ⟨.writerRecord true, ()⟩ :: (t₂ ++ t₃)) = conn t₁ ++ conn t₂ := by
      simp [conn_cons, Op.onConn, (invalidateWrite_foot.quiet rfl).conn h₃]
    cases kept with
    | true => exact .done hs hx ht hconn
    | false =>
      obtain ⟨hw, hp⟩ := invalidateWrite_panics h₃ hpq
      exact .panicked ⟨hw, hp.mono fun e he => by simp [he]⟩ hx ht hconn

inductive Dropped (st : Relay) (c : ConnId) (p₁ : PoolId) : Bool → Trace Ans → Relay → Prop
  | fresh : Dropped st c p₁ true [⟨.discard (some p₁) c, ()⟩] st
  | bound : st.boundWriter = some lease → Dropped st c p₁ false
      [⟨.discard (some lease.pool) lease.conn, ()⟩] { st with boundWriter := none }
  | unbound : st.boundWriter = none → Dropped st c p₁ false [] st

theorem dropWriter_dropped (h : Runs (dropWriter st c acquired p₁) tr st') :
    Dropped st c p₁ acquired (conn tr) st' := by
  unfold dropWriter at h
  cases acquired with
  | true =>
    simp only [if_true] at h
    obtain ⟨alive, h₁, rfl⟩ := h.of_map
    simpa [(discardToPool_conn h₁).1] using Dropped.fresh
  | false =>
    simp only [Bool.false_eq_true, if_false] at h
    cases hb : st.boundWriter with
    | some lease =>
      rw [hb] at h
      obtain ⟨alive, h₁, rfl⟩ := h.of_map
      simpa [(discardToPool_conn h₁).1] using Dropped.bound hb
    | none =>
      rw [hb] at h
      obtain ⟨rfl, rfl⟩ := runs_pure.mp h
      exact .unbound hb

/-- A writer path. A panic leaves the connection where it is. -/
inductive WriterPath (R : Bytes → Prop) (panics : Prop) (st : Relay) (ms : List Message)
    (fin : Relay → ConnId → Bool → PoolId → Proc Flow) : Trace Ans → Flow → Prop
  | refused : Obtained st.boundConn p₁ t none → WriterPath R panics st ms fin t (.inr st)
  | failed : Obtained st.boundConn p₁ t (some (c, acquired)) → Exchange c ms t₁ false →
      Dropped st c p₁ acquired t₂ st' →
      WriterPath R panics st ms fin (t ++ (t₁ ++ t₂)) (.inr st')
  | panicked : Obtained st.boundConn p₁ t (some (c, acquired)) → panics →
      Exchange c ms t₁ true → Tracked c t₂ →
      WriterPath R panics st ms fin (t ++ (t₁ ++ t₂)) (.inr st)
  | served : Obtained st.boundConn p₁ t (some (c, acquired)) → Exchange c ms t₁ true →
      Tracked c t₂ → SameButLSN st.session s →
      Runs (fin { st with session := s } c acquired p₁) tr r → Configured R tr →
      WriterPath R panics st ms fin (t ++ (t₁ ++ (t₂ ++ conn tr))) r

theorem WriterPath.mono (h : WriterPath R panics st ms fin t r) (hp : panics → panics') :
    WriterPath R panics' st ms fin t r := by
  cases h with
  | refused ho => exact .refused ho
  | failed ho hx hd => exact .failed ho hx hd
  | panicked ho h hx ht => exact .panicked ho (hp h) hx ht
  | served ho hx ht hs hr hR => exact .served ho hx ht hs hr hR

theorem onWriter_path {exchange : ConnId → Proc (Outcome Session)}
    (h : Runs (onWriter st exchange fin) tr r)
    (hx : ∀ c t x, Runs (exchange c) t x → (∀ e ∈ t, e ∈ tr) →
      Exchanged c ms st.session panics x (conn t)) (hR : Configured R tr) :
    WriterPath R panics st ms fin (conn tr) r := by
  cases onWriter_ways h with
  | @refused _ _ _ p₁ h₁ h₂ =>
    simpa [conn_cons, Op.onConn, (sendError_foot.quiet rfl).conn h₂] using
      WriterPath.refused (acquireWriterConn_obtained h₁ p₁)
  | @panicked _ _ _ _ p₁ _ h₁ h₂ =>
    cases hx _ _ _ h₂ (fun e he => by simp [he]) with
    | panicked hp hx ht hu =>
      simpa [conn_cons, Op.onConn, hu] using
        WriterPath.panicked (acquireWriterConn_obtained h₁ p₁) hp hx ht
  | @dropped _ _ _ _ p₁ _ _ _ h₁ h₂ h₃ =>
    cases hx _ _ _ h₂ (fun e he => by simp [he]) with
    | failed hx =>
      simpa [conn_cons, Op.onConn] using
        WriterPath.failed (acquireWriterConn_obtained h₁ p₁) hx (dropWriter_dropped h₃)
  | @finished _ _ _ _ _ p₁ _ _ _ h₁ h₂ h₃ =>
    cases hx _ _ _ h₂ (fun e he => by simp [he]) with
    | done hs hx ht hu =>
      simpa [conn_cons, Op.onConn, hu] using WriterPath.served
        (acquireWriterConn_obtained h₁ p₁) hx ht hs h₃ fun cfg hc => hR cfg (by simp [hc])

omit [External] in
theorem SameButLSN.refl (s : Session) : SameButLSN s s := ⟨s.lastWriteLSN, rfl⟩

theorem forwardFor_conn (h : Runs (forwardFor s ms c) tr x) :
    Exchanged c ms s False x (conn tr) := by
  obtain ⟨t₁, ok, t₂, h₁, h₂, rfl⟩ := h.of_bind
  have hx := forwardAndRelay_exchange h₁
  cases ok with
  | true =>
    obtain ⟨rfl, rfl⟩ := runs_pure.mp h₂
    exact .done (.refl s) hx (.inl rfl) (conn_append ..)
  | false =>
    obtain ⟨rfl, rfl⟩ := runs_pure.mp h₂
    exact .failed (by simpa using hx)

theorem Exchanged.mono (h : Exchanged c ms s panics x t) (hp : panics → panics') :
    Exchanged c ms s panics' x t := by
  cases h with
  | failed hx => exact .failed hx
  | panicked h hx ht hu => exact .panicked (hp h) hx ht hu
  | done hs hx ht hu => exact .done hs hx ht hu

theorem writeQuery_path (h : Runs (writeQuery st msg query pq qtype cfg was now) tr r)
    (hpq : TreeOf query pq) (hR : Configured R tr) :
    WriterPath R (qtype = .write ∧ Panics (· ∈ tr) query) st [msg]
      (fun st c acquired p => finishQuery st query c acquired p was now) (conn tr) r :=
  onWriter_path h (fun _ _ _ hx ht => (handleWriteQuery_conn hx hpq).mono fun hp =>
    ⟨hp.1, hp.2.mono ht⟩) hR

theorem writeBatch_path (h : Runs (writeBatch st msg) tr r) (hR : Configured R tr) :
    WriterPath R False st (st.extBuf ++ [msg]) finishBatch (conn tr) r :=
  onWriter_path h (fun _ _ _ hx _ => forwardFor_conn hx) hR

def Flow.state (r : Flow) : Relay := r.elim id id

omit [External] in
@[simp] theorem state_inl (st : Relay) : Flow.state (.inl st) = st := rfl

omit [External] in
@[simp] theorem state_inr (st : Relay) : Flow.state (.inr st) = st := rfl

omit [External] in
@[simp] theorem state_proceed (b : Bool) (st : Relay) : Flow.state (proceed b st) = st := by
  cases b <;> rfl

def Left (st : Relay) (s : Session) (st' : Relay) : Prop :=
  st' = { st with session := s, boundWriter := st'.boundWriter, connDirty := st'.connDirty }

omit [External] in
theorem Left.boundReader (h : Left st s st') : st'.boundReader = st.boundReader := by
  rw [h]

omit [External] in
theorem Left.rebind (h : Left st s st') :
    Left st s { st' with boundWriter := w, connDirty := d } := by
  unfold Left at h ⊢
  rw [h]

/-- The four ways in which a writer path ends: the connection is bound, stays as it was, is
unbound and handed back to the bound pool, or is handed back to the captured pool `p₁`. The
session ends up as `s`, the connection needs a reset when `d`, and is handed back if `leaving`. -/
inductive Finish (R : Bytes → Prop) (st : Relay) (c : ConnId) (acquired : Bool) (p₁ : PoolId)
    (s : Session) (d : Bool) (ending rebinding leaving : Prop) : Trace Ans → Flow → Prop
  | bind : (acquired = false → rebinding) → Left st s st' → st'.boundWriter = some ⟨c, p₁⟩ →
      st'.connDirty = d → Finish R st c acquired p₁ s d ending rebinding leaving [] (.inl st')
  | keep : (acquired = true → ending) → Left st s st' → st'.boundWriter = st.boundWriter →
      st'.connDirty = d → Finish R st c acquired p₁ s d ending rebinding leaving [] (.inl st')
  | unbind : (acquired = true → ending) → HandedBack R c st.boundPool d' t →
      (d = true → d' = true) → Left st s st' → st'.boundWriter = none → leaving →
      Finish R st c acquired p₁ s d ending rebinding leaving t (proceed st.boundPool.isSome st')
  | back : acquired = true → HandedBack R c (some p₁) d' t → (d = true → d' = true) →
      Left st s st' → st'.boundWriter = st.boundWriter → leaving →
      Finish R st c acquired p₁ s d ending rebinding leaving t (.inl st')

theorem unbindWriter_finish (h : Runs (unbindWriter st₁ c) tr r) (hR : Configured R tr)
    (hl : Left st s st₁) (hw : st₁.boundWriter = st.boundWriter) (hd : st₁.connDirty = d)
    (ha : acquired = true → ending) (hgo : leaving) :
    Finish R st c acquired p₁ s d ending rebinding leaving (conn tr) r := by
  have hp : st₁.boundPool = st.boundPool := by simp [Relay.boundPool, hw]
  obtain ⟨t₁, alive, t₂, rfl, h₁, h⟩ := h.of_seq
  obtain ⟨rfl, rfl⟩ := runs_pure.mp h
  obtain ⟨hb, rfl⟩ := handBack_handedBack h₁ hR.left
  rw [List.append_nil, hp]
  exact .unbind ha (hp ▸ hb) (by simp [hd]) hl.rebind rfl hgo

theorem finishQuery_finish
    (h : Runs (finishQuery st query c acquired p₁ was now) tr r) (hR : Configured R tr) :
    Finish R st c acquired p₁ st.session (st.connDirty || isSessionModifying query)
      (was = true ∧ now = false) False
      (st.session.pinned = false ∧ (now = true → was = true ∧ acquired = true)) (conn tr) r := by
  unfold finishQuery at h
  have hst : (if isSessionModifying query then { st with connDirty := true } else st) =
      { st with connDirty := st.connDirty || isSessionModifying query } := by
    cases isSessionModifying query <;> simp
  simp only [hst] at h
  split at h
  · obtain ⟨rfl, rfl⟩ := runs_pure.mp h
    cases acquired with
    | true => exact .bind (by simp) rfl rfl rfl
    | false => exact .keep (by simp) rfl rfl rfl
  rename_i hstart
  split at h
  · rename_i he
    simp only [Bool.and_eq_true, Bool.not_eq_true'] at he
    split at h
    · obtain ⟨rfl, rfl⟩ := runs_pure.mp h
      exact .keep (fun _ => he) rfl rfl rfl
    · rename_i hp
      exact unbindWriter_finish h hR rfl rfl rfl (fun _ => he) ⟨by simpa using hp, by simp [he.2]⟩
  split at h
  · rename_i ha
    split at h
    · obtain ⟨rfl, rfl⟩ := runs_pure.mp h
      exact .bind (by simp [ha]) rfl rfl rfl
    rename_i hp
    have hgo : st.session.pinned = false ∧ (now = true → was = true ∧ acquired = true) :=
      ⟨by simpa using hp, fun hn => ⟨by simpa [hn] using hstart, ha⟩⟩
    split at h
    · rename_i hd
      obtain ⟨t₁, alive, t₂, rfl, h₁, h⟩ := h.of_seq
      obtain ⟨rfl, rfl⟩ := runs_pure.mp h
      have hb := (resetAndReleaseToPool_handedBack h₁ hR.left).1
      rw [conn_append, conn_nil, List.append_nil]
      exact .back ha hb (fun _ => rfl) rfl rfl hgo
    · rename_i hd
      obtain ⟨t₁, alive, t₂, rfl, h₁, h⟩ := h.of_seq
      obtain ⟨rfl, rfl⟩ := runs_pure.mp h
      rw [conn_append, (releaseToPool_conn h₁).1]
      exact .back ha .plain (by simpa using hd) rfl rfl hgo
  · rename_i ha
    obtain ⟨rfl, rfl⟩ := runs_pure.mp h
    exact .keep (by simp [ha]) rfl rfl rfl

omit [External] in
theorem applyTxFlags_inTransaction (st : Relay) : st.applyTxFlags.session.inTransaction =
    (!st.extTxEnd && (st.extTxStart || st.session.inTransaction)) := by
  cases hs : st.extTxStart <;> cases he : st.extTxEnd <;>
    simp [Relay.applyTxFlags, hs, he, Session.setInTransaction]

/-- A batch that leaves the session in a transaction found it so, and a new connection. -/
def Relay.StaysInTx (st : Relay) (acquired : Bool) : Prop :=
  st.applyTxFlags.session.inTransaction = true →
    acquired = true ∧ st.session.inTransaction = true

omit [External] in
theorem staysInTx_of_end {st : Relay} (he : st.extTxEnd) : st.StaysInTx acquired := by
  simp [Relay.StaysInTx, applyTxFlags_inTransaction, he]

omit [External] in
theorem staysInTx_of_new {st : Relay} (hs : ¬ (st.extTxStart && !st.extTxEnd))
    (he : ¬ st.extTxEnd) : st.StaysInTx true := by
  simp only [Bool.not_eq_true] at he
  simp_all [Relay.StaysInTx, applyTxFlags_inTransaction]

theorem finishBatch_finish (h : Runs (finishBatch st c acquired p₁) tr r)
    (hR : Configured R tr) :
    Finish R st c acquired p₁ st.applyTxFlags.session st.connDirty (st.extTxEnd) False
      (st.applyTxFlags.session.pinned = false ∧ st.StaysInTx acquired) (conn tr) r := by
  unfold finishBatch at h
  dsimp only at h
  split at h
  · obtain ⟨rfl, rfl⟩ := runs_pure.mp h
    cases acquired with
    | true => exact .bind (by simp) rfl rfl rfl
    | false => exact .keep (by simp) rfl rfl rfl
  rename_i hstart
  split at h
  · rename_i he
    split at h
    · obtain ⟨rfl, rfl⟩ := runs_pure.mp h
      exact .keep (fun _ => he) rfl rfl rfl
    · rename_i hp
      exact unbindWriter_finish h hR rfl rfl rfl (fun _ => he)
        ⟨by simpa using hp, staysInTx_of_end he⟩
  rename_i hend
  split at h
  · rename_i ha
    simp only [Bool.and_eq_true] at ha
    obtain ⟨rfl, rfl⟩ := runs_pure.mp h
    exact .bind (by simp [ha.1]) rfl rfl rfl
  split at h
  · rename_i ha
    split at h
    · obtain ⟨rfl, rfl⟩ := runs_pure.mp h
      exact .bind (by simp [ha]) rfl rfl rfl
    · rename_i hp
      obtain ⟨t₁, alive, t₂, rfl, h₁, h⟩ := h.of_seq
      obtain ⟨rfl, rfl⟩ := runs_pure.mp h
      rw [conn_append, conn_nil, List.append_nil]
      subst ha
      exact .back rfl (handBack_handedBack h₁ hR.left).1 id rfl rfl
        ⟨by simpa using hp, staysInTx_of_new hstart hend⟩
  rename_i ha
  split at h
  · rename_i hx
    simp only [Bool.and_eq_true, Bool.not_eq_true'] at hx
    exact unbindWriter_finish h hR rfl rfl rfl (by simp [ha])
      ⟨hx.1.2, by simp [Relay.StaysInTx, hx.2]⟩
  · obtain ⟨rfl, rfl⟩ := runs_pure.mp h
    exact .keep (by simp [ha]) rfl rfl rfl

/-- The end of a synthesized query: every hand-back is with the reset query, and what stays bound
keeps its flag. -/
theorem finishSynthesized_finish (h : Runs (finishSynthesized st c acquired p₁) tr r)
    (hR : Configured R tr) :
    Finish R st c acquired p₁ st.applyTxFlags.session
      (st.connDirty || st.extTxEnd || (acquired && !st.extTxStart)) (st.extTxEnd)
      (st.extTxStart ∧ st.extTxEnd = false)
      ((st.extTxEnd ∨ acquired = true ∧ st.extTxStart = false) ∧ st.StaysInTx acquired)
      (conn tr) r := by
  have hs : st.applyTxFlags.extTxStart = st.extTxStart := rfl
  have he : st.applyTxFlags.extTxEnd = st.extTxEnd := rfl
  unfold finishSynthesized at h
  simp only [hs, he] at h
  split at h
  · rename_i h₁
    simp only [Bool.and_eq_true, Bool.not_eq_true'] at h₁
    obtain ⟨rfl, rfl⟩ := runs_pure.mp h
    exact .bind (fun _ => h₁) rfl rfl (by simp [h₁, Relay.applyTxFlags])
  rename_i h₁
  split at h
  · rename_i h₂
    obtain ⟨t₁, alive, t₂, rfl, h₃, h⟩ := h.of_seq
    obtain ⟨rfl, rfl⟩ := runs_pure.mp h
    obtain ⟨hb, rfl⟩ := resetAndReleaseToPool_handedBack h₃ hR.left
    rw [conn_append, conn_nil, List.append_nil]
    exact .unbind (fun _ => h₂) hb (fun _ => rfl) rfl rfl ⟨.inl h₂, staysInTx_of_end h₂⟩
  rename_i h₂
  have hnew := staysInTx_of_new h₁ h₂
  simp only [Bool.not_eq_true] at h₂
  split at h
  · rename_i ha
    obtain ⟨t₁, alive, t₂, rfl, h₃, h⟩ := h.of_seq
    obtain ⟨rfl, rfl⟩ := runs_pure.mp h
    rw [conn_append, conn_nil, List.append_nil]
    subst ha
    exact .back rfl (resetAndReleaseToPool_handedBack h₃ hR.left).1 (fun _ => rfl) rfl rfl
      ⟨.inr ⟨rfl, by simpa [h₂] using h₁⟩, hnew⟩
  · rename_i ha
    obtain ⟨rfl, rfl⟩ := runs_pure.mp h
    exact .keep (by simp [ha]) rfl rfl (by simp [h₂, ha, Relay.applyTxFlags])

end WritePath

end Pgmux
