import Pgmux.Footprint

namespace Pgmux

open Interaction

section Paths

variable [External] {st : Relay}

/-- The operations of the trace are of these kinds. -/
def Kinds (ks : List OpKind) (tr : Trace Ans) : Prop := ∀ e ∈ tr, ks.contains e.1.kind = true

theorem Kinds.avoids {P : Op → Prop} (h : Kinds ks tr) (bad : List OpKind)
    (hs : ks.all (fun k => !bad.contains k))
    (hP : ∀ o : Op, bad.contains o.kind = false → P o) : ∀ e ∈ tr, P e.1 := by
  intro e he
  apply hP
  simpa using List.all_eq_true.mp hs _ (List.contains_iff_mem.mp (h e he))

theorem forwardAndRelay_runs (h : Runs (forwardAndRelay c ms) tr true) :
    ∃ t₁ t₂, Runs (forwardAll c ms) t₁ true ∧ Runs (relayUntilReady c) t₂ true ∧ tr = t₁ ++ t₂ := by
  obtain ⟨t₁, sent, t₂, h₁, h₂, rfl⟩ := h.of_bind
  cases sent with
  | true => exact ⟨t₁, t₂, h₁, h₂, rfl⟩
  | false => simp at h₂

theorem forwardFor_runs (h : Runs (forwardFor s ms c) tr (.done s')) :
    Runs (forwardAndRelay c ms) tr true := by
  obtain ⟨t₁, ok, t₂, h₁, h₂, rfl⟩ := h.of_bind
  cases ok with
  | true =>
    obtain ⟨rfl, -⟩ := runs_pure.mp h₂
    rwa [List.append_nil]
  | false => simp at h₂

theorem relayOnly_runs (h : Runs (relayOnly c) tr (some data)) :
    Runs (relayUntilReady c) tr true := by
  obtain ⟨t₁, ok, t₂, h₁, h₂, rfl⟩ := h.of_bind
  cases ok with
  | true =>
    obtain ⟨rfl, -⟩ := runs_pure.mp h₂
    rwa [List.append_nil]
  | false => simp at h₂

inductive FallbackWays (reset : Bool) (ms : List Message) : Trace Ans → Bool → Prop
  | refused : Runs (sendError text) t₁ () →
      FallbackWays reset ms (⟨.writerPool, p⟩ :: ⟨.acquire p, none⟩ :: t₁) false
  | failed : Runs (forwardAndRelay c ms) t₁ false → Runs (discardToPool c (some p)) t₂ alive →
      FallbackWays reset ms (⟨.writerPool, p⟩ :: ⟨.acquire p, some c⟩ :: ⟨.writerAddr, addr⟩ ::
        ⟨.setCancel addr c, ()⟩ :: (t₁ ++ ⟨.clearCancel, ()⟩ :: t₂)) false
  | served : Runs (forwardAndRelay c ms) t₁ true → Runs (handBack reset c (some p)) t₂ alive →
      FallbackWays reset ms (⟨.writerPool, p⟩ :: ⟨.acquire p, some c⟩ :: ⟨.writerAddr, addr⟩ ::
        ⟨.setCancel addr c, ()⟩ :: (t₁ ++ ⟨.clearCancel, ()⟩ :: t₂)) true

theorem fallback_ways (h : Runs (fallback reset ms) tr ok) : FallbackWays reset ms tr ok := by
  replace h := runs_perform_bind.mp h
  obtain ⟨p, _, h, rfl⟩ := h
  replace h := runs_perform_bind.mp h
  obtain ⟨x, _, h, rfl⟩ := h
  cases x with
  | none =>
    obtain ⟨_, h₁, rfl⟩ := h.of_map
    exact .refused h₁
  | some c =>
    replace h := runs_perform_bind.mp h
    obtain ⟨addr, _, h, rfl⟩ := h
    replace h := runs_perform_bind.mp h
    obtain ⟨_, _, h, rfl⟩ := h
    replace h := h.of_bind
    obtain ⟨t₁, sent, _, h₁, h, rfl⟩ := h
    replace h := runs_perform_bind.mp h
    obtain ⟨_, _, h, rfl⟩ := h
    cases sent with
    | true =>
      obtain ⟨alive, h₂, rfl⟩ := h.of_map
      exact .served h₁ h₂
    | false =>
      obtain ⟨alive, h₂, rfl⟩ := h.of_map
      exact .failed h₁ h₂

section ReadOn

variable {relay : ConnId → Proc (Option (Option Bytes))} {store : Option Bytes → Proc Bool}
  {fb : Proc Bool}

inductive ServeWays (addr : Addr) (p : PoolId) (c : ConnId) (ms : List Message)
    (breakOnSend : Bool) (relay : ConnId → Proc (Option (Option Bytes)))
    (store : Option Bytes → Proc Bool) (fb : Proc Bool) : Trace Ans → Bool → Prop
  | unsent : Runs (forwardAll c ms) t₁ false → Runs (discardToPool c (some p)) t₂ alive →
      Runs (failReader addr breakOnSend) t₃ () → Runs fb t ok →
      ServeWays addr p c ms breakOnSend relay store fb
        (⟨.setCancel addr c, ()⟩ :: (t₁ ++ ⟨.clearCancel, ()⟩ :: (t₂ ++ (t₃ ++ t)))) ok
  | lost : Runs (forwardAll c ms) t₁ true → Runs (relay c) t none →
      Runs (discardToPool c (some p)) t₂ alive → Runs (failReader addr true) t₃ () →
      ServeWays addr p c ms breakOnSend relay store fb
        (⟨.setCancel addr c, ()⟩ :: (t₁ ++ (t ++ ⟨.clearCancel, ()⟩ :: (t₂ ++ t₃)))) false
  | served : Runs (forwardAll c ms) t₁ true → Runs (relay c) t (some data) →
      Runs (releaseToPool c (some p)) t₂ alive → Runs (store data) t₃ true →
      ServeWays addr p c ms breakOnSend relay store fb
        (⟨.setCancel addr c, ()⟩ :: (t₁ ++ (t ++ ⟨.clearCancel, ()⟩ ::
          (t₂ ++ (t₃ ++ [⟨.readerRecord addr true, ()⟩]))))) true
  | panicked : Runs (forwardAll c ms) t₁ true → Runs (relay c) t (some data) →
      Runs (releaseToPool c (some p)) t₂ alive → Runs (store data) t₃ false →
      ServeWays addr p c ms breakOnSend relay store fb
        (⟨.setCancel addr c, ()⟩ :: (t₁ ++ (t ++ ⟨.clearCancel, ()⟩ :: (t₂ ++ t₃)))) false

theorem serveReader_ways (h : Runs (serveReader addr p c ms breakOnSend relay store fb) tr ok) :
    ServeWays addr p c ms breakOnSend relay store fb tr ok := by
  replace h := runs_perform_bind.mp h
  obtain ⟨_, _, h, rfl⟩ := h
  replace h := h.of_bind
  obtain ⟨t₁, sent, _, h₁, h, rfl⟩ := h
  cases sent with
  | false =>
    replace h := runs_perform_bind.mp h
    obtain ⟨_, _, h, rfl⟩ := h
    replace h := h.of_bind
    obtain ⟨t₂, alive, _, h₂, h, rfl⟩ := h
    replace h := h.of_bind
    obtain ⟨t₃, _, _, h₃, h, rfl⟩ := h
    exact .unsent h₁ h₂ h₃ h
  | true =>
    replace h := h.of_bind
    obtain ⟨t, collected, _, ht, h, rfl⟩ := h
    replace h := runs_perform_bind.mp h
    obtain ⟨_, _, h, rfl⟩ := h
    cases collected with
    | none =>
      replace h := h.of_bind
      obtain ⟨t₂, alive, _, h₂, h, rfl⟩ := h
      obtain ⟨_, h₃, rfl⟩ := h.of_map
      exact .lost h₁ ht h₂ h₃
    | some data =>
      replace h := h.of_bind
      obtain ⟨t₂, alive, _, h₂, h, rfl⟩ := h
      replace h := h.of_bind
      obtain ⟨t₃, kept, _, h₃, h, rfl⟩ := h
      cases kept with
      | true =>
        replace h := runs_perform_bind.mp h
        obtain ⟨_, _, h, rfl⟩ := h
        obtain ⟨rfl, rfl⟩ := runs_pure.mp h
        exact .served h₁ ht h₂ h₃
      | false =>
        obtain ⟨rfl, rfl⟩ := runs_pure.mp h
        rw [List.append_nil]
        exact .panicked h₁ ht h₂ h₃

inductive ReadWays (addr : Option Addr) (ms : List Message) (breakOnSend : Bool)
    (relay : ConnId → Proc (Option (Option Bytes))) (store : Option Bytes → Proc Bool)
    (fb : Proc Bool) : Trace Ans → Bool → Prop
  | passed : Kinds [.look, .readerPool] t₀ → (∀ a p, ⟨.readerPool a, some p⟩ ∉ t₀) →
      Runs fb t ok → ReadWays addr ms breakOnSend relay store fb (t₀ ++ t) ok
  | refused : addr = some a → Runs (failReader a true) t₁ () → Runs fb t ok →
      ReadWays addr ms breakOnSend relay store fb (⟨.readerAllow a, true⟩ ::
        ⟨.readerPool a, some p⟩ :: ⟨.acquire p, none⟩ :: (t₁ ++ t)) ok
  | reached : addr = some a → Runs (serveReader a p c ms breakOnSend relay store fb) t ok →
      ReadWays addr ms breakOnSend relay store fb (⟨.readerAllow a, true⟩ ::
        ⟨.readerPool a, some p⟩ :: ⟨.acquire p, some c⟩ :: t) ok

theorem readOn_ways (h : Runs (readOn addr ms breakOnSend relay store fb) tr ok) :
    ReadWays addr ms breakOnSend relay store fb tr ok := by
  have hskip (t₀ : Trace Ans) {t} (hk : Kinds [.look, .readerPool] t₀)
      (hno : ∀ a p, ⟨.readerPool a, some p⟩ ∉ t₀) (h : Runs fb t ok) :
      ReadWays addr ms breakOnSend relay store fb (t₀ ++ t) ok := .passed hk hno h
  cases addr with
  | none => exact hskip [] (by simp [Kinds]) (by simp) h
  | some a =>
    replace h := runs_perform_bind.mp h
    obtain ⟨allowed, _, h, rfl⟩ := h
    cases allowed with
    | false => exact hskip [⟨.readerAllow a, false⟩] (by simp [Kinds, Op.kind]) (by simp) h
    | true =>
      replace h := runs_perform_bind.mp h
      obtain ⟨pool, _, h, rfl⟩ := h
      cases pool with
      | none =>
        exact hskip [⟨.readerAllow a, true⟩, ⟨.readerPool a, none⟩] (by simp [Kinds, Op.kind])
          (by simp) h
      | some p =>
        replace h := runs_perform_bind.mp h
        obtain ⟨x, _, h, rfl⟩ := h
        cases x with
        | none =>
          replace h := h.of_bind
          obtain ⟨t₁, _, _, h₁, h, rfl⟩ := h
          exact .refused rfl h₁ h
        | some c => exact .reached rfl h

inductive CachedWays (look : Proc (Option Bytes)) (pick : Option Addr → Trace Ans)
    (ms : List Message) (breakOnSend : Bool) (store : Option Bytes → Proc Bool) (fb : Proc Bool) :
    Trace Ans → Bool → Prop
  | hit : Runs look t₀ (some data) →
      CachedWays look pick ms breakOnSend store fb (t₀ ++ [⟨.sendCached data, ok⟩]) ok
  | missed : Runs look t₀ none → Runs (readOn addr ms breakOnSend relayCached store fb) t ok →
      CachedWays look pick ms breakOnSend store fb (t₀ ++ (pick addr ++ t)) ok

def pickReader (cfg : Config) (s : Session) (addr : Option Addr) : Trace Ans :=
  [⟨.nextReader (if cfg.causalConsistency then some s.lastWriteLSN else none), addr⟩]

theorem pickReader_kinds : Kinds [.look] (pickReader cfg s addr) := by
  simp [Kinds, pickReader, Op.kind]

theorem handleReadQueryTraced_ways
    (h : Runs (handleReadQueryTraced msg query s pq cfg dbName) tr ok) :
    CachedWays (lookupRead query pq dbName) (pickReader cfg s) [msg] false
      (storeRead query pq dbName) (fallbackToWriter msg) tr ok := by
  replace h := h.of_bind
  obtain ⟨t₁, cached, _, h₁, h, rfl⟩ := h
  cases cached with
  | some data =>
    obtain rfl := runs_perform.mp h
    exact .hit h₁
  | none =>
    replace h := runs_perform_bind.mp h
    obtain ⟨addr, _, h, rfl⟩ := h
    exact .missed h₁ h

theorem handleExtendedRead_ways (h : Runs (handleExtendedRead buf syncMsg addr dbName) tr ok) :
    CachedWays (lookupBatch buf dbName) (fun _ => []) (buf ++ [syncMsg]) true
      (storeBatch buf dbName) (fallback true (buf ++ [syncMsg])) tr ok := by
  obtain ⟨t₁, cached, _, rfl, h₁, h⟩ := h.of_seq
  cases cached with
  | some data =>
    obtain rfl := runs_perform.mp h
    exact .hit h₁
  | none => exact .missed h₁ h

end ReadOn

inductive AcquireWays : Option ConnId → Trace Ans → Option (ConnId × Bool) → Prop
  | bound : AcquireWays (some c) [] (some (c, false))
  | denied : AcquireWays none [⟨.writerAllow, false⟩] none
  | refused : AcquireWays none [⟨.writerAllow, true⟩, ⟨.writerPool, p⟩, ⟨.acquire p, none⟩,
      ⟨.writerRecord false, ()⟩] none
  | fresh : AcquireWays none [⟨.writerAllow, true⟩, ⟨.writerPool, p⟩, ⟨.acquire p, some c⟩]
      (some (c, true))

theorem acquireWriterConn_ways (h : Runs (acquireWriterConn bound) tr x) :
    AcquireWays bound tr x := by
  cases bound with
  | some c =>
    obtain ⟨rfl, rfl⟩ := runs_pure.mp h
    exact .bound
  | none =>
    replace h := runs_perform_bind.mp h
    obtain ⟨allowed, _, h, rfl⟩ := h
    cases allowed with
    | false =>
      obtain ⟨rfl, rfl⟩ := runs_pure.mp h
      exact .denied
    | true =>
      replace h := runs_perform_bind.mp h
      obtain ⟨p, _, h, rfl⟩ := h
      replace h := runs_perform_bind.mp h
      obtain ⟨y, _, h, rfl⟩ := h
      cases y with
      | some c =>
        obtain ⟨rfl, rfl⟩ := runs_pure.mp h
        exact .fresh
      | none =>
        replace h := runs_perform_bind.mp h
        obtain ⟨_, _, h, rfl⟩ := h
        obtain ⟨rfl, rfl⟩ := runs_pure.mp h
        exact .refused

inductive WriteWays (c : ConnId) (msg : Message) (query : Bytes) (s : Session)
    (pq : Option PgQuery.Tree) (qtype : QueryType) (cfg : Config) :
    Trace Ans → Outcome Session → Prop
  | failed : Runs (forwardAndRelay c [msg]) t false →
      WriteWays c msg query s pq qtype cfg (t ++ [⟨.writerRecord false, ()⟩]) .failed
  | relayed : Runs (forwardAndRelay c [msg]) t₁ true → Runs (trackWriteLSN c s qtype cfg) t₂ s' →
      Runs (invalidateWrite query pq qtype) t₃ kept →
      WriteWays c msg query s pq qtype cfg (t₁ ++ ⟨.writerRecord true, ()⟩ :: (t₂ ++ t₃))
        (if kept then .done s' else .panicked)

theorem handleWriteQuery_ways (h : Runs (handleWriteQuery c msg query s pq qtype cfg) tr r) :
    WriteWays c msg query s pq qtype cfg tr r := by
  replace h := h.of_bind
  obtain ⟨t₁, ok, t, h₁, h, rfl⟩ := h
  cases ok with
  | false =>
    obtain ⟨_, h₂, rfl⟩ := h.of_map
    obtain rfl := runs_perform.mp h₂
    exact .failed h₁
  | true =>
    rw [if_pos rfl] at h
    replace h := runs_perform_bind.mp h
    obtain ⟨_, _, h, rfl⟩ := h
    replace h := h.of_bind
    obtain ⟨t₂, s', _, h₂, h, rfl⟩ := h
    replace h := h.of_bind
    obtain ⟨t₃, kept, _, h₃, h, rfl⟩ := h
    have hways := WriteWays.relayed h₁ h₂ h₃
    cases kept <;>
    · obtain ⟨rfl, rfl⟩ := runs_pure.mp h
      rwa [List.append_nil]

inductive WriterWays (st : Relay) (exchange : ConnId → Proc (Outcome Session))
    (finish : Relay → ConnId → Bool → PoolId → Proc Flow) : Trace Ans → Flow → Prop
  | refused : Runs (acquireWriterConn st.boundConn) t₁ none → Runs (sendError text) t₂ () →
      WriterWays st exchange finish (⟨.writerPool, p⟩ :: (t₁ ++ t₂)) (.inr st)
  | panicked : Runs (acquireWriterConn st.boundConn) t₁ (some (c, acquired)) →
      Runs (exchange c) t .panicked →
      WriterWays st exchange finish (⟨.writerPool, p⟩ :: (t₁ ++ ⟨.writerAddr, addr⟩ ::
        ⟨.setCancel addr c, ()⟩ :: t)) (.inr st)
  | dropped : Runs (acquireWriterConn st.boundConn) t₁ (some (c, acquired)) →
      Runs (exchange c) t .failed → Runs (dropWriter st c acquired p) t₂ st' →
      WriterWays st exchange finish (⟨.writerPool, p⟩ :: (t₁ ++ ⟨.writerAddr, addr⟩ ::
        ⟨.setCancel addr c, ()⟩ :: (t ++ ⟨.clearCancel, ()⟩ :: t₂))) (.inr st')
  | finished : Runs (acquireWriterConn st.boundConn) t₁ (some (c, acquired)) →
      Runs (exchange c) t (.done s) → Runs (finish { st with session := s } c acquired p) t₂ r →
      WriterWays st exchange finish (⟨.writerPool, p⟩ :: (t₁ ++ ⟨.writerAddr, addr⟩ ::
        ⟨.setCancel addr c, ()⟩ :: (t ++ ⟨.clearCancel, ()⟩ :: t₂))) r

theorem onWriter_ways {exchange : ConnId → Proc (Outcome Session)}
    {finish : Relay → ConnId → Bool → PoolId → Proc Flow}
    (h : Runs (onWriter st exchange finish) tr r) : WriterWays st exchange finish tr r := by
  replace h := runs_perform_bind.mp h
  obtain ⟨p, _, h, rfl⟩ := h
  replace h := h.of_bind
  obtain ⟨t₁, x, _, h₁, h, rfl⟩ := h
  obtain _ | ⟨c, acquired⟩ := x
  · obtain ⟨_, h₂, rfl⟩ := h.of_map
    exact .refused h₁ h₂
  · replace h := runs_perform_bind.mp h
    obtain ⟨addr, _, h, rfl⟩ := h
    replace h := runs_perform_bind.mp h
    obtain ⟨_, _, h, rfl⟩ := h
    replace h := h.of_bind
    obtain ⟨t, result, _, ht, h, rfl⟩ := h
    cases result with
    | panicked =>
      obtain ⟨rfl, rfl⟩ := runs_pure.mp h
      rw [List.append_nil]
      exact .panicked h₁ ht
    | failed =>
      replace h := runs_perform_bind.mp h
      obtain ⟨_, _, h, rfl⟩ := h
      obtain ⟨st', h₂, rfl⟩ := h.of_map
      exact .dropped h₁ ht h₂
    | done s =>
      replace h := runs_perform_bind.mp h
      obtain ⟨_, _, h, rfl⟩ := h
      exact .finished h₁ ht h

inductive SyncWays (st : Relay) (msg : Message) : Trace Ans → Flow → Prop
  | blocked {st₁ : Relay} : Runs (releaseStaleReader st) t₀ st₁ →
      st₁.extSessionBlocked = some feature →
      Runs (rejectBatch st₁ (blockedText feature)) t₁ st₂ →
      SyncWays st msg (t₀ ++ t₁) (.inl { st₂ with extSessionBlocked := none })
  | readOnly {st₁ : Relay} : Runs (releaseStaleReader st) t₀ st₁ → st₁.extSessionBlocked = none →
      st₁.extIsWrite = true → Runs (rejectBatch st₁ readOnlyText) t₁ st₂ →
      SyncWays st msg (t₀ ++ ⟨.inReadOnly, true⟩ :: t₁) (.inl st₂)
  | executed {st₁ : Relay} : Runs (releaseStaleReader st) t₀ st₁ → st₁.extSessionBlocked = none →
      (b && st₁.extIsWrite) = false → Runs (executeSync st₁ msg) t₁ r →
      SyncWays st msg (t₀ ++ ⟨.inReadOnly, b⟩ :: t₁) r

theorem handleSync_ways (h : Runs (handleSync st msg) tr r) : SyncWays st msg tr r := by
  replace h := h.of_bind
  obtain ⟨t₀, st₁, _, h₀, h, rfl⟩ := h
  cases hf : st₁.extSessionBlocked with
  | some feature =>
    rw [hf] at h
    obtain ⟨st₂, h₁, rfl⟩ := h.of_map
    exact .blocked h₀ hf h₁
  | none =>
    rw [hf] at h
    replace h := runs_perform_bind.mp h
    obtain ⟨b, _, h, rfl⟩ := h
    cases hrej : b && st₁.extIsWrite with
    | true =>
      rw [if_pos hrej] at h
      obtain ⟨rfl, hw⟩ := Bool.and_eq_true_iff.mp hrej
      obtain ⟨st₂, h₁, rfl⟩ := h.of_map
      exact .readOnly h₀ hf hw h₁
    | false =>
      rw [if_neg (Bool.not_eq_true _ ▸ hrej)] at h
      exact .executed h₀ hf hrej h

inductive MuxWays (st : Relay) (synth : Synthesizer) : Trace Ans → Flow → Prop
  | noBind : st.muxBindDetail = none → Runs (sendReadyForQuery st.session.inTransaction) t₁ () →
      MuxWays st synth t₁ (.inl st.endBatch)
  | failed : st.muxBindDetail = some detail →
      synth.synthesize detail.statementName detail.parameters detail.formatCodes = none →
      Runs (sendError text) t₁ () → Runs (sendReadyForQuery st.session.inTransaction) t₂ () →
      MuxWays st synth (t₁ ++ t₂) (.inl st.clearBatch)
  | executed : st.muxBindDetail = some detail →
      synth.synthesize detail.statementName detail.parameters detail.formatCodes = some query →
      Runs (executeSynthesizedQuery st query) t₁ flow →
      MuxWays st synth t₁ (flow.map Relay.endBatch id)

theorem syncMultiplex_ways (h : Runs (syncMultiplex st synth) tr r) : MuxWays st synth tr r := by
  unfold syncMultiplex at h
  cases hm : st.muxBindDetail with
  | none =>
    rw [hm] at h
    obtain ⟨_, h₁, rfl⟩ := h.of_map
    exact .noBind hm h₁
  | some detail =>
    simp only [hm] at h
    cases hq : synth.synthesize detail.statementName detail.parameters detail.formatCodes with
    | none =>
      rw [hq] at h
      obtain ⟨t₁, _, _, rfl, h₁, h⟩ := h.of_seq
      obtain ⟨_, h₂, rfl⟩ := h.of_map
      exact .failed hm hq h₁ h₂
    | some query =>
      rw [hq] at h
      obtain ⟨flow, h₁, rfl⟩ := h.of_map
      exact .executed hm hq h₁

inductive BatchWays (st : Relay) (msg : Message) : Trace Ans → Flow → Prop
  | multiplex : st.synth = some synth → Runs (syncMultiplex st synth) t₁ r →
      BatchWays st msg t₁ r
  | read : st.synth = none → st.readsBatch = true → Runs (readBatch st msg) t₁ flow →
      BatchWays st msg t₁ (flow.map Relay.endBatch id)
  | write : st.synth = none → st.readsBatch = false → Runs (writeBatch st msg) t₁ flow →
      BatchWays st msg t₁ (flow.map Relay.endBatch id)

theorem executeSync_ways (h : Runs (executeSync st msg) tr r) : BatchWays st msg tr r := by
  unfold executeSync at h
  cases hy : st.synth with
  | some synth =>
    rw [hy] at h
    exact .multiplex hy h
  | none =>
    rw [hy] at h
    obtain ⟨flow, h₁, rfl⟩ := h.of_map
    unfold runBatch at h₁
    cases hr : st.readsBatch with
    | true =>
      rw [if_pos hr] at h₁
      exact .read hy hr h₁
    | false =>
      rw [if_neg (Bool.not_eq_true _ ▸ hr)] at h₁
      exact .write hy hr h₁

theorem handleExtended_sync (ht : msg.type = msgSync) :
    handleExtended st msg = handleSync st msg := by
  unfold handleExtended
  rw [if_neg (by rw [ht]; decide), if_neg (by rw [ht]; decide), if_neg (by rw [ht]; decide),
    if_neg (by rw [ht]; decide), if_neg (by rw [ht]; decide), if_pos ht]

inductive RoundWays (st : Relay) : Trace Ans → Flow → Prop
  | ends : Kinds [.ctx, .client, .mode, .look, .send] t → RoundWays st t (.inr st)
  | limited : Runs rateLimited t₁ (some text) → Runs (reject text) t₂ () →
      RoundWays st (⟨.ctxDone, false⟩ :: ⟨.readClient, .message msg⟩ :: ⟨.inMaintenance, m⟩ ::
        (t₁ ++ t₂)) (.inl st)
  | query : msg.type = msgQuery → Runs rateLimited t₁ none → Runs (handleQuery st msg) t₂ r →
      RoundWays st (⟨.ctxDone, false⟩ :: ⟨.readClient, .message msg⟩ :: ⟨.inMaintenance, m⟩ ::
        (t₁ ++ t₂)) r
  | extended : msg.type ≠ msgQuery → st.extBuf.length < maxExtBufMessages →
      Runs rateLimited t₁ none → Runs (handleExtended st msg) t₂ r →
      RoundWays st (⟨.ctxDone, false⟩ :: ⟨.readClient, .message msg⟩ :: ⟨.inMaintenance, m⟩ ::
        (t₁ ++ t₂)) r

theorem Footprint.kinds {p : Proc α} (h : Footprint ks p) (hs : ks.all ls.contains)
    (hr : Runs p tr a) : Kinds ls tr := h.wider hs tr a hr

theorem Kinds.cons {e : Event} (he : ks.contains e.1.kind) (h : Kinds ks tr) :
    Kinds ks (e :: tr) := List.forall_mem_cons.mpr ⟨he, h⟩

theorem Kinds.append (h₁ : Kinds ks t₁) (h₂ : Kinds ks t₂) : Kinds ks (t₁ ++ t₂) :=
  List.forall_mem_append.mpr ⟨h₁, h₂⟩

theorem relayStep_ways (h : Runs (relayStep st) tr r) : RoundWays st tr r := by
  have hnil : Kinds [.ctx, .client, .mode, .look, .send] ([] : Trace Ans) := by simp [Kinds]
  replace h := runs_perform_bind.mp h
  obtain ⟨done, _, h, rfl⟩ := h
  cases done with
  | true =>
    obtain ⟨rfl, rfl⟩ := runs_pure.mp h
    exact .ends (.cons rfl hnil)
  | false =>
    replace h := runs_perform_bind.mp h
    obtain ⟨x, _, h, rfl⟩ := h
    cases x with
    | closed =>
      obtain ⟨rfl, rfl⟩ := runs_pure.mp h
      exact .ends (.cons rfl (.cons rfl hnil))
    | timeout =>
      obtain ⟨_, h₁, rfl⟩ := h.of_map
      exact .ends (.cons rfl (.cons rfl (sendFatalWithCode_foot.kinds rfl h₁)))
    | message msg =>
      dsimp only at h
      split at h
      · obtain ⟨rfl, rfl⟩ := runs_pure.mp h
        exact .ends (.cons rfl (.cons rfl hnil))
      replace h := runs_perform_bind.mp h
      obtain ⟨m, _, h, rfl⟩ := h
      split at h
      · obtain ⟨_, h₁, rfl⟩ := h.of_map
        exact .ends (.cons rfl (.cons rfl (.cons rfl
          (sendFatalWithCode_foot.kinds rfl h₁))))
      replace h := h.of_bind
      obtain ⟨t₁, limited, _, h₁, h, rfl⟩ := h
      cases limited with
      | some text =>
        obtain ⟨_, h₂, rfl⟩ := h.of_map
        exact .limited h₁ h₂
      | none =>
        dsimp only at h
        split at h
        · rename_i hq
          exact .query hq h₁ h
        rename_i hq
        split at h
        · obtain ⟨_, h₂, rfl⟩ := h.of_map
          exact .ends (.cons rfl (.cons rfl (.cons rfl ((rateLimited_foot.kinds rfl h₁).append
            (sendError_foot.kinds rfl h₂)))))
        · rename_i hroom
          exact .extended hq (Nat.lt_of_not_le hroom) h₁ h

inductive PoolWays (sql : Bytes) (p : PoolId) : Trace Ans → Outcome (List Message) → Prop
  | refused : PoolWays sql p [⟨.acquire p, none⟩] .failed
  | panicked : Runs (executeQuery c sql) t₁ .panicked →
      PoolWays sql p (⟨.acquire p, some c⟩ :: t₁) .panicked
  | stopped : cancelled = true ∧ result ≠ .panicked ∨ result = .failed →
      Runs (executeQuery c sql) t₁ result → PoolWays sql p (⟨.acquire p, some c⟩ ::
      (t₁ ++ [⟨.ctxDone, cancelled⟩, ⟨.discard (some p) c, ()⟩])) .failed
  | unsent : Runs (executeQuery c sql) t₁ (.done ms) → PoolWays sql p (⟨.acquire p, some c⟩ ::
      (t₁ ++ [⟨.ctxDone, false⟩, ⟨.config, cfg⟩, ⟨.write c (queryMessage cfg.resetQuery), false⟩,
        ⟨.discard (some p) c, ()⟩])) (.done ms)
  | answered : Runs (executeQuery c sql) t₁ (.done ms) → Runs (drainUntilReady c) t₂ drained →
      PoolWays sql p (⟨.acquire p, some c⟩ :: (t₁ ++ ⟨.ctxDone, false⟩ :: ⟨.config, cfg⟩ ::
        ⟨.write c (queryMessage cfg.resetQuery), true⟩ :: (t₂ ++ [⟨.ctxDone, cancelled⟩,
          if drained = true ∧ cancelled = false then ⟨.release (some p) c, ()⟩
          else ⟨.discard (some p) c, ()⟩]))) (if cancelled then .failed else .done ms)

theorem resetAndReturn_ways (h₁ : Runs (executeQuery c sql) t₁ (.done ms))
    (h : Runs (resetAndReturn c p ms) t r) :
    PoolWays sql p (⟨.acquire p, some c⟩ :: (t₁ ++ ⟨.ctxDone, false⟩ :: t)) r := by
  replace h := runs_perform_bind.mp h
  obtain ⟨cfg, _, h, rfl⟩ := h
  replace h := runs_perform_bind.mp h
  obtain ⟨sent, _, h, rfl⟩ := h
  cases sent with
  | false =>
    obtain ⟨_, h₂, rfl⟩ := h.of_map
    obtain ⟨rfl, -⟩ := discardToPool_runs h₂
    exact .unsent h₁
  | true =>
    replace h := h.of_bind
    obtain ⟨t₂, drained, _, h₂, h, rfl⟩ := h
    replace h := runs_perform_bind.mp h
    obtain ⟨cancelled, _, h, rfl⟩ := h
    cases cancelled with
    | true =>
      obtain ⟨_, h₃, rfl⟩ := h.of_map
      obtain ⟨rfl, -⟩ := discardToPool_runs h₃
      cases drained <;> exact .answered h₁ h₂
    | false =>
      cases drained with
      | true =>
        obtain ⟨_, h₃, rfl⟩ := h.of_map
        obtain ⟨rfl, -⟩ := releaseToPool_runs h₃
        exact .answered h₁ h₂
      | false =>
        obtain ⟨_, h₃, rfl⟩ := h.of_map
        obtain ⟨rfl, -⟩ := discardToPool_runs h₃
        exact .answered h₁ h₂

theorem executeOnPool_ways (h : Runs (executeOnPool sql p) tr r) : PoolWays sql p tr r := by
  replace h := runs_perform_bind.mp h
  obtain ⟨x, _, h, rfl⟩ := h
  cases x with
  | none =>
    obtain ⟨rfl, rfl⟩ := runs_pure.mp h
    exact .refused
  | some c =>
    replace h := h.of_bind
    obtain ⟨t₁, result, _, h₁, h, rfl⟩ := h
    cases result with
    | panicked =>
      obtain ⟨rfl, rfl⟩ := runs_pure.mp h
      rw [List.append_nil]
      exact .panicked h₁
    | failed =>
      replace h := runs_perform_bind.mp h
      obtain ⟨cancelled, _, h, rfl⟩ := h
      obtain ⟨_, h₂, rfl⟩ := h.of_map
      obtain ⟨rfl, -⟩ := discardToPool_runs h₂
      exact .stopped (.inr rfl) h₁
    | done ms =>
      replace h := runs_perform_bind.mp h
      obtain ⟨cancelled, _, h, rfl⟩ := h
      cases cancelled with
      | true =>
        obtain ⟨_, h₂, rfl⟩ := h.of_map
        obtain ⟨rfl, -⟩ := discardToPool_runs h₂
        exact .stopped (.inl ⟨rfl, by simp⟩) h₁
      | false => exact resetAndReturn_ways h₁ h

inductive ApiReadWays (sql : Bytes) (pq : Option PgQuery.Tree) (w : PoolId) (dbName : Bytes) :
    Trace Ans → Prop
  | hit : Runs (lookupResponse sql pq dbName) t (some json) → ApiReadWays sql pq w dbName t
  | passed : Runs (lookupResponse sql pq dbName) t₀ none → Kinds [.look, .readerPool] t₁ →
      (∀ addr p, ⟨.readerPool addr, some p⟩ ∉ t₁) → Runs (executeOnPool sql w) t rows →
      ApiReadWays sql pq w dbName (t₀ ++ (t₁ ++ t))
  | panicked : Runs (lookupResponse sql pq dbName) t₀ none →
      Runs (executeOnPool sql p) t₁ .panicked → ApiReadWays sql pq w dbName (t₀ ++
        ⟨.nextReader none, some addr⟩ :: ⟨.readerPool addr, some p⟩ :: t₁)
  | failed : Runs (lookupResponse sql pq dbName) t₀ none → Runs (executeOnPool sql p) t₁ .failed →
      Runs (executeOnPool sql w) t rows → ApiReadWays sql pq w dbName (t₀ ++
        ⟨.nextReader none, some addr⟩ :: ⟨.readerPool addr, some p⟩ ::
          (t₁ ++ ⟨.markUnhealthy addr, ()⟩ :: t))
  | served : Runs (lookupResponse sql pq dbName) t₀ none →
      Runs (executeOnPool sql p) t₁ (.done ms) → Runs (storeResponse sql pq dbName ms) t kept →
      ApiReadWays sql pq w dbName (t₀ ++ ⟨.nextReader none, some addr⟩ ::
        ⟨.readerPool addr, some p⟩ :: (t₁ ++ t))

theorem executeRead_ways (h : Runs (executeRead sql pq w dbName) tr r) :
    ApiReadWays sql pq w dbName tr := by
  replace h := h.of_bind
  obtain ⟨t₀, found, _, h₀, h, rfl⟩ := h
  have hskip (t₁ : Trace Ans) {t rows} (hk : Kinds [.look, .readerPool] t₁)
      (hno : ∀ addr p, ⟨.readerPool addr, some p⟩ ∉ t₁) (hm : found = none)
      (h : Runs (executeOnPool sql w) t rows) : ApiReadWays sql pq w dbName (t₀ ++ (t₁ ++ t)) :=
    .passed (hm ▸ h₀) hk hno h
  cases found with
  | some json =>
    obtain ⟨rfl, -⟩ := runs_pure.mp h
    rw [List.append_nil]
    exact .hit h₀
  | none =>
    replace h := runs_perform_bind.mp h
    obtain ⟨addr, _, h, rfl⟩ := h
    cases addr with
    | none =>
      obtain ⟨rows, h₁, -⟩ := h.of_map
      exact hskip [⟨.nextReader none, none⟩] (by simp [Kinds, Op.kind]) (by simp) rfl h₁
    | some addr =>
      obtain ⟨rows, h₁, -⟩ := h.of_map
      replace h₁ := runs_perform_bind.mp h₁
      obtain ⟨pool, _, h₁, rfl⟩ := h₁
      cases pool with
      | none =>
        exact hskip [⟨.nextReader none, some addr⟩, ⟨.readerPool addr, none⟩]
          (by simp [Kinds, Op.kind]) (by simp) rfl h₁
      | some p =>
        replace h₁ := h₁.of_bind
        obtain ⟨t₁, served, _, h₂, h₁, rfl⟩ := h₁
        cases served with
        | panicked =>
          obtain ⟨rfl, -⟩ := runs_pure.mp h₁
          rw [List.append_nil]
          exact .panicked h₀ h₂
        | failed =>
          obtain ⟨_, t, h₃, rfl⟩ := runs_perform_bind.mp h₁
          exact .failed h₀ h₂ h₃
        | done ms =>
          obtain ⟨t, kept, _, h₃, h₁, rfl⟩ := h₁.of_bind
          cases kept <;> obtain ⟨rfl, -⟩ := runs_pure.mp h₁ <;> rw [List.append_nil] <;>
            exact .served h₀ h₂ h₃

/-- The messages that a result does not go on after. -/
def endsResult (m : Message) : Bool :=
  m.type = msgErrorResponse || m.type = msgReadyForQuery || isCopyResponse m

inductive ResponseWays (c : ConnId) (r : Received) :
    Trace Ans → Received ⊕ Outcome (List Message) → Prop
  | more : accepted (some m) = some m → endsResult m = false → r.add m = some r' →
      ResponseWays c r [⟨.read c, some m⟩] (.inl r')
  | done : accepted (some m) = some m → m.type = msgReadyForQuery →
      ResponseWays c r [⟨.read c, some m⟩] (.inr (.done r.messages))
  | panicked : accepted (some m) = some m → endsResult m = false → r.add m = none →
      ResponseWays c r [⟨.read c, some m⟩] (.inr .panicked)
  | failed : (∀ m, accepted x = some m → endsResult m = true) →
      ResponseWays c r (⟨.read c, x⟩ :: t) (.inr .failed)

theorem readResponse_rounds (c : ConnId) : ∃ f, readResponse c = iterate f ⟨[], []⟩ ∧
    ∀ r t x, Runs (f r) t x → ResponseWays c r t x := by
  refine ⟨_, rfl, fun r t x h => ?_⟩
  replace h := runs_perform_bind.mp h
  obtain ⟨y, _, h, rfl⟩ := h
  rcases accepted_cases y with hy | ⟨m, rfl, hy⟩ <;> rw [hy] at h
  · obtain ⟨-, rfl⟩ := runs_pure.mp h
    exact .failed (by simp [hy])
  · have hfailed {t} (he : endsResult m = true) :
        ResponseWays c r (⟨.read c, some m⟩ :: t) (.inr .failed) :=
      .failed fun _ h => by cases hy.symm.trans h; exact he
    dsimp only at h
    split at h
    · obtain ⟨_, -, rfl⟩ := h.of_map
      exact hfailed (by simp [endsResult, *])
    split at h
    · rename_i hm
      obtain ⟨rfl, rfl⟩ := runs_pure.mp h
      exact .done hy hm
    split at h
    · obtain ⟨_, _, h₁, -⟩ := runs_perform_bind.mp h
      obtain ⟨_, -, rfl⟩ := h₁.of_map
      exact hfailed (by simp [endsResult, *])
    · have he : endsResult m = false := by simp [endsResult, *]
      split at h
      · obtain ⟨rfl, rfl⟩ := runs_pure.mp h
        exact .panicked hy he ‹_›
      · obtain ⟨rfl, rfl⟩ := runs_pure.mp h
        exact .more hy he ‹_›

theorem add_messages {r r' : Received} (h : r.add m = some r') :
    r'.messages = r.messages ++ [m] := by
  unfold Received.add at h
  split at h
  · obtain ⟨_, -, rfl⟩ := Option.map_eq_some_iff.mp h
    rfl
  split at h
  · obtain ⟨_, -, rfl⟩ := Option.map_eq_some_iff.mp h
    rfl
  · cases h
    rfl

end Paths

end Pgmux
