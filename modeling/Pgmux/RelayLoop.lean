import Pgmux.Relay

namespace Pgmux

open Interaction

section Loop

variable [External]

def acquireReader : Option Addr → Proc (Option ReaderLease)
  | none => return none
  | some addr => do
    if ← ask (.readerAllow addr) then
      match ← ask (.readerPool addr) with
      | none => return none
      | some rPool =>
        match ← ask (.acquire rPool) with
        | some c => return some ⟨c, rPool, addr⟩
        | none =>
          failReader addr true
          return none
    else return none

/-- A reader connection for a batch without Execute, or a writer connection in its place. -/
def acquireReaderForBind (readerAddr : Option Addr) : Proc (Option ReaderLease) := do
  match ← acquireReader readerAddr with
  | some lease => return some lease
  | none =>
    let wPool ← ask .writerPool
    match ← ask (.acquire wPool) with
    | some c =>
      let addr ← ask .writerAddr
      return some ⟨c, wPool, addr⟩
    | none => return none

def exchangeBatch (st : Relay) (msg : Message) (addr : Addr) (c : ConnId) : Proc Bool := do
  ask (.setCancel addr c)
  let ok ← forwardAndRelay c (st.extBuf ++ [msg])
  ask .clearCancel
  return ok

def readBatch (st : Relay) (msg : Message) : Proc Flow :=
  match st.boundReader with
  | some r => do
    if ← exchangeBatch st msg r.addr r.conn then
      if st.extHasExecute then
        let _ ← releaseToPool r.conn (some r.pool)
        return .inl { st with boundReader := none }
      else return .inl st
    else
      let _ ← discardToPool r.conn (some r.pool)
      return .inr { st with boundReader := none }
  | none => do
    let addr ← ask (.nextReader none)
    if !st.extHasExecute && st.extBuf ≠ [] then
      match ← acquireReaderForBind addr with
      | none =>
        sendError (ascii "cannot acquire backend connection")
        return .inr st
      | some r =>
        if ← exchangeBatch st msg r.addr r.conn then
          return .inl { st with boundReader := some r }
        else
          let _ ← discardToPool r.conn (some r.pool)
          return .inr st
    else
      let ok ← handleExtendedRead st.extBuf msg addr st.dbName
      return proceed ok st

def finishBatch (st : Relay) (c : ConnId) (acquired : Bool) (acquiredPool : PoolId) :
    Proc Flow := do
  let st := st.applyTxFlags
  if st.extTxStart && !st.extTxEnd then
    return .inl (if acquired then { st with boundWriter := some ⟨c, acquiredPool⟩ } else st)
  else if st.extTxEnd then
    if st.session.pinned then return .inl st else unbindWriter st c
  else if acquired && !st.extHasExecute then
    return .inl { st with boundWriter := some ⟨c, acquiredPool⟩ }
  else if acquired then
    if st.session.pinned then
      return .inl { st with boundWriter := some ⟨c, acquiredPool⟩ }
    else
      let _ ← handBack st.connDirty c (some acquiredPool)
      return .inl { st with connDirty := false }
  else if st.extHasExecute && !st.session.pinned && !st.session.inTransaction then
    unbindWriter st c
  else return .inl st

def writeBatch (st : Relay) (msg : Message) : Proc Flow :=
  onWriter st (forwardFor st.session (st.extBuf ++ [msg])) finishBatch

/-- The transaction lifecycle after a synthesized query on the writer. A BEGIN binds the
connection with the pool captured in this step, also when it was bound before. -/
def finishSynthesized (st : Relay) (c : ConnId) (acquired : Bool) (acquiredPool : PoolId) :
    Proc Flow := do
  let st := st.applyTxFlags
  if st.extTxStart && !st.extTxEnd then
    return .inl { st with boundWriter := some ⟨c, acquiredPool⟩ }
  else if st.extTxEnd then
    let alive ← resetAndReleaseToPool c st.boundPool
    return proceed alive { st with boundWriter := none }
  else if acquired then
    let _ ← resetAndReleaseToPool c (some acquiredPool)
    return .inl st
  else return .inl st

/-- The batch goes to a reader: routed there, no transaction, no bound writer. -/
def Relay.readsBatch (st : Relay) : Bool :=
  st.extRoute = .reader && !st.session.inTransaction && st.boundWriter.isNone

def executeSynthesizedQuery (st : Relay) (query : Bytes) : Proc Flow := do
  if st.readsBatch then
    let addr ← ask (.nextReader none)
    let ok ← handleSynthesizedRead query addr
    return proceed ok st
  else onWriter st (forwardFor st.session [queryMessage query]) finishSynthesized

def runBatch (st : Relay) (msg : Message) : Proc Flow :=
  if st.readsBatch then readBatch st msg else writeBatch st msg

def releaseReader (st : Relay) : Proc Relay := do
  match st.boundReader with
  | some r =>
    let _ ← resetAndReleaseToPool r.conn (some r.pool)
    return { st with boundReader := none }
  | none => return st

def releaseStaleReader (st : Relay) : Proc Relay :=
  if st.extRoute = .writer ∨ st.session.inTransaction ∨ st.boundWriter.isSome then
    releaseReader st
  else return st

def rejectBatch (st : Relay) (text : Bytes) : Proc Relay := do
  sendError text
  sendReadyForQuery st.session.inTransaction
  let st ← releaseReader st
  return { st.clearBatch with extHasExecute := false }

def Relay.synthesized (st : Relay) : Option Bytes := do
  let synth ← st.synth
  let detail ← st.muxBindDetail
  synth.synthesize detail.statementName detail.parameters detail.formatCodes

/-- The name of the type in the errors of `ParamToLiteral`. -/
def errorName (formatCode : Int) : OidKind → Bytes
  | .boolean => ascii "boolean"
  | .int2 => ascii (if formatCode = 1 then "int2" else "integer")
  | .int4 => ascii (if formatCode = 1 then "int4" else "integer")
  | .int8 => ascii (if formatCode = 1 then "int8" else "integer")
  | .float4 => ascii (if formatCode = 1 then "float4" else "float")
  | .float8 => ascii (if formatCode = 1 then "float8" else "float")
  | .oid => ascii "integer"
  | .numeric => ascii "numeric"
  | .uuid => ascii "UUID"
  | .bytea | .text => []

/-- The error of `ParamToLiteral` for a value that it rejects. -/
def paramError (value : Bytes) (oid : Nat) (formatCode : Int) : Bytes :=
  ascii "invalid " ++ errorName formatCode (oidKind oid) ++
    if formatCode = 1 then ascii " binary length: " ++ natText value.length
    else ascii " value: " ++ External.quoted value

def paramsError (paramOIDs : List Nat) (formatCodes : List Int) :
    Nat → List (Option Bytes) → Bytes
  | _, [] => []
  | i, param :: params =>
    let oid := paramOIDs.getD i 0
    let fc := formatCode formatCodes i
    match paramToLiteral param oid fc with
    | none => ascii "param $" ++ natText (i + 1) ++ ascii ": " ++ paramError (param.getD []) oid fc
    | some _ => paramsError paramOIDs formatCodes (i + 1) params

def synthesisFailedText (synth : Synthesizer) (detail : BindMessageDetail) : Bytes :=
  ascii "query synthesis failed: " ++
    match synth.getStatement detail.statementName with
    | none => unknownStatement detail.statementName
    | some stmt => paramsError stmt.paramOIDs detail.formatCodes 0 detail.parameters

/-- Execute the batch in multiplex mode: only its last Bind counts. -/
def syncMultiplex (st : Relay) (synth : Synthesizer) : Proc Flow := do
  match st.muxBindDetail with
  | none =>
    sendReadyForQuery st.session.inTransaction
    return .inl st.endBatch
  | some detail =>
    match synth.synthesize detail.statementName detail.parameters detail.formatCodes with
    | none =>
      sendError (synthesisFailedText synth detail)
      sendReadyForQuery st.session.inTransaction
      return .inl st.clearBatch
    | some query =>
      let flow ← executeSynthesizedQuery st query
      return flow.map Relay.endBatch id

def syncProxy (st : Relay) (msg : Message) : Proc Flow := do
  let flow ← runBatch st msg
  return flow.map Relay.endBatch id

def executeSync (st : Relay) (msg : Message) : Proc Flow :=
  match st.synth with
  | some synth => syncMultiplex st synth
  | none => syncProxy st msg

def handleSync (st : Relay) (msg : Message) : Proc Flow := do
  let st ← releaseStaleReader st
  match st.extSessionBlocked with
  | some feature =>
    let st ← rejectBatch st (blockedText feature)
    return .inl { st with extSessionBlocked := none }
  | none =>
    if (← ask .inReadOnly) && st.extIsWrite then
      let st ← rejectBatch st readOnlyText
      return .inl st
    else executeSync st msg

def rateLimited : Proc (Option Bytes) := do
  if ← ask (.allow .all) then
    if ← ask (.allow .user) then
      if ← ask (.allow .ip) then return none
      else return some (ascii "per-ip rate limit exceeded")
    else return some (ascii "per-user rate limit exceeded")
  else return some (ascii "too many requests")

def maxExtBufMessages : Nat := 10000

def handleExtended (st : Relay) (msg : Message) : Proc Flow :=
  if msg.type = msgParse then handleParse st msg
  else if msg.type = msgBind then handleBind st msg
  else if msg.type = msgClose then handleClose st msg
  else if msg.type = msgDescribe then handleDescribe st msg
  else if msg.type = msgExecute then handleExecute st msg
  else if msg.type = msgSync then handleSync st msg
  else handleOther st msg

def handleMessage (st : Relay) (msg : Message) : Proc Flow := do
  if (← ask .inMaintenance) && st.boundWriter.isNone then
    sendFatalWithCode (ascii "57P01") (ascii "pgmux is in maintenance mode")
    return .inr st
  else match ← rateLimited with
    | some text =>
      reject text
      return .inl st
    | none =>
      if msg.type = msgQuery then handleQuery st msg
      else if maxExtBufMessages ≤ st.extBuf.length then
        sendError (ascii "too many pending extended query messages")
        return .inr st
      else handleExtended st msg

def relayStep (st : Relay) : Proc Flow := do
  if ← ask .ctxDone then return .inr st
  else match ← ask .readClient with
    | .closed => return .inr st
    | .timeout =>
      sendFatalWithCode (ascii "57P01") (ascii "terminating connection due to idle timeout")
      return .inr st
    | .message msg => if msg.type = msgTerminate then return .inr st else handleMessage st msg

def releaseWriter (st : Relay) : Proc Unit :=
  match st.boundWriter with
  | some lease => do
    let _ ← handBack st.connDirty lease.conn (some lease.pool)
    return ()
  | none => return ()

def cleanup (st : Relay) : Proc Unit := do
  releaseWriter st
  let _ ← releaseReader st
  return ()

def relayQueries (dbName : Bytes) (session : Session) : Proc Unit := do
  let cfg ← ask .config
  let st ← iterate relayStep (Relay.init dbName session cfg.multiplex)
  cleanup st

/-- A run of `relayQueries`: the rounds of its loop and the deferred cleanup. -/
def RelayRun (dbName : Bytes) (session : Session) (multiplex : Bool)
    (rs : List (Relay × Trace Ans)) (t : Trace Ans) : Prop :=
  ∃ st, Rounds relayStep (Relay.init dbName session multiplex) rs st ∧ Runs (cleanup st) t ()

theorem runs_relayQueries : Runs (relayQueries dbName session) tr () ↔
    ∃ cfg : Config, ∃ rs t, RelayRun dbName session cfg.multiplex rs t ∧
      tr = ⟨.config, cfg⟩ :: (flat rs ++ t) := by
  unfold relayQueries
  rw [runs_perform_bind]
  constructor
  · rintro ⟨cfg, t, h, rfl⟩
    obtain ⟨t₁, st, t₂, rfl, h₁, h₂⟩ := h.of_seq
    obtain ⟨rs, hrs, rfl⟩ := runs_iterate.mp h₁
    exact ⟨cfg, rs, t₂, ⟨st, hrs, h₂⟩, rfl⟩
  · rintro ⟨cfg, rs, t, ⟨st, hrs, h₂⟩, rfl⟩
    exact ⟨cfg, _, (runs_iterate.mpr ⟨rs, hrs, rfl⟩).bind h₂, rfl⟩

end Loop

end Pgmux
