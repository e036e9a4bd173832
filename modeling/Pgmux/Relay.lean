import Pgmux.Backend
import Pgmux.BindMessage

namespace Pgmux

open Interaction

/-- A writer connection and the pool it was taken from: `boundWriter` and `boundWriterPool`,
which the relay sets and clears together. -/
structure Lease where
  conn : ConnId
  pool : PoolId
  deriving DecidableEq

structure ReaderLease where
  conn : ConnId
  pool : PoolId
  addr : Addr
  deriving DecidableEq

/-- The variables of `relayQueries`. A synthesizer is there in multiplex mode only. -/
structure Relay where
  dbName : Bytes
  session : Session
  boundWriter : Option Lease
  connDirty : Bool
  boundReader : Option ReaderLease
  extBuf : List Message
  extRoute : Route
  extTxStart : Bool
  extTxEnd : Bool
  extIsWrite : Bool
  extHasExecute : Bool
  extSessionBlocked : Option SessionFeature
  extQueryText : Bytes
  synth : Option Synthesizer
  muxBindDetail : Option BindMessageDetail

def Relay.init (dbName : Bytes) (session : Session) (multiplex : Bool) : Relay where
  dbName := dbName
  session := session
  boundWriter := none
  connDirty := false
  boundReader := none
  extBuf := []
  extRoute := .writer
  extTxStart := false
  extTxEnd := false
  extIsWrite := false
  extHasExecute := false
  extSessionBlocked := none
  extQueryText := []
  synth := if multiplex then some .empty else none
  muxBindDetail := none

def Relay.boundConn (st : Relay) : Option ConnId := st.boundWriter.map Lease.conn

def Relay.boundPool (st : Relay) : Option PoolId := st.boundWriter.map Lease.pool

def Relay.clearBatch (st : Relay) : Relay :=
  { st with
    extBuf := []
    extRoute := .reader
    extTxStart := false
    extTxEnd := false
    extIsWrite := false
    muxBindDetail := none }

def Relay.endBatch (st : Relay) : Relay :=
  { st.clearBatch with extHasExecute := false, extQueryText := [] }

def Relay.applyTxFlags (st : Relay) : Relay :=
  let session := if st.extTxStart then st.session.setInTransaction true else st.session
  { st with session := if st.extTxEnd then session.setInTransaction false else session }

/-- What one round of the loop returns: on the left to go on, on the right to return. -/
abbrev Flow := Relay ⊕ Relay

section Loop

variable [External]

def rewriteQuery (query : Bytes) : Proc (Option Bytes) := do
  match ← ask .rewriter with
  | none => return none
  | some rules => return External.applyRules rules query

/-- Go on when the pool call survived; a panic runs the deferred cleanup like a return. -/
def proceed (alive : Bool) (st : Relay) : Flow := if alive then .inl st else .inr st

def dropWriter (st : Relay) (c : ConnId) (acquired : Bool) (acquiredPool : PoolId) :
    Proc Relay := do
  if acquired then
    let _ ← discardToPool c (some acquiredPool)
    return st
  else
    match st.boundWriter with
    | some lease =>
      let _ ← discardToPool lease.conn (some lease.pool)
      return { st with boundWriter := none }
    | none => return st

def unbindWriter (st : Relay) (c : ConnId) : Proc Flow := do
  let alive ← handBack st.connDirty c st.boundPool
  return proceed alive { st with boundWriter := none, connDirty := !alive && st.connDirty }

def finishQuery (st : Relay) (query : Bytes) (c : ConnId) (acquired : Bool)
    (acquiredPool : PoolId) (wasInTx nowInTx : Bool) : Proc Flow := do
  let st := if isSessionModifying query then { st with connDirty := true } else st
  if !wasInTx && nowInTx then
    return .inl (if acquired then { st with boundWriter := some ⟨c, acquiredPool⟩ } else st)
  else if wasInTx && !nowInTx then
    if st.session.pinned then return .inl st else unbindWriter st c
  else if acquired then
    if st.session.pinned then
      return .inl { st with boundWriter := some ⟨c, acquiredPool⟩ }
    else if st.connDirty || isSessionModifying query then
      let _ ← resetAndReleaseToPool c (some acquiredPool)
      return .inl { st with connDirty := false }
    else
      let _ ← releaseToPool c (some acquiredPool)
      return .inl st
  else return .inl st

/-- The writer path that simple queries, batches and synthesized queries share: `exchange` talks
to the connection, `finish` decides what becomes of it. The pool is captured before the connection
is acquired; a panic of the exchange leaves the connection where it is. -/
def onWriter (st : Relay) (exchange : ConnId → Proc (Outcome Session))
    (finish : Relay → ConnId → Bool → PoolId → Proc Flow) : Proc Flow := do
  let acquiredPool ← ask .writerPool
  match ← acquireWriterConn st.boundConn with
  | none =>
    sendError (ascii "cannot acquire backend connection")
    return .inr st
  | some (c, acquired) =>
    let addr ← ask .writerAddr
    ask (.setCancel addr c)
    match ← exchange c with
    | .panicked => return .inr st
    | .failed =>
      ask .clearCancel
      let st ← dropWriter st c acquired acquiredPool
      return .inr st
    | .done session =>
      ask .clearCancel
      finish { st with session := session } c acquired acquiredPool

def writeQuery (st : Relay) (msg : Message) (query : Bytes) (pq : Option PgQuery.Tree)
    (qtype : QueryType) (cfg : Config) (wasInTx nowInTx : Bool) : Proc Flow :=
  onWriter st (fun c => handleWriteQuery c msg query st.session pq qtype cfg)
    fun st c acquired acquiredPool => finishQuery st query c acquired acquiredPool wasInTx nowInTx

def forwardFor (session : Session) (ms : List Message) (c : ConnId) : Proc (Outcome Session) := do
  if ← forwardAndRelay c ms then return .done session else return .failed

def readOnlyText : Bytes := ascii "cannot execute write query: pgmux is in read-only mode"

def routedType (route : Route) (query : Bytes) (pq : Option PgQuery.Tree) : Proc QueryType :=
  match route with
  | .reader => return .read
  | .writer => classifyQueryParsed query pq

def Relay.routed (st : Relay) (now : Nat) (query : Bytes) : Relay :=
  { st with session := (st.session.routeWithTxState now query).2.2.2 }

def routeQuery (st : Relay) (msg : Message) (query : Bytes) (pq : Option PgQuery.Tree)
    (cfg : Config) : Proc Flow := do
  let now ← ask .now
  let (route, wasInTx, nowInTx, _) := st.session.routeWithTxState now query
  let st := st.routed now query
  let qtype ← routedType route query pq
  if (← ask .inReadOnly) && qtype = .write then
    reject readOnlyText
    return .inl st
  else match route with
    | .writer => writeQuery st msg query pq qtype cfg wasInTx nowInTx
    | .reader => do
      let ok ← handleReadQueryTraced msg query st.session pq cfg st.dbName
      return proceed ok st

def firewallCheck (cfg : Config) (query : Bytes) (pq : Option PgQuery.Tree) : Option Bytes :=
  match pq with
  | some tree => checkFirewallWithTree tree cfg.firewall
  | none => checkFirewall query cfg.firewall

def guardCheck (cfg : Config) (query : Bytes) (pq : Option PgQuery.Tree) :
    Option SessionFeature :=
  if cfg.sessionCompat then
    match pq with
    | some tree => detectSessionDependencyAST tree query
    | none => detectSessionDependency query
  else none

def blockedText (feature : SessionFeature) : Bytes :=
  ascii "session-dependent feature blocked: " ++ feature.name

def Relay.pin (st : Relay) (feature : SessionFeature) : Relay :=
  { st with session := st.session.pin feature.name, connDirty := true }

/-- The tree that the checks of a simple query share; rewriting invalidates it. -/
def preParse (cfg : Config) (rewritten : Option Bytes) (original : Bytes) : Option PgQuery.Tree :=
  if cfg.astParser && rewritten.isNone then PgQuery.parse original else none

/-- A Query message. The original message is what the later steps forward. -/
def handleQuery (st : Relay) (msg : Message) : Proc Flow := do
  let original := extractQueryText msg.payload
  let cfg ← ask .config
  let rewritten ← rewriteQuery original
  let query := rewritten.getD original
  let pq := preParse cfg rewritten original
  match firewallCheck cfg query pq with
  | some text =>
    reject text
    return .inl st
  | none =>
    match guardCheck cfg query pq, cfg.compatMode with
    | some feature, .block =>
      reject (blockedText feature)
      return .inl st
    | some feature, .pin => routeQuery (st.pin feature) msg query pq cfg
    | _, _ => routeQuery st msg query pq cfg

def Relay.guarded (st : Relay) (cfg : Config) (query : Bytes) : Relay :=
  match guardCheck cfg query none, cfg.compatMode with
  | some feature, .block => { st with extSessionBlocked := some feature }
  | some feature, .pin => st.pin feature
  | _, _ => st

/-- The session guard on a Parse message; the first block decides. -/
def guardParse (st : Relay) (query : Bytes) : Proc Relay := do
  if st.extSessionBlocked.isSome then return st
  else
    let cfg ← ask .config
    return st.guarded cfg query

def parseNameText (payload : Bytes) : Bytes × Bytes :=
  let full := parseParseMessageFull payload
  if full.ok then (full.stmtName, full.query) else parseParseMessage payload

def Relay.register (st : Relay) (now : Nat) (stmtName query : Bytes) (paramOIDs : List Nat) :
    Relay :=
  let (start, finish) := isTxControl query
  { st with
    session := (st.session.registerStatement now stmtName query).2
    synth := st.synth.map fun synth => synth.registerStatement stmtName query paramOIDs
    extQueryText := query
    extTxStart := st.extTxStart || start
    extTxEnd := st.extTxEnd || (!start && finish) }

/-- The batch route after a Parse: an assignment, not a maximum. -/
def Relay.parseRoute (st : Relay) (route : Route) : Route :=
  if st.session.inTransaction || st.boundWriter.isSome || route = .writer || st.session.pinned then
    .writer
  else route

/-- The Parse that is buffered: rebuilt when the text was rewritten. -/
def forwardedParse (rewritten : Option Bytes) (msg : Message) : Message :=
  let full := parseParseMessageFull msg.payload
  match rewritten with
  | some query =>
    ⟨msgParse, buildParsePayload (parseNameText msg.payload).1 query
      (if full.ok then full.paramOIDs else [])⟩
  | none => msg

def handleParse (st : Relay) (msg : Message) : Proc Flow := do
  let full := parseParseMessageFull msg.payload
  let (stmtName, original) := parseNameText msg.payload
  let rewritten ← rewriteQuery original
  let query := rewritten.getD original
  let now ← ask .now
  let route := (st.session.registerStatement now stmtName query).1
  let st := st.register now stmtName query full.paramOIDs
  let qtype ← classifyQuery query
  let st := { st with extIsWrite := st.extIsWrite || qtype = .write }
  let st ← guardParse st query
  let st := { st with extRoute := st.parseRoute route }
  if st.synth.isSome then
    let ok ← ask (.sendClient ⟨'1'.toUInt8, []⟩)
    return proceed ok st
  else
    return .inl { st with extBuf := st.extBuf ++ [forwardedParse rewritten msg] }

def Relay.bindFlags (st : Relay) (stmtName : Bytes) : Relay :=
  { st with
    extRoute := if st.session.statementRoute stmtName = .writer then .writer else st.extRoute
    extIsWrite := st.extIsWrite || st.session.statementIsWrite stmtName }

def invalidBindText (payload : Bytes) : Bytes :=
  ascii "invalid bind message: " ++
    match Sliced.parseBindMessageFull payload with
    | .error (.error e) => e.text
    | _ => []

def handleBind (st : Relay) (msg : Message) : Proc Flow := do
  if st.synth.isSome then
    match parseBindMessageFull msg.payload with
    | none =>
      sendError (invalidBindText msg.payload)
      return .inr st
    | some detail =>
      let st := { st.bindFlags detail.statementName with muxBindDetail := some detail }
      let ok ← ask (.sendClient ⟨'2'.toUInt8, []⟩)
      return proceed ok st
  else
    let st := st.bindFlags (parseBindMessage msg.payload).2
    return .inl { st with extBuf := st.extBuf ++ [msg] }

/-- Closing a statement forgets its route and its text; closing a portal does not. -/
def Relay.closeStatement (st : Relay) (payload : Bytes) : Relay :=
  let (closeType, name) := parseCloseMessage payload
  if closeType = 'S'.toUInt8 then
    { st with
      session := st.session.closeStatement name
      synth := st.synth.map fun synth => synth.closeStatement name }
  else st

def handleClose (st : Relay) (msg : Message) : Proc Flow := do
  let st := st.closeStatement msg.payload
  if st.synth.isSome then
    let ok ← ask (.sendClient ⟨'3'.toUInt8, []⟩)
    return proceed ok st
  else return .inl { st with extBuf := st.extBuf ++ [msg] }

def describeName : Bytes := ascii "__pgmux_desc_tmp__"

def describeBatch (query : Bytes) : List Message :=
  [⟨msgParse, buildParsePayload describeName query []⟩,
    ⟨msgDescribe, 'S'.toUInt8 :: describeName ++ [0]⟩,
    ⟨msgClose, 'S'.toUInt8 :: describeName ++ [0]⟩,
    ⟨msgSync, []⟩]

/-- Relay the description, without ParseComplete, CloseComplete and ReadyForQuery. -/
def relayDescription (c : ConnId) : Proc Bool :=
  iterate (fun _ : Unit => do
    match accepted (← ask (.read c)) with
    | some m =>
      if m.type = '1'.toUInt8 ∨ m.type = '3'.toUInt8 then return .inl ()
      else if m.type = msgReadyForQuery then return .inr true
      else if ← ask (.sendClient m) then return .inl ()
      else return .inr false
    | none => return .inr false) ()

def exchangeDescribe (c : ConnId) (query : Bytes) : Proc Bool := do
  if ← forwardAll c (describeBatch query) then relayDescription c else return false

def unknownStatement (name : Bytes) : Bytes :=
  ascii "unknown statement: " ++ External.quoted name

/-- The name in the payload of a Describe of a statement, or the error for the client. -/
def describeTarget (synth : Synthesizer) (payload : Bytes) : Except Bytes PreparedStmt :=
  match payload with
  | kind :: c :: rest =>
    match cString (c :: rest) with
    | none => .error (ascii "invalid describe message")
    | some (name, _) =>
      if kind = 'P'.toUInt8 then
        .error (ascii "portal describe not supported in multiplex mode")
      else match synth.getStatement name with
        | none => .error (unknownStatement name)
        | some stmt => .ok stmt
  | _ => .error (ascii "invalid describe message")

def handleMultiplexDescribe (synth : Synthesizer) (msg : Message) : Proc Bool := do
  match describeTarget synth msg.payload with
  | .error text =>
    sendError text
    return true
  | .ok stmt =>
    let wPool ← ask .writerPool
    match ← ask (.acquire wPool) with
    | none =>
      sendError (ascii "cannot acquire backend connection for describe")
      return true
    | some c =>
      if ← exchangeDescribe c stmt.query then
        let _ ← resetAndReleaseToPool c (some wPool)
        return true
      else
        let _ ← discardToPool c (some wPool)
        return false

def handleDescribe (st : Relay) (msg : Message) : Proc Flow := do
  match st.synth with
  | some synth =>
    let ok ← handleMultiplexDescribe synth msg
    return proceed ok st
  | none => return .inl { st with extBuf := st.extBuf ++ [msg] }

def handleExecute (st : Relay) (msg : Message) : Proc Flow :=
  if st.synth.isSome then return .inl st
  else return .inl { st with extHasExecute := true, extBuf := st.extBuf ++ [msg] }

def handleOther (st : Relay) (msg : Message) : Proc Flow :=
  if st.synth.isSome then return .inl st
  else return .inl { st with extBuf := st.extBuf ++ [msg] }

end Loop

end Pgmux
