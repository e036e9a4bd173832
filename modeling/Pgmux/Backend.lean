import Pgmux.Server

namespace Pgmux

open Interaction

section Backend

variable [External]

def relayCopyIn (c : ConnId) : Proc Bool :=
  iterate (fun _ : Unit => do
    match ← ask .readClient with
    | .message m =>
      if ← ask (.copyTo c m) then
        return if m.type = msgCopyData then .inl () else .inr true
      else return .inr false
    | _ => return .inr false) ()

def relayCopyOut (c : ConnId) : Proc Bool :=
  iterate (fun _ : Unit => do
    match accepted (← ask (.read c)) with
    | some m =>
      if ← ask (.sendClient m) then
        return if m.type = msgCopyData then .inl () else .inr true
      else return .inr false
    | none => return .inr false) ()

/-- One message of the backend-to-client goroutine of `relayCopyBoth`; `some` when it ends. -/
def copyBothBackend (c : ConnId) : Proc (Option Bool) := do
  match accepted (← ask (.read c)) with
  | some m =>
    if ← ask (.sendClient m) then
      return if m.type = msgCopyDone then some true else none
    else return some false
  | none => return some false

/-- One message of the client-to-backend goroutine of `relayCopyBoth`; `some` when it ends. -/
def copyBothClient (c : ConnId) : Proc (Option Bool) := do
  match ← ask .readClient with
  | .message m =>
    if ← ask (.copyTo c m) then
      return if m.type = msgCopyDone ∨ m.type = msgCopyFail then some true else none
    else return some false
  | _ => return some false

/-- Streaming replication: both directions, interleaved by the scheduler, until both end. -/
def relayCopyBoth (c : ConnId) : Proc Bool :=
  iterate (fun ends : Option Bool × Option Bool => do
    match ends with
    | (some a, some b) => return .inr (a && b)
    | (some a, none) =>
      let b ← copyBothClient c
      return .inl (some a, b)
    | (none, some b) =>
      let a ← copyBothBackend c
      return .inl (a, some b)
    | (none, none) =>
      if ← ask .schedule then
        let a ← copyBothBackend c
        return .inl (a, none)
      else
        let b ← copyBothClient c
        return .inl (none, b)) (none, none)

def relayCopy (c : ConnId) (m : Message) : Proc Bool :=
  if m.type = msgCopyInResponse then relayCopyIn c
  else if m.type = msgCopyOutResponse then relayCopyOut c
  else if m.type = msgCopyBothResponse then relayCopyBoth c
  else return true

def relayRound (c : ConnId) (go : Message → σ) (done : Message → β) (failed : β) :
    Proc (σ ⊕ β) := do
  match accepted (← ask (.read c)) with
  | some m =>
    if ← ask (.sendClient m) then
      if m.type = msgReadyForQuery then return .inr (done m)
      else if ← relayCopy c m then return .inl (go m)
      else return .inr failed
    else return .inr failed
  | none => return .inr failed

/-- Forward backend messages to the client up to and including ReadyForQuery. -/
def relayUntilReady (c : ConnId) : Proc Bool :=
  iterate (fun _ : Unit => relayRound c (fun _ => ()) (fun _ => true) false) ()

def isCopyResponse (m : Message) : Bool :=
  m.type = msgCopyInResponse ∨ m.type = msgCopyOutResponse ∨ m.type = msgCopyBothResponse

/-- The collected bytes after one more message; `none` is that collection was given up. -/
def collect (maxSize : Int) (buf : Option Bytes) (m : Message) : Option Bytes :=
  match buf with
  | none => none
  | some buf =>
    if 0 < maxSize ∧ maxSize < (buf ++ m.raw).length then none
    else if isCopyResponse m then none
    else some (buf ++ m.raw)

/-- Relay a response and collect it for the cache; the outer `none` is an error, the inner one a
result too large or not cacheable. -/
def relayAndCollect (c : ConnId) : Proc (Option (Option Bytes)) := do
  let cfg ← ask .config
  iterate (fun buf : Option Bytes =>
    relayRound c (collect cfg.maxResultSize buf)
      (fun m => some (collect cfg.maxResultSize buf m)) none) (some [])

def forwardAll (c : ConnId) : List Message → Proc Bool
  | [] => return true
  | m :: ms => do
    if ← ask (.write c m) then forwardAll c ms else return false

def forwardAndRelay (c : ConnId) (ms : List Message) : Proc Bool := do
  if ← forwardAll c ms then relayUntilReady c else return false

/-- One message of the answer to a query of the proxy: an ErrorResponse ends the reading. -/
def drainRound (c : ConnId) (go : Message → σ) (done : Message → β) (failed : β) :
    Proc (σ ⊕ β) := do
  match accepted (← ask (.read c)) with
  | some m =>
    if m.type = msgErrorResponse then return .inr failed
    else if m.type = msgReadyForQuery then return .inr (done m)
    else return .inl (go m)
  | none => return .inr failed

def resetConn (c : ConnId) : Proc Bool := do
  let cfg ← ask .config
  if cfg.resetQuery = [] then return true
  else if ← ask (.write c (queryMessage cfg.resetQuery)) then
    iterate (fun _ : Unit => drainRound c (fun _ => ()) (fun _ => true) false) ()
  else return false

/-- Whether a call on the pool survived: on a nil pool it panics. -/
def releaseToPool (c : ConnId) (p : Option PoolId) : Proc Bool := do
  ask (.release p c)
  return p.isSome

def discardToPool (c : ConnId) (p : Option PoolId) : Proc Bool := do
  ask (.discard p c)
  return p.isSome

def resetAndReleaseToPool (c : ConnId) (p : Option PoolId) : Proc Bool := do
  if ← resetConn c then releaseToPool c p else discardToPool c p

/-- How the relay hands a writer back: with the reset query when it is dirty. -/
def handBack (dirty : Bool) (c : ConnId) (p : Option PoolId) : Proc Bool :=
  if dirty then resetAndReleaseToPool c p else releaseToPool c p

def firstColumn (m : Message) : Option Bytes :=
  match m.payload with
  | _ :: _ :: a :: b :: c :: d :: rest =>
    let len := uint32 a b c d
    if m.type = msgDataRow ∧ 0 < len ∧ len ≤ rest.length then some (rest.take len) else none
  | _ => none

/-- `strconv.ParseUint(s, 16, 32)`. -/
def parseHex32 (s : Bytes) : Option Nat :=
  if s ≠ [] ∧ s.all isHexDigit ∧ digitsValue 16 s < 2 ^ 32 then some (digitsValue 16 s) else none

/-- A log sequence number written as two hexadecimal halves. -/
def parseLSN (s : Bytes) : Option Nat :=
  match s.dropWhile (· ≠ '/'.toUInt8) with
  | [] => none
  | _ :: low => do
    let hi ← parseHex32 (s.takeWhile (· ≠ '/'.toUInt8))
    let lo ← parseHex32 low
    return hi * 2 ^ 32 + lo

/-- Send an LSN query and read its answer; the last DataRow counts. -/
def queryLSN (query : Bytes) (c : ConnId) : Proc (Option Nat) := do
  if ← ask (.write c (queryMessage query)) then
    iterate (fun lsn : Bytes =>
      drainRound c (fun m => (firstColumn m).getD lsn) (fun _ => parseLSN lsn) none) []
  else return none

def currentLSNQuery : Bytes := ascii "SELECT pg_current_wal_lsn()"

def replayLSNQuery : Bytes := ascii "SELECT pg_last_wal_replay_lsn()"

def queryCurrentLSN (c : ConnId) : Proc (Option Nat) := queryLSN currentLSNQuery c

def queryReplayLSN (c : ConnId) : Proc (Option Nat) := queryLSN replayLSNQuery c

/-- The bound connection, or a new one from the current writer pool; the flag says that it is
new. -/
def acquireWriterConn (bound : Option ConnId) : Proc (Option (ConnId × Bool)) :=
  match bound with
  | some c => return some (c, false)
  | none => do
    if ← ask .writerAllow then
      let pool ← ask .writerPool
      match ← ask (.acquire pool) with
      | some c => return some (c, true)
      | none =>
        ask (.writerRecord false)
        return none
    else return none

def trackWriteLSN (c : ConnId) (session : Session) (qtype : QueryType) (cfg : Config) :
    Proc Session := do
  if cfg.causalConsistency ∧ qtype = .write then
    match ← queryCurrentLSN c with
    | some lsn => return session.setLastWriteLSN lsn
    | none => return session
  else return session

def invalidateAll : List Bytes → Proc Unit
  | [] => return ()
  | table :: tables => do
    ask (.invalidateTable table)
    invalidateAll tables

def invalidateTables (tables : List Bytes) : Proc Unit := do
  invalidateAll tables
  if tables ≠ [] then ask (.publish tables) else return ()

/-- Invalidate the tables of a write; whether their extraction did not panic. -/
def invalidateWrite (query : Bytes) (pq : Option PgQuery.Tree) (qtype : QueryType) :
    Proc Bool := do
  if (← ask .queryCache) ∧ qtype = .write then
    match ← extractQueryTablesParsed query pq with
    | none => return false
    | some tables =>
      invalidateTables tables
      return true
  else return true

/-- Forward a query to the writer; it fails when the backend does. -/
def handleWriteQuery (c : ConnId) (msg : Message) (query : Bytes) (session : Session)
    (pq : Option PgQuery.Tree) (qtype : QueryType) (cfg : Config) : Proc (Outcome Session) := do
  if ← forwardAndRelay c [msg] then
    ask (.writerRecord true)
    let session ← trackWriteLSN c session qtype cfg
    if ← invalidateWrite query pq qtype then return .done session else return .panicked
  else
    ask (.writerRecord false)
    return .failed

/-- The writer fallback of the read paths, with or without the reset query afterwards. -/
def fallback (reset : Bool) (ms : List Message) : Proc Bool := do
  let wPool ← ask .writerPool
  match ← ask (.acquire wPool) with
  | none =>
    sendError (ascii "no available backend connections")
    return false
  | some c =>
    let addr ← ask .writerAddr
    ask (.setCancel addr c)
    let ok ← forwardAndRelay c ms
    ask .clearCancel
    if ok then
      let _ ← handBack reset c (some wPool)
      return true
    else
      let _ ← discardToPool c (some wPool)
      return false

def fallbackToWriter (msg : Message) : Proc Bool := fallback false [msg]

def failReader (addr : Addr) (counts : Bool) : Proc Unit := do
  if counts then ask (.readerRecord addr false) else pure ()
  ask (.markUnhealthy addr)

/-- Serve the messages on an acquired reader: `relay` reads the response, `store` caches it unless
it panics, and `breakOnSend` says whether a failed send counts for the breaker. -/
def serveReader (addr : Addr) (rPool : PoolId) (c : ConnId) (ms : List Message)
    (breakOnSend : Bool) (relay : ConnId → Proc (Option (Option Bytes)))
    (store : Option Bytes → Proc Bool) (fallback : Proc Bool) : Proc Bool := do
  ask (.setCancel addr c)
  if ← forwardAll c ms then
    let collected ← relay c
    ask .clearCancel
    match collected with
    | none =>
      let _ ← discardToPool c (some rPool)
      failReader addr true
      return false
    | some data =>
      let _ ← releaseToPool c (some rPool)
      if ← store data then
        ask (.readerRecord addr true)
        return true
      else return false
  else
    ask .clearCancel
    let _ ← discardToPool c (some rPool)
    failReader addr breakOnSend
    fallback

def readOn (readerAddr : Option Addr) (ms : List Message) (breakOnSend : Bool)
    (relay : ConnId → Proc (Option (Option Bytes))) (store : Option Bytes → Proc Bool)
    (fallback : Proc Bool) : Proc Bool :=
  match readerAddr with
  | none => fallback
  | some addr => do
    if ← ask (.readerAllow addr) then
      match ← ask (.readerPool addr) with
      | none => fallback
      | some rPool =>
        match ← ask (.acquire rPool) with
        | none =>
          failReader addr true
          fallback
        | some c => serveReader addr rPool c ms breakOnSend relay store fallback
    else fallback

def relayOnly (c : ConnId) : Proc (Option (Option Bytes)) := do
  if ← relayUntilReady c then return some none else return none

def relayCached (c : ConnId) : Proc (Option (Option Bytes)) := do
  if ← ask .queryCache then relayAndCollect c else relayOnly c

def lookupRead (query : Bytes) (pq : Option PgQuery.Tree) (dbName : Bytes) :
    Proc (Option Bytes) := do
  if ← ask .queryCache then
    let key ← cacheKeyParsed query pq dbName
    ask (.cacheGet key)
  else return none

/-- Store a response with the tables of its query; `none` is a panic of their extraction. -/
def storeTables (key : UInt64) (data : Bytes) : Option (List Bytes) → Proc Bool
  | none => return false
  | some tables => do
    ask (.cacheSet key data tables)
    return true

def storeRead (query : Bytes) (pq : Option PgQuery.Tree) (dbName : Bytes) :
    Option Bytes → Proc Bool
  | none => return true
  | some data => do
    let key ← cacheKeyParsed query pq dbName
    let tables ← extractReadQueryTablesParsed query pq
    storeTables key data tables

def handleReadQueryTraced (msg : Message) (query : Bytes) (session : Session)
    (pq : Option PgQuery.Tree) (cfg : Config) (dbName : Bytes) : Proc Bool := do
  match ← lookupRead query pq dbName with
  | some data => ask (.sendCached data)
  | none =>
    let addr ← ask (.nextReader (if cfg.causalConsistency then some session.lastWriteLSN else none))
    readOn addr [msg] false relayCached (storeRead query pq dbName) (fallbackToWriter msg)

def hasPlaceholder : Bytes → Bool
  | c :: d :: s =>
    (c == '$'.toUInt8 && isDigit d && d != '0'.toUInt8) || hasPlaceholder (d :: s)
  | _ => false

def hasParameterPlaceholders (buf : List Message) : Bool :=
  buf.any fun m => m.type = msgParse && hasPlaceholder (parseParseMessage m.payload).2

/-- The row limit of an Execute payload, 0 where it is missing. -/
def maxRows (payload : Bytes) : Nat :=
  match cString payload with
  | some (_, a :: b :: c :: d :: _) => uint32 a b c d
  | _ => 0

def hasBinaryFormatOrPartialFetch (buf : List Message) : Bool :=
  buf.any fun m =>
    (m.type = msgBind &&
      (parseBindMessageFull m.payload).all fun d => d.resultFormatCodes.any (· ≠ 0)) ||
    (m.type = msgExecute && maxRows m.payload ≠ 0)

def batchCacheText (buf : List Message) : Option Bytes :=
  match buf with
  | [] => none
  | m :: _ =>
    if !hasParameterPlaceholders buf && !hasBinaryFormatOrPartialFetch buf &&
        m.type == msgParse then
      some (parseParseMessage m.payload).2
    else none

def nsExtended : UInt64 := 0x5a5a5a5a5a5a5a5a

def lookupBatch (buf : List Message) (dbName : Bytes) : Proc (Option Bytes) :=
  match batchCacheText buf with
  | none => return none
  | some query => do
    if ← ask .queryCache then
      let key ← cacheKey query dbName
      ask (.cacheGet (key ^^^ nsExtended))
    else return none

def storeBatch (buf : List Message) (dbName : Bytes) (data : Option Bytes) : Proc Bool :=
  match data, batchCacheText buf with
  | some data, some query => do
    let key ← cacheKey query dbName
    let tables ← extractReadQueryTables query
    storeTables (key ^^^ nsExtended) data tables
  | _, _ => return true

def handleExtendedRead (buf : List Message) (syncMsg : Message) (readerAddr : Option Addr)
    (dbName : Bytes) : Proc Bool := do
  match ← lookupBatch buf dbName with
  | some data => ask (.sendCached data)
  | none =>
    readOn readerAddr (buf ++ [syncMsg]) true relayCached (storeBatch buf dbName)
      (fallback true (buf ++ [syncMsg]))

def handleSynthesizedRead (query : Bytes) (readerAddr : Option Addr) : Proc Bool :=
  readOn readerAddr [queryMessage query] true relayOnly (fun _ => return true)
    (fallback true [queryMessage query])

end Backend

end Pgmux
