import Pgmux.Relay

namespace Pgmux

open Interaction

section DataApi

variable [External]

/-- Poll the replay LSN of one reader; a connection whose query fails is discarded. -/
def pollReader (addr : Addr) : Proc Unit := do
  match ← ask (.readerPool addr) with
  | none => return ()
  | some rPool =>
    match ← ask (.acquire rPool) with
    | none => return ()
    | some c =>
      match ← queryReplayLSN c with
      | none =>
        let _ ← discardToPool c (some rPool)
        return ()
      | some lsn =>
        let _ ← releaseToPool c (some rPool)
        ask (.setReplayLSN addr lsn)

def pollAll : List Addr → Proc Unit
  | [] => return ()
  | addr :: addrs => do
    pollReader addr
    pollAll addrs

def pollReaderLSNsForGroup : Proc Unit := do
  let addrs ← ask .backends
  pollAll addrs

/-- A request to the Data API. The token is empty when there is no bearer token, the text is
`none` when the body does not decode. -/
structure QueryRequest where
  post : Bool
  token : Bytes
  sql : Option Bytes
  database : Bytes

/-- The response: an error with its status, the messages of the result, fresh or cached, or none
because the handler panicked. -/
inductive QueryResponse where
  | error (status : Nat) (text : Bytes)
  | aborted
  | result (ms : List Message)
  | cached (json : Bytes)

def drainUntilReady (c : ConnId) : Proc Bool :=
  iterate (fun _ : Unit => do
    match accepted (← ask (.read c)) with
    | some m => return if m.type = msgReadyForQuery then .inr true else .inl ()
    | none => return .inr false) ()

def copyFailMessage : Message := ⟨msgCopyFail, ascii "COPY not supported via Data API" ++ [0]⟩

/-- The response so far: the columns of its last RowDescription, and its messages. -/
structure Received where
  columns : List ColumnInfo
  messages : List Message

/-- Decode a message of a result; `none` is a panic. -/
def Received.add (r : Received) (m : Message) : Option Received :=
  if m.type = msgRowDescription then
    (Sliced.parseRowDescription m.payload).toOption.map fun columns =>
      ⟨columns.getD [], r.messages ++ [m]⟩
  else if m.type = msgDataRow then
    (Sliced.parseDataRow m.payload r.columns).toOption.map fun _ =>
      { r with messages := r.messages ++ [m] }
  else some { r with messages := r.messages ++ [m] }

/-- Read the response to a query; after an error the response is drained. -/
def readResponse (c : ConnId) : Proc (Outcome (List Message)) :=
  iterate (fun r : Received => do
    match accepted (← ask (.read c)) with
    | none => return .inr .failed
    | some m =>
      if m.type = msgErrorResponse then
        let _ ← drainUntilReady c
        return .inr .failed
      else if m.type = msgReadyForQuery then return .inr (.done r.messages)
      else if isCopyResponse m then
        let _ ← ask (.copyTo c copyFailMessage)
        let _ ← drainUntilReady c
        return .inr .failed
      else match r.add m with
        | none => return .inr .panicked
        | some r => return .inl r) ⟨[], []⟩

def executeQuery (c : ConnId) (sql : Bytes) : Proc (Outcome (List Message)) := do
  if sql = [] then readResponse c
  else if ← ask (.write c (queryMessage sql)) then readResponse c
  else return .failed

/-- Reset the connection and release it, unless the request was cancelled meanwhile. -/
def resetAndReturn (c : ConnId) (p : PoolId) (ms : List Message) :
    Proc (Outcome (List Message)) := do
  let cfg ← ask .config
  if ← ask (.write c (queryMessage cfg.resetQuery)) then
    let drained ← drainUntilReady c
    if ← ask .ctxDone then
      let _ ← discardToPool c (some p)
      return .failed
    else if drained then
      let _ ← releaseToPool c (some p)
      return .done ms
    else
      let _ ← discardToPool c (some p)
      return .done ms
  else
    let _ ← discardToPool c (some p)
    return .done ms

/-- Execute a query on a connection of the pool; a panic leaves the connection where it is. -/
def executeOnPool (sql : Bytes) (p : PoolId) : Proc (Outcome (List Message)) := do
  match ← ask (.acquire p) with
  | none => return .failed
  | some c =>
    match ← executeQuery c sql with
    | .panicked => return .panicked
    | .failed =>
      -- the connection is discarded whether or not the request was cancelled
      let _ ← ask .ctxDone
      let _ ← discardToPool c (some p)
      return .failed
    | .done ms =>
      if ← ask .ctxDone then
        let _ ← discardToPool c (some p)
        return .failed
      else resetAndReturn c p ms

def nsDataAPI : UInt64 := 0xa5a5a5a5a5a5a5a5

def lookupResponse (sql : Bytes) (pq : Option PgQuery.Tree) (dbName : Bytes) :
    Proc (Option Bytes) := do
  if ← ask .queryCache then
    let key ← cacheKeyParsed sql pq dbName
    ask (.cacheGet (key ^^^ nsDataAPI))
  else return none

def storeResponse (sql : Bytes) (pq : Option PgQuery.Tree) (dbName : Bytes) (ms : List Message) :
    Proc Bool := do
  if ← ask .queryCache then
    let key ← cacheKeyParsed sql pq dbName
    let tables ← extractReadQueryTablesParsed sql pq
    storeTables (key ^^^ nsDataAPI) (External.responseJSON ms) tables
  else return true

def executeOnReader (sql : Bytes) (pq : Option PgQuery.Tree) (writerPool : PoolId)
    (dbName : Bytes) (addr : Addr) : Proc (Outcome (List Message)) := do
  match ← ask (.readerPool addr) with
  | none => executeOnPool sql writerPool
  | some rPool =>
    match ← executeOnPool sql rPool with
    | .panicked => return .panicked
    | .failed =>
      ask (.markUnhealthy addr)
      executeOnPool sql writerPool
    | .done ms =>
      if ← storeResponse sql pq dbName ms then return .done ms else return .panicked

def Outcome.map (f : α → β) : Outcome α → Outcome β
  | .done a => .done (f a)
  | .failed => .failed
  | .panicked => .panicked

def executeRead (sql : Bytes) (pq : Option PgQuery.Tree) (writerPool : PoolId)
    (dbName : Bytes) : Proc (Outcome QueryResponse) := do
  match ← lookupResponse sql pq dbName with
  | some json => return .done (.cached json)
  | none =>
    match ← ask (.nextReader none) with
    | none => return (← executeOnPool sql writerPool).map .result
    | some addr => return (← executeOnReader sql pq writerPool dbName addr).map .result

def executeWrite (sql : Bytes) (pq : Option PgQuery.Tree) (writerPool : PoolId) :
    Proc (Outcome QueryResponse) := do
  match ← executeOnPool sql writerPool with
  | .done ms =>
    if ← invalidateWrite sql pq .write then return .done (.result ms) else return .panicked
  | .failed => return .failed
  | .panicked => return .panicked

def containsCopyStatement (query : Bytes) : Bool :=
  (splitStatements query).any fun stmt => firstKeyword stmt = ascii "COPY"

def Outcome.reply : Outcome QueryResponse → QueryResponse
  | .done r => r
  | .failed => .error 500 (ascii "query execution failed")
  | .panicked => .aborted

/-- The part of `handleQuery` that follows the checks of the request. -/
def querySQL (dbName sql : Bytes) : Proc QueryResponse := do
  let cfg ← ask .config
  if containsCopyStatement sql then
    return .error 400 (ascii "COPY is not supported via Data API")
  else
    let pq := if cfg.astParser then PgQuery.parse sql else none
    match firewallCheck cfg sql pq with
    | some text => return .error 403 text
    | none =>
      let qtype ← classifyQueryParsed sql pq
      let writerPool ← ask .writerPool
      let response ← match qtype with
        | .write => executeWrite sql pq writerPool
        | .read => executeRead sql pq writerPool dbName
      return response.reply

def authorized (apiKeys : List Bytes) (token : Bytes) : Bool :=
  apiKeys = [] || (token ≠ [] && apiKeys.contains token)

def resolveDB (database : Bytes) : Proc Bytes :=
  if database = [] then ask .defaultDB else return database

/-- A query of the Data API. There is no read-only check on its way. -/
def handleApiQuery (req : QueryRequest) : Proc QueryResponse := do
  if !req.post then return .error 405 (ascii "method not allowed")
  else
    let cfg ← ask .config
    if !authorized cfg.apiKeys req.token then return .error 401 (ascii "unauthorized")
    else if ← ask (.allow .all) then
      match req.sql with
      | none => return .error 400 (ascii "invalid request body")
      | some sql =>
        if sql = [] then return .error 400 (ascii "sql is required")
        else
          let dbName ← resolveDB req.database
          if ← ask (.knownDB dbName) then querySQL dbName sql
          else return .error 400 (ascii "unknown database " ++ External.quoted dbName)
    else return .error 429 (ascii "too many requests")

end DataApi

end Pgmux
