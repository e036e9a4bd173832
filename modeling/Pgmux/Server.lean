import Pgmux.Interaction
import Pgmux.Message
import Pgmux.RowDecoding
import Pgmux.Session
import Pgmux.Synthesizer
import Pgmux.Tables

namespace Pgmux

open Interaction

inductive CompatMode where
  | block
  | warn
  | pin
  | allow
  deriving DecidableEq

/-- The settings that the relay and the Data API read. Loading a configuration fills in an empty
reset query. -/
structure Config where
  multiplex : Bool
  resetQuery : Bytes
  astParser : Bool
  causalConsistency : Bool
  firewall : FirewallConfig
  sessionCompat : Bool
  compatMode : CompatMode
  maxResultSize : Int
  apiKeys : List Bytes
  resetQuery_ne : resetQuery ≠ []

/-- What the relay takes from other parts of the system: pg_query with the table names of its
trees, the rewrite rules and the Go runtime. -/
class External extends CaseTable, FloatFormat, PgQuery, Scanf where
  Rules : Type
  /-- `Rewriter.Apply`: the rewritten text, when a rule changed the query. -/
  applyRules : Rules → Bytes → Option Bytes
  extractTablesTree : Tree → List Bytes
  extractReadTablesTree : Tree → List Bytes
  /-- The JSON document of a response in the Data API. -/
  responseJSON : List Message → Bytes
  /-- The verb `%q` of `fmt`. -/
  quoted : Bytes → Bytes

abbrev Addr := Bytes

abbrev PoolId := Nat

abbrev ConnId := Nat

inductive RateScope where
  | all
  | user
  | ip
  deriving DecidableEq

/-- What `ReadMessageReuse` on the client's connection gives; `closed` is the end of the stream or
a message that it refuses. -/
inductive ClientRead where
  | message (m : Message)
  | timeout
  | closed

/-- The operations of the proxy on everything outside its local variables. Breakers and rate
limiters that are not configured allow everything and record nothing; `copyTo` forwards a
message of a COPY stream; a nil pool is `none`. -/
inductive Op where
  | ctxDone
  | readClient
  | sendClient (m : Message)
  | sendCached (data : Bytes)
  | schedule
  | config
  | inMaintenance
  | inReadOnly
  | allow (scope : RateScope)
  | now
  | rewriter
  | writerAddr
  | writerPool
  | writerAllow
  | writerRecord (ok : Bool)
  | nextReader (minLSN : Option Nat)
  | readerAllow (addr : Addr)
  | readerRecord (addr : Addr) (ok : Bool)
  | readerPool (addr : Addr)
  | markUnhealthy (addr : Addr)
  | acquire (pool : PoolId)
  | release (pool : Option PoolId) (conn : ConnId)
  | discard (pool : Option PoolId) (conn : ConnId)
  | write (conn : ConnId) (m : Message)
  | copyTo (conn : ConnId) (m : Message)
  | read (conn : ConnId)
  | setCancel (addr : Addr) (conn : ConnId)
  | clearCancel
  | queryCache
  | cacheGet (key : UInt64)
  | cacheSet (key : UInt64) (data : Bytes) (tables : List Bytes)
  | invalidateTable (table : Bytes)
  | publish (tables : List Bytes)
  | backends
  | setReplayLSN (addr : Addr) (lsn : Nat)
  | defaultDB
  | knownDB (name : Bytes)
  deriving DecidableEq

/-- The message that a backend sent, unless it is above the limit of `ReadMessage` and
`relayUntilReady`. -/
def accepted (answer : Option Message) : Option Message :=
  answer.filter fun m => m.payload.length ≤ maxMessageSize

theorem accepted_eq_some {x : Option Message} :
    accepted x = some m ↔ x = some m ∧ m.payload.length ≤ maxMessageSize := by
  simp [accepted, Option.filter_eq_some_iff]

theorem accepted_cases (x : Option Message) :
    accepted x = none ∨ ∃ m, x = some m ∧ accepted (some m) = some m := by
  cases hx : accepted x with
  | none => exact .inl rfl
  | some m =>
    obtain ⟨rfl, -⟩ := accepted_eq_some.mp hx
    exact .inr ⟨m, rfl, hx⟩

section Ops

variable [External]

/-- The answers of the operations; writes answer whether they succeeded, `none` is a failure. -/
abbrev Ans : Op → Type
  | .ctxDone => Bool
  | .readClient => ClientRead
  | .sendClient _ => Bool
  | .sendCached _ => Bool
  | .schedule => Bool
  | .config => Config
  | .inMaintenance => Bool
  | .inReadOnly => Bool
  | .allow _ => Bool
  | .now => Nat
  | .rewriter => Option External.Rules
  | .writerAddr => Addr
  | .writerPool => PoolId
  | .writerAllow => Bool
  | .writerRecord _ => Unit
  | .nextReader _ => Option Addr
  | .readerAllow _ => Bool
  | .readerRecord _ _ => Unit
  | .readerPool _ => Option PoolId
  | .markUnhealthy _ => Unit
  | .acquire _ => Option ConnId
  | .release _ _ => Unit
  | .discard _ _ => Unit
  | .write _ _ => Bool
  | .copyTo _ _ => Bool
  | .read _ => Option Message
  | .setCancel _ _ => Unit
  | .clearCancel => Unit
  | .queryCache => Bool
  | .cacheGet _ => Option Bytes
  | .cacheSet _ _ _ => Unit
  | .invalidateTable _ => Unit
  | .publish _ => Unit
  | .backends => List Addr
  | .setReplayLSN _ _ => Unit
  | .defaultDB => Bytes
  | .knownDB _ => Bool

abbrev Proc : Type → Type 1 := Prog Ans

abbrev Event := Sigma Ans

/-- How a call ends that can fail and can panic. -/
inductive Outcome (α : Type) where
  | done (a : α)
  | failed
  | panicked

abbrev ask (o : Op) : Proc (Ans o) := perform o

def errorPayload (severity : Bytes) (code : Option Bytes) (text : Bytes) : Bytes :=
  'S'.toUInt8 :: severity ++ [0] ++
    (code.elim [] fun c => 'C'.toUInt8 :: c ++ [0]) ++ 'M'.toUInt8 :: text ++ [0, 0]

def sendError (text : Bytes) : Proc Unit := do
  let _ ← ask (.sendClient ⟨msgErrorResponse, errorPayload (ascii "ERROR") none text⟩)
  return ()

def sendFatalWithCode (code text : Bytes) : Proc Unit := do
  let _ ← ask
    (.sendClient ⟨msgErrorResponse, errorPayload (ascii "FATAL") (some code) text⟩)
  return ()

def sendReadyForQuery (inTransaction : Bool) : Proc Unit := do
  let status := if inTransaction then 'T' else 'I'
  let _ ← ask (.sendClient ⟨msgReadyForQuery, [status.toUInt8]⟩)
  return ()

def reject (text : Bytes) : Proc Unit := do
  sendError text
  sendReadyForQuery false

def classifyQuery (query : Bytes) : Proc QueryType := do
  let cfg ← ask .config
  return classifyBy cfg.astParser query

def classifyQueryParsed (query : Bytes) (pq : Option PgQuery.Tree) : Proc QueryType := do
  let cfg ← ask .config
  match cfg.astParser, pq with
  | true, some tree => return classifyASTWithTree query tree
  | _, _ => classifyQuery query

def fnv64a (s : Bytes) : UInt64 :=
  s.foldl (fun h c => (h ^^^ c.toUInt64) * 1099511628211) 14695981039346656037

def semanticCacheKeyWithTree (tree : PgQuery.Tree) (query : Bytes) : UInt64 :=
  fnv64a ((PgQuery.deparse tree).getD query)

def semanticCacheKey (query : Bytes) : UInt64 :=
  match PgQuery.parse query with
  | none => fnv64a query
  | some tree => semanticCacheKeyWithTree tree query

def mixDBName (key : UInt64) (dbName : Bytes) : UInt64 :=
  if dbName = [] then key else key ^^^ fnv64a dbName

def cacheKey (query dbName : Bytes) : Proc UInt64 := do
  let cfg ← ask .config
  return mixDBName (if cfg.astParser then semanticCacheKey query else fnv64a query) dbName

def cacheKeyParsed (query : Bytes) (pq : Option PgQuery.Tree) (dbName : Bytes) :
    Proc UInt64 := do
  let cfg ← ask .config
  match cfg.astParser, pq with
  | true, some tree => return mixDBName (semanticCacheKeyWithTree tree query) dbName
  | _, _ => cacheKey query dbName

/-- The tables that a query writes; `none` is a panic of `ExtractTables`. -/
def writeTables (ast : Bool) (query : Bytes) : Option (List Bytes) :=
  match ast, PgQuery.parse query with
  | true, some tree => some (External.extractTablesTree tree)
  | _, _ => (extractTables query).run

/-- The tables that a query reads; `none` is a panic of `ExtractReadTables`. -/
def readTables (ast : Bool) (query : Bytes) : Option (List Bytes) :=
  match ast, PgQuery.parse query with
  | true, some tree => some (External.extractReadTablesTree tree)
  | _, _ => (extractReadTables query).run

def extractQueryTablesParsed (query : Bytes) (pq : Option PgQuery.Tree) :
    Proc (Option (List Bytes)) := do
  let cfg ← ask .config
  match cfg.astParser, pq with
  | true, some tree => return some (External.extractTablesTree tree)
  | _, _ =>
    let cfg ← ask .config
    return writeTables cfg.astParser query

def extractReadQueryTables (query : Bytes) : Proc (Option (List Bytes)) := do
  let cfg ← ask .config
  return readTables cfg.astParser query

def extractReadQueryTablesParsed (query : Bytes) (pq : Option PgQuery.Tree) :
    Proc (Option (List Bytes)) := do
  let cfg ← ask .config
  match cfg.astParser, pq with
  | true, some tree => return some (External.extractReadTablesTree tree)
  | _, _ => extractReadQueryTables query

end Ops

end Pgmux
