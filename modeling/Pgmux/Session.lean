import Mathlib.Data.List.AList
import Pgmux.SessionCompat

namespace Pgmux

inductive Route where
  | writer
  | reader
  deriving DecidableEq

structure FirewallConfig where
  enabled : Bool
  blockDeleteWithoutWhere : Bool
  blockUpdateWithoutWhere : Bool
  blockDropTable : Bool
  blockTruncate : Bool
  deriving DecidableEq

/-- pg_query and the functions of the router over its parse trees. -/
class PgQuery where
  Tree : Type
  parse : Bytes → Option Tree
  deparse : Tree → Option Bytes
  scanComments : Bytes → Option (List Bytes)
  classifyTree : Tree → QueryType
  /-- The message of the first rule that blocks the statements of the tree. -/
  checkFirewallTree : Tree → FirewallConfig → Option Bytes
  /-- The first feature that `detectNodeDependency` finds in a statement of the tree. -/
  treeDependency : Tree → Option SessionFeature

section Case

variable [CaseTable] [PgQuery]

/-- The hint of the first C comment that the pg_query scanner finds. -/
def extractHintAST (query : Bytes) : Option Hint :=
  match PgQuery.scanComments query with
  | none => extractHint query
  | some comments => comments.findSome? findHint

def classifyAST (query : Bytes) : QueryType :=
  match extractHintAST query with
  | some hint => hintType hint
  | none =>
    match PgQuery.parse query with
    | none => classify query
    | some tree => PgQuery.classifyTree tree

def classifyASTWithTree (query : Bytes) (tree : PgQuery.Tree) : QueryType :=
  match extractHintAST query with
  | some hint => hintType hint
  | none => PgQuery.classifyTree tree

def checkFirewall (query : Bytes) (cfg : FirewallConfig) : Option Bytes :=
  if !cfg.enabled then none
  else match PgQuery.parse query with
    | none => none
    | some tree => PgQuery.checkFirewallTree tree cfg

def checkFirewallWithTree (tree : PgQuery.Tree) (cfg : FirewallConfig) : Option Bytes :=
  if !cfg.enabled then none else PgQuery.checkFirewallTree tree cfg

def detectSessionDependencyAST (tree : PgQuery.Tree) (query : Bytes) : Option SessionFeature :=
  match PgQuery.treeDependency tree with
  | some feature => some feature
  | none => if containsSessionAdvisoryLock query then some .advisoryLock else none

/-- The per-client routing state. Times are nanoseconds; `none` is the zero time. -/
structure Session where
  inTransaction : Bool
  lastWriteTime : Option Nat
  readAfterWriteDelay : Int
  causalConsistency : Bool
  lastWriteLSN : Nat
  astParser : Bool
  stmtRoutes : AList fun _ : Bytes => Route
  stmtWrite : AList fun _ : Bytes => Bool
  pinned : Bool
  pinnedReason : Bytes

def Session.new (readAfterWriteDelay : Int) (causalConsistency astParser : Bool) : Session where
  inTransaction := false
  lastWriteTime := none
  readAfterWriteDelay := readAfterWriteDelay
  causalConsistency := causalConsistency
  lastWriteLSN := 0
  astParser := astParser
  stmtRoutes := ∅
  stmtWrite := ∅
  pinned := false
  pinnedReason := []

def txStarts (stmt : Bytes) : Bool :=
  let upper := toUpper (trimSpace (stripComments stmt))
  hasPrefix upper (ascii "BEGIN") || hasPrefix upper (ascii "START TRANSACTION")

def txEnds (stmt : Bytes) : Bool :=
  let upper := toUpper (trimSpace (stripComments stmt))
  hasPrefix upper (ascii "COMMIT") || hasPrefix upper (ascii "ROLLBACK") ||
    hasPrefix upper (ascii "END") || hasPrefix upper (ascii "ABORT")

def txAfter (inTx : Bool) (stmt : Bytes) : Bool :=
  if txEnds stmt then false else if txStarts stmt then true else inTx

def updateTransactionState (inTx : Bool) (query : Bytes) : Bool :=
  (splitStatements query).foldl txAfter inTx

def containsTransactionKeyword (query : Bytes) : Bool :=
  (splitStatements query).any fun stmt => txStarts stmt || txEnds stmt

omit [PgQuery] in
theorem updateTransactionState_unchanged (h : containsTransactionKeyword query = false)
    (b : Bool) : updateTransactionState b query = b := by
  unfold containsTransactionKeyword at h
  unfold updateTransactionState
  have hfold (stmts : List Bytes)
      (hs : stmts.any (fun stmt => txStarts stmt || txEnds stmt) = false) :
      stmts.foldl txAfter b = b := by
    induction stmts with
    | nil => rfl
    | cons stmt stmts ih =>
      simp only [List.any_cons, Bool.or_eq_false_iff] at hs
      rw [List.foldl_cons, txAfter, hs.1.1, hs.1.2]
      exact ih hs.2
  exact hfold _ h

/-- The transaction flag after `routeQueryLocked`, by prefix or by the scan of all statements. -/
def routedTx (inTx : Bool) (query : Bytes) : Bool :=
  if isSingleStatement query then
    match hasTxPrefix query with
    | .start => true
    | .finish => false
    | .none => inTx
  else updateTransactionState inTx query

def classifyBy (ast : Bool) (query : Bytes) : QueryType :=
  if ast then classifyAST query else classify query

def Session.classify (s : Session) (query : Bytes) : QueryType := classifyBy s.astParser query

def Session.inWriteWindow (s : Session) (now : Nat) : Bool :=
  decide (0 < s.readAfterWriteDelay) &&
    s.lastWriteTime.any fun t => decide ((now : Int) - t < s.readAfterWriteDelay)

/-- What `routeQueryLocked` does once no transaction is involved. -/
def Session.routeByType (s : Session) (now : Nat) (query : Bytes) : Route × Session :=
  match s.classify query with
  | .write =>
    (.writer, if s.causalConsistency then s else { s with lastWriteTime := some now })
  | .read =>
    if s.causalConsistency then (.reader, s)
    else if s.inWriteWindow now then (.writer, s)
    else (.reader, s)

def Session.routeQueryLocked (s : Session) (now : Nat) (query : Bytes) : Route × Session :=
  let s' := { s with inTransaction := routedTx s.inTransaction query }
  if isSingleStatement query then
    if s.pinned || hasTxPrefix query ≠ .none || s'.inTransaction then (.writer, s')
    else s'.routeByType now query
  else if s.pinned || s.inTransaction || s'.inTransaction || containsTransactionKeyword query then
    (.writer, s')
  else s'.routeByType now query

theorem routeByType_inTransaction (s : Session) (now : Nat) (query : Bytes) :
    (s.routeByType now query).2.inTransaction = s.inTransaction := by
  unfold Session.routeByType
  split
  · dsimp only
    split <;> rfl
  · split
    · rfl
    · split <;> rfl

theorem routeQueryLocked_inTransaction (s : Session) (now : Nat) (query : Bytes) :
    (s.routeQueryLocked now query).2.inTransaction = routedTx s.inTransaction query := by
  unfold Session.routeQueryLocked
  dsimp only
  split
  · split
    · rfl
    · exact routeByType_inTransaction _ now query
  · split
    · rfl
    · exact routeByType_inTransaction _ now query

theorem routeByType_reader {s : Session} (h : (s.routeByType now query).1 = .reader) :
    s.classify query = .read := by
  unfold Session.routeByType at h
  cases hc : s.classify query with
  | read => rfl
  | write => simp [hc] at h

theorem routeQueryLocked_reader {s : Session} (h : (s.routeQueryLocked now query).1 = .reader) :
    s.classify query = .read := by
  unfold Session.routeQueryLocked at h
  dsimp only at h
  split at h
  · split at h
    · cases h
    · have hr := routeByType_reader h
      exact hr
  · split at h
    · cases h
    · have hr := routeByType_reader h
      exact hr

theorem routeQueryLocked_pinned {s : Session} (h : s.pinned) :
    (s.routeQueryLocked now query).1 = .writer := by
  unfold Session.routeQueryLocked
  dsimp only
  split <;> simp [h]

/-- The route and the transaction flag before and after. -/
def Session.routeWithTxState (s : Session) (now : Nat) (query : Bytes) :
    Route × Bool × Bool × Session :=
  let r := s.routeQueryLocked now query
  (r.1, s.inTransaction, r.2.inTransaction, r.2)

/-- The route of a prepared statement; END and ABORT are not among its keywords. -/
def Session.routeLocked (s : Session) (now : Nat) (query : Bytes) : Route :=
  let upper := toUpper (trimSpace (stripComments query))
  if hasPrefix upper (ascii "BEGIN") || hasPrefix upper (ascii "START TRANSACTION") ||
      hasPrefix upper (ascii "COMMIT") || hasPrefix upper (ascii "ROLLBACK") then .writer
  else if s.pinned || s.inTransaction then .writer
  else match s.classify query with
    | .write => .writer
    | .read =>
      if s.causalConsistency then .reader else if s.inWriteWindow now then .writer else .reader

def Session.registerStatement (s : Session) (now : Nat) (name query : Bytes) : Route × Session :=
  let route := s.routeLocked now query
  (route, { s with
    stmtRoutes := s.stmtRoutes.insert name route
    stmtWrite := s.stmtWrite.insert name (s.classify query = .write) })

end Case

def Session.statementRoute (s : Session) (name : Bytes) : Route :=
  (s.stmtRoutes.lookup name).getD .writer

def Session.statementIsWrite (s : Session) (name : Bytes) : Bool :=
  (s.stmtWrite.lookup name).getD true

def Session.closeStatement (s : Session) (name : Bytes) : Session :=
  { s with stmtRoutes := s.stmtRoutes.erase name, stmtWrite := s.stmtWrite.erase name }

def Session.pin (s : Session) (reason : Bytes) : Session :=
  if s.pinned then s else { s with pinned := true, pinnedReason := reason }

theorem pin_pinned (s : Session) (reason : Bytes) : (s.pin reason).pinned = true := by
  unfold Session.pin
  split
  · assumption
  · rfl

def Session.setInTransaction (s : Session) (v : Bool) : Session := { s with inTransaction := v }

def Session.setLastWriteLSN (s : Session) (lsn : Nat) : Session := { s with lastWriteLSN := lsn }

end Pgmux
