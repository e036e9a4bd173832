import Pgmux.Classify

namespace Pgmux

def isBlank (c : UInt8) : Bool := c == 32 || c == 9

/-- A session-scoped SET: not SET LOCAL, SET TRANSACTION or SET CONSTRAINTS. -/
def isSessionSet (rest : Bytes) : Bool :=
  eqFold rest (ascii "SET") && (rest.drop 3).head?.any isBlank &&
    let arg := (rest.drop 4).dropWhile isBlank
    !(eqFold arg (ascii "LOCAL") && (arg.drop 5).head?.any isBlank) &&
      !(eqFold arg (ascii "TRANSACTION") && decide (11 < arg.length)) &&
      !(eqFold arg (ascii "CONSTRAINTS") && decide (11 < arg.length))

def isCreateTemp (rest : Bytes) : Bool :=
  eqFold rest (ascii "CREATE") && eqFold ((rest.drop 6).dropWhile isBlank) (ascii "TEMP")

/-- Whether a statement changes session state that needs the reset query to clean up. -/
def isSessionModifying (query : Bytes) : Bool :=
  let rest := skipLeadingNoise query
  isSessionSet rest || keyword (ascii "PREPARE") isBlank rest ||
    keyword (ascii "DECLARE") isBlank rest || keyword (ascii "DEALLOCATE") isBlank rest ||
    keyword (ascii "LISTEN") isBlank rest || keyword (ascii "LOAD") isBlank rest ||
    keyword (ascii "UNLISTEN") isBlank rest || isCreateTemp rest

inductive SessionFeature where
  | listen
  | unlisten
  | sessionSet
  | declareCursor
  | prepare
  | createTemp
  | advisoryLock
  deriving DecidableEq

def SessionFeature.name : SessionFeature → Bytes
  | .listen => ascii "listen"
  | .unlisten => ascii "unlisten"
  | .sessionSet => ascii "session_set"
  | .declareCursor => ascii "declare_cursor"
  | .prepare => ascii "prepare"
  | .createTemp => ascii "create_temp"
  | .advisoryLock => ascii "advisory_lock"

def detectSingleStmtDependency (query : Bytes) : Option SessionFeature :=
  let rest := skipLeadingNoise query
  if keyword (ascii "LISTEN") isBlank rest then some .listen
  else if keyword (ascii "UNLISTEN") (fun c => isBlank c || c == ';'.toUInt8) rest then
    some .unlisten
  else if isSessionSet rest then some .sessionSet
  else if keyword (ascii "DECLARE") isBlank rest then some .declareCursor
  else if keyword (ascii "PREPARE") isBlank rest then some .prepare
  else if isCreateTemp rest then some .createTemp
  else none

section Case

variable [CaseTable]

/-- Session-scoped advisory locks; the transaction-scoped names hold no `advisory_lock`. -/
def containsSessionAdvisoryLock (query : Bytes) : Bool :=
  contains (toLower query) (ascii "advisory") &&
    let cleaned := toLower (stripComments (stripStringLiterals query))
    contains cleaned (ascii "advisory_lock") || contains cleaned (ascii "advisory_unlock")

def detectSessionDependency (query : Bytes) : Option SessionFeature :=
  match detectSingleStmtDependency query with
  | some feature => some feature
  | none =>
    if containsSessionAdvisoryLock query then some .advisoryLock
    else if !isSingleStatement query then
      (splitStatements query).findSome? detectSingleStmtDependency
    else none

end Case

end Pgmux
