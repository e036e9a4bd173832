import Pgmux.Scan

namespace Pgmux

inductive QueryType where
  | read
  | write
  deriving DecidableEq

def writeKeywords : List Bytes :=
  ["INSERT", "UPDATE", "DELETE", "CREATE", "ALTER", "DROP", "TRUNCATE", "GRANT", "REVOKE",
    "MERGE", "COPY", "CALL", "COMMENT"].map ascii

inductive Hint where
  | writer
  | reader
  deriving DecidableEq

/-- The class `\s` of the hint regular expression. -/
def isRegexSpace (c : UInt8) : Bool := c == 32 || c == 9 || c == 10 || c == 12 || c == 13

/-- `hintRegex` anchored at the start of the text. -/
def hintAt (s : Bytes) : Option Hint :=
  if !hasPrefix s (ascii "/*") then none
  else
    let body := (s.drop 2).dropWhile isRegexSpace
    if hasPrefix body (ascii "route:writer") &&
        hasPrefix ((body.drop 12).dropWhile isRegexSpace) (ascii "*/") then some .writer
    else if hasPrefix body (ascii "route:reader") &&
        hasPrefix ((body.drop 12).dropWhile isRegexSpace) (ascii "*/") then some .reader
    else none

/-- The leftmost match of `hintRegex`. -/
def findHint : Bytes → Option Hint
  | [] => none
  | c :: s => (hintAt (c :: s)).or (findHint s)

/-- The outermost block comments of a text, an unclosed one included; `some (d, acc)` is inside `d +
1` comments of which `acc` was read. -/
def blockComments : Option (Nat × Bytes) → Bytes → List Bytes
  | none, [] => []
  | some (_, acc), [] => [acc]
  | none, [_] => []
  | some (_, acc), [c] => [acc ++ [c]]
  | none, c :: d :: s =>
    if c = '/'.toUInt8 ∧ d = '*'.toUInt8 then blockComments (some (0, [c, d])) s
    else blockComments none (d :: s)
  | some (k, acc), c :: d :: s =>
    if c = '/'.toUInt8 ∧ d = '*'.toUInt8 then blockComments (some (k + 1, acc ++ [c, d])) s
    else if c = '*'.toUInt8 ∧ d = '/'.toUInt8 then
      match k with
      | 0 => (acc ++ [c, d]) :: blockComments none s
      | k + 1 => blockComments (some (k, acc ++ [c, d])) s
    else blockComments (some (k, acc ++ [c])) (d :: s)

/-- Nested comments are no hints, except that only `/* ` with its blank counts as nesting. -/
def commentHint (comment : Bytes) : Option Hint :=
  if !contains comment (ascii "/* ") || count (ascii "/*") comment = 1 then findHint comment
  else none

def extractHint (query : Bytes) : Option Hint :=
  (blockComments none (stripStringLiterals query)).findSome? commentHint

/-- `kw` occurs in the text between a byte satisfying `before` and one satisfying `after`;
`prev` is the byte before the text. -/
def hasWord (before after : UInt8 → Bool) (kw : Bytes) (prev : Option UInt8) : Bytes → Bool
  | [] => false
  | c :: s =>
    (kw.isPrefixOf (c :: s) && prev.all before && ((c :: s).drop kw.length).head?.all after) ||
      hasWord before after kw (some c) s

/-- As `hasWord`, but only the first occurrence of `kw` is looked at. -/
def firstWord (before after : UInt8 → Bool) (kw : Bytes) (prev : Option UInt8) : Bytes → Bool
  | [] => false
  | c :: s =>
    if kw.isPrefixOf (c :: s) then prev.all before && ((c :: s).drop kw.length).head?.all after
    else firstWord before after kw (some c) s

section Case

variable [CaseTable]

def firstKeyword (query : Bytes) : Bytes :=
  match fields (trimSpace (stripComments query)) with
  | [] => []
  | field :: _ => toUpper field

def upperCode (query : Bytes) : Bytes := toUpper (stripComments (stripStringLiterals query))

def containsWriteKeyword (query : Bytes) : Bool :=
  writeKeywords.any fun kw =>
    hasWord (fun c => c == 32 || c == '('.toUInt8 || c == 10)
      (fun c => c == 32 || c == 10 || c == '('.toUInt8) kw none (upperCode query)

def sideEffectFuncs : List Bytes :=
  ["NEXTVAL(", "SETVAL(", "CURRVAL(", "SET_CONFIG(", "PG_ADVISORY_LOCK(",
    "PG_ADVISORY_XACT_LOCK(", "PG_ADVISORY_UNLOCK(", "PG_ADVISORY_UNLOCK_ALL(",
    "PG_TRY_ADVISORY_LOCK(", "PG_TRY_ADVISORY_XACT_LOCK(", "LO_CREATE(", "LO_UNLINK(",
    "PG_NOTIFY(", "TXID_CURRENT("].map ascii

def hasSideEffectFunc (upper : Bytes) : Bool := sideEffectFuncs.any (contains upper)

def lockingClauses : List Bytes :=
  ["FOR UPDATE", "FOR NO KEY UPDATE", "FOR SHARE", "FOR KEY SHARE"].map ascii

def isSideEffectfulSelect (query : Bytes) : Bool :=
  let upper := upperCode query
  (lockingClauses.any fun clause =>
    firstWord (fun c => c == 32 || c == 10 || c == 9 || c == ')'.toUInt8)
      (fun c => c == 32 || c == 10 || c == 9 || c == ';'.toUInt8) clause none upper) ||
    hasSideEffectFunc upper

/-- EXPLAIN ANALYZE executes the statement it explains. -/
def isExplainAnalyzeWrite (stmt : Bytes) : Bool :=
  let upper := upperCode stmt
  contains upper (ascii "ANALYZE") &&
    writeKeywords.any fun kw => kw ≠ ascii "COPY" && kw ≠ ascii "COMMENT" && contains upper kw

def isWriteStatement (stmt : Bytes) : Bool :=
  let keyword := firstKeyword stmt
  writeKeywords.contains keyword ||
    (keyword == ascii "WITH" && containsWriteKeyword stmt) ||
    (keyword == ascii "SELECT" && isSideEffectfulSelect stmt) ||
    (keyword == ascii "EXPLAIN" && isExplainAnalyzeWrite stmt)

/-- The fast path for a single statement without comments; `none` asks for the full parser. -/
def classifyFast (query : Bytes) : Option QueryType :=
  match query.dropWhile isSpace with
  | [] => some .read
  | c :: s =>
    if contains query (ascii "/*") || contains query (ascii "--") then none
    else if !isSingleStatement query then none
    else
      let word := (c :: s).takeWhile
        fun c => !(c == 32 || c == 9 || c == 10 || c == '('.toUInt8)
      if word = [] then some .read
      else
        let kw := toUpper word
        if writeKeywords.contains kw then some .write
        else if kw = ascii "WITH" ∨ kw = ascii "EXPLAIN" then none
        else if kw = ascii "SELECT" ∧
            (lockingClauses.any (contains (toUpper query)) ||
              hasSideEffectFunc (toUpper query)) then none
        else some .read

def hintType : Hint → QueryType
  | .writer => .write
  | .reader => .read

def classifyFull (query : Bytes) : QueryType :=
  match extractHint query with
  | some hint => hintType hint
  | none => if (splitStatements query).any isWriteStatement then .write else .read

def classify (query : Bytes) : QueryType := (classifyFast query).getD (classifyFull query)

end Case

end Pgmux
