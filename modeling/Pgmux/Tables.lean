import Pgmux.Scan

namespace Pgmux

/-- A computation that takes slices of texts. `read s cuts` is the text `s[i:][j:]` for the offsets
`i`, `j`, … of `cuts`. -/
inductive Extraction (α : Type) where
  | done (a : α)
  | read (text : Bytes) (cuts : List Nat) (next : Bytes → Extraction α)

def Extraction.bind : Extraction α → (α → Extraction β) → Extraction β
  | .done a, f => f a
  | .read text cuts next, f => .read text cuts fun t => (next t).bind f

instance : Monad Extraction where
  pure := .done
  bind := .bind

/-- `s[i:]`; nothing if the offset is out of range. -/
def sliceFrom (s : Bytes) (i : Nat) : Option Bytes := if i ≤ s.length then some (s.drop i) else none

def slices : Bytes → List Nat → Option Bytes
  | s, [] => some s
  | s, i :: cuts => (sliceFrom s i).bind (slices · cuts)

/-- The run of the code; nothing if a slice is out of range, which is a panic. -/
def Extraction.run : Extraction α → Option α
  | .done a => some a
  | .read s cuts next => (slices s cuts).bind fun t => (next t).run

/-- The text `s[i:][j:]` for the offsets `i`, `j`, … of `cuts`. -/
def cut (s : Bytes) (cuts : List Nat) : Extraction Bytes := .read s cuts .done

def gather (f : β → Extraction (List α)) : List β → Extraction (List α)
  | [] => pure []
  | x :: xs => do
    let a ← f x
    let rest ← gather f xs
    return a ++ rest

/-- Where `extractIdentifier` stands: at the start of a part of the name, inside it, inside quotes,
at the second of two quotes, or behind the closing quote. -/
inductive IdentMode where
  | start
  | word
  | quoted
  | doubled
  | closed
  deriving DecidableEq

def endsWord (c : UInt8) : Bool :=
  c == 32 || c == 9 || c == 10 || c == '('.toUInt8 || c == ';'.toUInt8 || c == ','.toUInt8 ||
    c == dquote

def identFrom : IdentMode → Bytes → Bytes
  | _, [] => []
  | .start, c :: s =>
    if c = dquote then c :: identFrom .quoted s
    else if c = '.'.toUInt8 then c :: identFrom .start s
    else if endsWord c then []
    else c :: identFrom .word s
  | .word, c :: s =>
    if c = '.'.toUInt8 then c :: identFrom .start s
    else if endsWord c then []
    else c :: identFrom .word s
  | .quoted, c :: s =>
    if c = dquote then
      c :: identFrom (if s.head? = some dquote then .doubled else .closed) s
    else c :: identFrom .quoted s
  | .doubled, c :: s => c :: identFrom .quoted s
  | .closed, c :: s => if c = '.'.toUInt8 then c :: identFrom .start s else []

/-- The possibly quoted identifier, with its schema, at the start of the text. -/
def extractIdentifier (s : Bytes) : Bytes := identFrom .start s

/-- `strings.ReplaceAll` of two double quotes by one. -/
def singleQuotes : Bytes → Bytes
  | c :: d :: s =>
    if c = dquote ∧ d = dquote then dquote :: singleQuotes s else c :: singleQuotes (d :: s)
  | s => s

def stripQuotes (s : Bytes) : Bytes :=
  if 2 ≤ s.length ∧ s.head? = some dquote ∧ s.getLast? = some dquote then
    singleQuotes ((s.drop 1).dropLast)
  else s

/-- The last of the parts of the name that `strings.Split` gives at its dots. -/
def lastPart (name : Bytes) : Bytes := (name.reverse.takeWhile (· ≠ '.'.toUInt8)).reverse

/-- The positions at which `strings.Index` finds the keyword if each search starts behind the
keyword found before; `skip` bytes of that one are still to be passed over. -/
def occurrences (kw : Bytes) : Nat → Nat → Bytes → List Nat
  | _, _, [] => []
  | skip + 1, i, _ :: s => occurrences kw skip (i + 1) s
  | 0, i, c :: s =>
    if kw.isPrefixOf (c :: s) then i :: occurrences kw (kw.length - 1) (i + 1) s
    else occurrences kw 0 (i + 1) s

section Case

variable [CaseTable]

def tableName (name : Bytes) : Bytes := toLower (stripQuotes (lastPart name))

/-- The table whose name starts the text, or the empty name. -/
def nameAt (rest : Bytes) : Bytes :=
  if rest = [] then []
  else
    let name := extractIdentifier rest
    if name = [] then [] else tableName name

def skipTable (rest : Bytes) : Extraction Bytes :=
  if hasPrefix (toUpper rest) (ascii "TABLE ") then trimSpace <$> cut rest [6] else pure rest

/-- `extractAfter` for the text `text[i:]…` of the offsets `start`. -/
def extractAfter (text : Bytes) (start : List Nat) (keyword : Bytes) : Extraction Bytes := do
  let tail ← cut text (start ++ [keyword.length])
  let rest ← skipTable (trimSpace tail)
  return nameAt rest

def nonEmpty (name : Bytes) : List Bytes := if name = [] then [] else [name]

def extractCTETables (query : Bytes) : Extraction (List Bytes) :=
  let sanitized := stripStringLiterals query
  let upper := toUpper sanitized
  gather (fun kw => gather (fun idx => nonEmpty <$> extractAfter sanitized [idx] kw)
    (occurrences kw 0 0 upper)) [ascii "INSERT INTO", ascii "UPDATE", ascii "DELETE FROM"]

def extractCopyTable (q : Bytes) : Extraction (List Bytes) := do
  let tail ← cut q [4]
  let rest := trimSpace tail
  return if rest.head? = some '('.toUInt8 then [] else nonEmpty (nameAt rest)

/-- The name behind the first of the keywords that has one. -/
def explainFrom (q upper : Bytes) : List Bytes → Extraction (List Bytes)
  | [] => pure []
  | kw :: more =>
    match index kw upper with
    | none => explainFrom q upper more
    | some idx => do
      let t ← extractAfter q [idx] kw
      if t = [] then explainFrom q upper more else return [t]

def extractExplainTables (q upper : Bytes) : Extraction (List Bytes) :=
  if !contains upper (ascii "ANALYZE") then pure []
  else explainFrom q upper [ascii "INSERT INTO", ascii "UPDATE", ascii "DELETE FROM",
    ascii "MERGE INTO", ascii "MERGE"]

def extractTablesFromStmt (stmt : Bytes) : Extraction (List Bytes) :=
  let q := trimSpace stmt
  let upper := toUpper q
  let after (kw : Bytes) : Extraction (List Bytes) := (fun t => [t]) <$> extractAfter q [] kw
  if hasPrefix upper (ascii "INSERT INTO") then after (ascii "INSERT INTO")
  else if hasPrefix upper (ascii "UPDATE") then after (ascii "UPDATE")
  else if hasPrefix upper (ascii "DELETE FROM") then after (ascii "DELETE FROM")
  else if hasPrefix upper (ascii "TRUNCATE") then after (ascii "TRUNCATE")
  else if hasPrefix upper (ascii "MERGE INTO") then after (ascii "MERGE INTO")
  else if hasPrefix upper (ascii "MERGE") then after (ascii "MERGE")
  else if hasPrefix upper (ascii "COPY") then extractCopyTable q
  else if hasPrefix upper (ascii "EXPLAIN") then extractExplainTables q upper
  else if hasPrefix upper (ascii "WITH") then extractCTETables q
  else pure []

def distinct (names : List Bytes) : List Bytes := (names.filter (· ≠ [])).eraseDups

/-- `ExtractTables`: the tables that a query writes. -/
def extractTables (query : Bytes) : Extraction (List Bytes) :=
  distinct <$> gather extractTablesFromStmt (splitStatements query)

def wordBefore (c : UInt8) : Bool :=
  c == 32 || c == 10 || c == 9 || c == '('.toUInt8 || c == ','.toUInt8

def wordAfter (c : UInt8) : Bool := c == 32 || c == 10 || c == 9 || c == '('.toUInt8

/-- The keyword at the position stands between the bytes that separate words. -/
def isWordAt (kw upper : Bytes) (idx : Nat) : Bool :=
  (idx == 0 || (upper.drop (idx - 1)).head?.any wordBefore) &&
    (upper.drop (idx + kw.length)).head?.all wordAfter

/-- The table that the text behind FROM or JOIN starts with, if it is no subquery and no keyword. -/
def readTable (rest : Bytes) : List Bytes :=
  if rest.head? = some '('.toUInt8 then []
  else
    let name := extractIdentifier rest
    if name = [] then []
    else
      let t := tableName name
      if toUpper t ∈
          [ascii "SELECT", ascii "LATERAL", ascii "UNNEST", ascii "GENERATE_SERIES"] then []
      else [t]

/-- The loop over the positions of FROM or JOIN, which ends where nothing follows. -/
def readTablesFrom (sanitized upper kw : Bytes) : List Nat → Extraction (List Bytes)
  | [] => pure []
  | idx :: more =>
    if !isWordAt kw upper idx then readTablesFrom sanitized upper kw more
    else do
      let tail ← cut sanitized [idx + kw.length]
      if trimSpace tail = [] then return []
      else (readTable (trimSpace tail) ++ ·) <$> readTablesFrom sanitized upper kw more

def extractReadTablesFromStmt (stmt : Bytes) : Extraction (List Bytes) :=
  let q := trimSpace stmt
  let upper := toUpper q
  if !hasPrefix upper (ascii "SELECT") && !hasPrefix upper (ascii "WITH") then pure []
  else
    let sanitized := stripStringLiterals q
    let upperSanitized := toUpper sanitized
    gather
      (fun kw => readTablesFrom sanitized upperSanitized kw (occurrences kw 0 0 upperSanitized))
      [ascii "FROM", ascii "JOIN"]

/-- `ExtractReadTables`: the tables that a query reads. -/
def extractReadTables (query : Bytes) : Extraction (List Bytes) :=
  distinct <$> gather extractReadTablesFromStmt (splitStatements query)

end Case

end Pgmux
