import Pgmux.Bytes

namespace Pgmux

def quote : UInt8 := 39

def dquote : UInt8 := 34

/-- `isSpace` of the router. -/
def isSpace (c : UInt8) : Bool := c == 32 || c == 9 || c == 10 || c == 13

def isTagStart (c : UInt8) : Bool := (97 ≤ c && c ≤ 122) || (65 ≤ c && c ≤ 90) || c == 95

def isTagChar (c : UInt8) : Bool := isTagStart c || (48 ≤ c && c ≤ 57)

/-- The dollar-quote tag `$$` or `$tag$` at the start of the text. -/
def parseDollarTag : Bytes → Option Bytes
  | [] => none
  | [_] => none
  | c :: d :: s =>
    if c ≠ '$'.toUInt8 then none
    else if d = '$'.toUInt8 then some (ascii "$$")
    else if !isTagStart d then none
    else if ((d :: s).dropWhile isTagChar).head? = some '$'.toUInt8 then
      some (c :: (d :: s).takeWhile isTagChar ++ ['$'.toUInt8])
    else none

/-- Where a scan over SQL text stands between two bytes. `block d` is inside `d + 1` comments,
`copy k m` has `k + 1` more bytes of a delimiter to pass before it is in `m`. -/
inductive Mode where
  | plain
  | single
  | double
  | line
  | block (depth : Nat)
  | dollar (tag : Bytes)
  | copy (k : Nat) (after : Mode)
  deriving DecidableEq

/-- The mode after the byte `c`, which `s` follows. Only some scans know comments. -/
def Mode.next (comments : Bool) : Mode → UInt8 → Bytes → Mode
  | .copy 0 m, _, _ => m
  | .copy (k + 1) m, _, _ => .copy k m
  | .line, c, _ => if c = 10 then .plain else .line
  | .block d, c, s =>
    if c = '/'.toUInt8 ∧ s.head? = some '*'.toUInt8 then .copy 0 (.block (d + 1))
    else if c = '*'.toUInt8 ∧ s.head? = some '/'.toUInt8 then
      .copy 0 (match d with
        | 0 => .plain
        | d + 1 => .block d)
    else .block d
  | .dollar tag, c, s =>
    if tag.isPrefixOf (c :: s) then .copy (tag.length - 2) .plain else .dollar tag
  | .single, c, s =>
    if c = quote then (if s.head? = some quote then .copy 0 .single else .plain) else .single
  | .double, c, _ => if c = dquote then .plain else .double
  | .plain, c, s =>
    match parseDollarTag (c :: s) with
    | some tag => .copy (tag.length - 2) (.dollar tag)
    | none =>
      if comments ∧ c = '-'.toUInt8 ∧ s.head? = some '-'.toUInt8 then .line
      else if comments ∧ c = '/'.toUInt8 ∧ s.head? = some '*'.toUInt8 then .copy 0 (.block 0)
      else if c = quote then .single
      else if c = dquote then .double
      else .plain

def piece (cur : Bytes) : List Bytes :=
  if trimSpace cur = [] then [] else [trimSpace cur]

def splitFrom : Mode → Bytes → Bytes → List Bytes
  | _, cur, [] => piece cur
  | m, cur, c :: s =>
    if m = .plain ∧ c = ';'.toUInt8 then piece cur ++ splitFrom .plain [] s
    else splitFrom (m.next true c s) (cur ++ [c]) s

/-- Split a query at its semicolons outside quotes, dollar quotes and comments. -/
def splitStatements (query : Bytes) : List Bytes := splitFrom .plain [] query

/-- Which bytes `stripStringLiterals` writes: everything outside quotes, and the quotes. -/
def keeps : Mode → UInt8 → Bytes → Bool
  | .single, c, _ => c == quote
  | .double, c, _ => c == dquote
  | .dollar tag, c, s => tag.isPrefixOf (c :: s)
  | _, _, _ => true

def stripLiteralsFrom : Mode → Bytes → Bytes
  | .dollar tag, [] => tag
  | _, [] => []
  | m, c :: s =>
    (if keeps m c s then [c] else []) ++ stripLiteralsFrom (m.next false c s) s

def stripStringLiterals (query : Bytes) : Bytes := stripLiteralsFrom .plain query

/-- Where a scan that knows comments only stands. -/
inductive Noise where
  | text
  | line
  | block (depth : Nat)
  deriving DecidableEq

def stripCommentsFrom : Noise → Bytes → Bytes
  | _, [] => []
  | .text, [c] => [c]
  | .text, c :: d :: s =>
    if c = '/'.toUInt8 ∧ d = '*'.toUInt8 then stripCommentsFrom (.block 0) s
    else if c = '-'.toUInt8 ∧ d = '-'.toUInt8 then stripCommentsFrom .line s
    else c :: stripCommentsFrom .text (d :: s)
  | .line, c :: s => if c = 10 then c :: stripCommentsFrom .text s else stripCommentsFrom .line s
  | .block _, [_] => []
  | .block k, c :: d :: s =>
    if c = '/'.toUInt8 ∧ d = '*'.toUInt8 then stripCommentsFrom (.block (k + 1)) s
    else if c = '*'.toUInt8 ∧ d = '/'.toUInt8 then
      match k with
      | 0 => stripCommentsFrom .text s
      | k + 1 => stripCommentsFrom (.block k) s
    else stripCommentsFrom (.block k) (d :: s)

def stripComments (query : Bytes) : Bytes := stripCommentsFrom .text query

def skipFrom : Noise → Bytes → Bytes
  | _, [] => []
  | .text, [c] => if isSpace c then [] else [c]
  | .text, c :: d :: s =>
    if isSpace c then skipFrom .text (d :: s)
    else if c = '/'.toUInt8 ∧ d = '*'.toUInt8 then skipFrom (.block 0) s
    else if c = '-'.toUInt8 ∧ d = '-'.toUInt8 then skipFrom .line s
    else c :: d :: s
  | .line, c :: s => if c = 10 then skipFrom .text s else skipFrom .line s
  | .block _, [_] => []
  | .block k, c :: d :: s =>
    if c = '/'.toUInt8 ∧ d = '*'.toUInt8 then skipFrom (.block (k + 1)) s
    else if c = '*'.toUInt8 ∧ d = '/'.toUInt8 then
      match k with
      | 0 => skipFrom .text s
      | k + 1 => skipFrom (.block k) s
    else skipFrom (.block k) (d :: s)

/-- The text past leading white space and comments, the `query[i:]` for the index that
`SkipLeadingNoise` returns. -/
def skipLeadingNoise (query : Bytes) : Bytes := skipFrom .text query

/-- The case-insensitive prefix comparisons `eqFold3` to `eqFoldN`. -/
def eqFold (s target : Bytes) : Bool :=
  target.length ≤ s.length &&
    (s.zip target).all fun p => (p.1 ||| 0x20) == (p.2 ||| 0x20)

/-- `kw` starts the text and `stop` holds of the byte after it, if there is one. -/
def keyword (kw : Bytes) (stop : UInt8 → Bool) (rest : Bytes) : Bool :=
  eqFold rest kw && (rest.drop kw.length).head?.all stop

/-- The result of `hasTxPrefix`: no transaction keyword, 1 and 2. -/
inductive TxPrefix where
  | none
  | start
  | finish
  deriving DecidableEq

def txStop (c : UInt8) : Bool := isSpace c || c == ';'.toUInt8

def hasTxPrefix (query : Bytes) : TxPrefix :=
  let rest := skipLeadingNoise query
  if keyword (ascii "BEGIN") txStop rest then .start
  else if keyword (ascii "START TRANSACTION") txStop rest then .start
  else if keyword (ascii "COMMIT") txStop rest then .finish
  else if keyword (ascii "ROLLBACK") txStop rest then .finish
  else if keyword (ascii "END") txStop rest then .finish
  else if keyword (ascii "ABORT") txStop rest then .finish
  else .none

/-- `IsTxControl`: whether the query starts and whether it ends a transaction. -/
def isTxControl (query : Bytes) : Bool × Bool :=
  (hasTxPrefix query = .start, hasTxPrefix query = .finish)

/-- At most one statement: only white space follows the first semicolon. -/
def isSingleStatement (query : Bytes) : Bool :=
  match query.dropWhile (· ≠ ';'.toUInt8) with
  | [] => true
  | _ :: rest => trimSpace rest = []

example : splitStatements (ascii "SELECT ';' ; /* ; */ COMMIT;") =
    [ascii "SELECT ';'", ascii "/* ; */ COMMIT"] := by decide +kernel

end Pgmux
