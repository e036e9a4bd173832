import Pgmux.Scan

namespace Pgmux

def isDigit (c : UInt8) : Bool := 48 ≤ c && c ≤ 57

def isHexDigit (c : UInt8) : Bool := isDigit c || (97 ≤ c && c ≤ 102) || (65 ≤ c && c ≤ 70)

def isSign (c : UInt8) : Bool := c == '+'.toUInt8 || c == '-'.toUInt8

def dropSign : Bytes → Bytes
  | c :: s => if isSign c then s else c :: s
  | [] => []

def decimal (s : Bytes) : Nat := s.foldl (fun n c => n * 10 + (c.toNat - 48)) 0

/-- `strconv.ParseInt(text, 10, 64)` succeeds. -/
def parsesInt64 (text : Bytes) : Bool :=
  let digits := dropSign text
  digits ≠ [] && digits.all isDigit &&
    (decimal digits < 9223372036854775808 ||
      (text.head? = some '-'.toUInt8 && decimal digits = 9223372036854775808))

/-- Equality up to ASCII letter case; `strings.EqualFold` on words without k and s. -/
def equalFold (s t : Bytes) : Bool := s.map lowerByte = t.map lowerByte

/-- A finite number as `strconv.ParseFloat` reads it: mantissa, decimal or binary exponent, and
whether the exponent is binary. -/
structure FloatText where
  mantissa : Nat
  exponent : Int
  hex : Bool

def noUnderscore (s : Bytes) : Bytes := s.filter (· ≠ '_'.toUInt8)

def hexValue (c : UInt8) : Nat :=
  if isDigit c then c.toNat - 48 else (lowerByte c).toNat - 87

def digitsValue (base : Nat) (s : Bytes) : Nat := s.foldl (fun n c => n * base + hexValue c) 0

def separated (digit : UInt8 → Bool) (s : Bytes) : Bool :=
  s.head?.all digit && s.getLast?.all digit && s.all (fun c => digit c || c == '_'.toUInt8) &&
    !contains s (ascii "__")

/-- The exponent after its letter: a sign and digits. -/
def readExponent (s : Bytes) : Option Int :=
  let digits := dropSign s
  if digits ≠ [] ∧ separated isDigit digits then
    let e : Int := min (decimal (noUnderscore digits)) 10000
    some (if s.head? = some '-'.toUInt8 then -e else e)
  else none

/-- The unsigned finite part of the grammar of `strconv.ParseFloat`. -/
def readFloat (s : Bytes) : Option FloatText :=
  let hex := hasPrefix (s.map lowerByte) (ascii "0x") && decide (2 < s.length)
  let digit := if hex then isHexDigit else isDigit
  let base := if hex then 16 else 10
  let body := if hex then s.drop 2 else s
  let whole := body.takeWhile fun c => digit c || c == '_'.toUInt8
  let rest := body.dropWhile fun c => digit c || c == '_'.toUInt8
  let fracPart := match rest with
    | c :: t => if c = '.'.toUInt8 then t.takeWhile fun c => digit c || c == '_'.toUInt8 else []
    | [] => []
  let tail := match rest with
    | c :: t => if c = '.'.toUInt8 then t.dropWhile fun c => digit c || c == '_'.toUInt8 else c :: t
    | [] => []
  -- a base prefix counts as a digit before the first underscore
  let wholeOk := separated digit whole ||
    (hex && whole.head? = some '_'.toUInt8 && whole.drop 1 ≠ [] && separated digit (whole.drop 1))
  if !wholeOk || !separated digit fracPart || noUnderscore (whole ++ fracPart) = [] then none
  else
    let mantissa := digitsValue base (noUnderscore (whole ++ fracPart))
    let shift : Int := (noUnderscore fracPart).length
    match tail with
    | [] => if hex then none else some ⟨mantissa, -shift, false⟩
    | c :: t =>
      if lowerByte c = (if hex then 'p' else 'e').toUInt8 then
        (readExponent t).map fun e =>
          if hex then ⟨mantissa, e - 4 * shift, true⟩ else ⟨mantissa, e - shift, false⟩
      else none

/-- Rounding to a double gives infinity from `2^1024 - 2^970` on. -/
def FloatText.overflows (f : FloatText) : Bool :=
  let base := if f.hex then 2 else 10
  decide ((2 ^ 1024 - 2 ^ 970) * base ^ (-f.exponent).toNat ≤ f.mantissa * base ^ f.exponent.toNat)

inductive ParsedFloat where
  | nan
  | inf
  | negInf
  | finite

/-- `strconv.ParseFloat(text, 64)`, as far as the caller looks at the value. -/
def parseFloat (text : Bytes) : Option ParsedFloat :=
  if equalFold text (ascii "nan") then some .nan
  else if equalFold (dropSign text) (ascii "inf") ||
      equalFold (dropSign text) (ascii "infinity") then
    some (if text.head? = some '-'.toUInt8 then .negInf else .inf)
  else match readFloat (dropSign text) with
    | some f => if f.overflows then none else some .finite
    | none => none

def isValidNumeric (s : Bytes) : Bool :=
  equalFold s (ascii "NaN") || equalFold s (ascii "Infinity") || equalFold s (ascii "-Infinity") ||
    let body := dropSign s
    let whole := body.takeWhile isDigit
    let rest := body.dropWhile isDigit
    let fracPart := match rest with
      | c :: t => if c = '.'.toUInt8 then t.takeWhile isDigit else []
      | [] => []
    let tail := match rest with
      | c :: t => if c = '.'.toUInt8 then t.dropWhile isDigit else c :: t
      | [] => []
    (whole ≠ [] || fracPart ≠ []) &&
      match tail with
      | [] => true
      | c :: t =>
        (c == 'e'.toUInt8 || c == 'E'.toUInt8) && (dropSign t).head?.any isDigit &&
          (dropSign t).all isDigit

def uuidOk (i : Nat) (c : UInt8) : Bool :=
  if i = 8 ∨ i = 13 ∨ i = 18 ∨ i = 23 then c == '-'.toUInt8 else isHexDigit c

def isValidUUID (s : Bytes) : Bool :=
  s.length = 36 && s.zipIdx.all fun p => uuidOk p.2 p.1

/-- A single-quoted literal: quotes doubled, NUL bytes dropped. -/
def escapeStringLiteral (s : Bytes) : Bytes :=
  quote :: s.flatMap (fun c => if c = quote then [quote, quote] else if c = 0 then [] else [c]) ++
    [quote]

def hexNibble (n : Nat) : UInt8 := if n < 10 then (48 + n).toUInt8 else (87 + n).toUInt8

/-- `hex.EncodeToString`. -/
def encodeHex (s : Bytes) : Bytes :=
  s.flatMap fun c => [hexNibble (c.toNat / 16), hexNibble (c.toNat % 16)]

def byteaLiteral (s : Bytes) : Bytes :=
  ascii "E'\\\\x" ++ encodeHex s ++ [quote]

def natText (n : Nat) : Bytes := (Nat.toDigits 10 n).map Char.toUInt8

/-- `strconv.FormatInt(v, 10)`. -/
def formatInt (v : Int) : Bytes :=
  if v < 0 then '-'.toUInt8 :: natText v.natAbs else natText v.natAbs

def bigEndian (s : Bytes) : Nat := s.foldl (fun n c => n * 256 + c.toNat) 0

/-- The two's-complement value of `n` on `w` bits. -/
def signed (w n : Nat) : Int := if n < 2 ^ (w - 1) then n else (n : Int) - 2 ^ w

/-- `int16(data[0])<<8 | int16(data[1])`. -/
def shiftedInt16 : Bytes → Int16
  | [a, b] => (a.toUInt16.toInt16 <<< 8) ||| b.toUInt16.toInt16
  | _ => 0

/-- `int32(data[0])<<24 | int32(data[1])<<16 | int32(data[2])<<8 | int32(data[3])`. -/
def shiftedInt32 : Bytes → Int32
  | [a, b, c, d] => (a.toUInt32.toInt32 <<< 24) ||| (b.toUInt32.toInt32 <<< 16) |||
      (c.toUInt32.toInt32 <<< 8) ||| d.toUInt32.toInt32
  | _ => 0

/-- The loop `v = v<<8 | int64(data[i])` over all bytes. -/
def shiftedInt64 (data : Bytes) : Int64 :=
  data.foldl (fun v c => (v <<< 8) ||| c.toUInt64.toInt64) 0

/-- `strconv.FormatFloat(f, 'f', -1, 32)` and its 64-bit form, on the bits of a finite float. -/
class FloatFormat where
  format32 : Nat → Bytes
  format64 : Nat → Bytes

/-- The type OIDs that `ParamToLiteral` tells apart; every other one is escaped as text. -/
inductive OidKind where
  | boolean
  | int2
  | int4
  | int8
  | oid
  | float4
  | float8
  | numeric
  | bytea
  | uuid
  | text
  deriving DecidableEq

def oidKind (oid : Nat) : OidKind :=
  if oid = 16 then .boolean
  else if oid = 21 then .int2
  else if oid = 23 then .int4
  else if oid = 20 then .int8
  else if oid = 26 then .oid
  else if oid = 700 then .float4
  else if oid = 701 then .float8
  else if oid = 1700 then .numeric
  else if oid = 17 then .bytea
  else if oid = 2950 then .uuid
  else .text

def textParamToLiteral [CaseTable] (text : Bytes) (oid : Nat) : Option Bytes :=
  match oidKind oid with
  | .boolean =>
    if (["t", "true", "1", "yes", "on"].map ascii).contains (toLower text) then some (ascii "TRUE")
    else if (["f", "false", "0", "no", "off"].map ascii).contains (toLower text) then
      some (ascii "FALSE")
    else none
  | .int2 | .int4 | .int8 | .oid => if parsesInt64 text then some text else none
  | .float4 | .float8 =>
    match parseFloat text with
    | none => none
    | some .nan => some (ascii "'NaN'::float8")
    | some .inf => some (ascii "'Infinity'::float8")
    | some .negInf => some (ascii "'-Infinity'::float8")
    | some .finite => some text
  | .numeric => if isValidNumeric text then some text else none
  | .bytea => some (byteaLiteral text)
  | .uuid => if isValidUUID text then some (escapeStringLiteral text) else none
  | .text => some (escapeStringLiteral text)

/-- A float with `m` mantissa bits below `e` exponent bits, all ones for NaN and infinities. -/
def binaryFloat (m e : Nat) (suffix : Bytes) (format : Nat → Bytes) (bits : Nat) : Bytes :=
  let exponent := bits / 2 ^ m % 2 ^ e
  if exponent = 2 ^ e - 1 then
    if bits % 2 ^ m ≠ 0 then ascii "'NaN'" ++ suffix
    else if bits < 2 ^ (m + e) then ascii "'Infinity'" ++ suffix
    else ascii "'-Infinity'" ++ suffix
  else format bits

def binaryParamToLiteral [FloatFormat] (data : Bytes) (oid : Nat) : Option Bytes :=
  match oidKind oid with
  | .boolean =>
    if data.length = 1 then some (ascii (if data.head? ≠ some 0 then "TRUE" else "FALSE")) else none
  | .int2 => if data.length = 2 then some (formatInt (shiftedInt16 data).toInt) else none
  | .int4 => if data.length = 4 then some (formatInt (shiftedInt32 data).toInt) else none
  | .int8 => if data.length = 8 then some (formatInt (shiftedInt64 data).toInt) else none
  | .float4 =>
    if data.length = 4 then
      some (binaryFloat 23 8 (ascii "::float4") FloatFormat.format32 (bigEndian data))
    else none
  | .float8 =>
    if data.length = 8 then
      some (binaryFloat 52 11 (ascii "::float8") FloatFormat.format64 (bigEndian data))
    else none
  | .bytea => some (byteaLiteral data)
  | .oid | .numeric | .uuid | .text => some (escapeStringLiteral data)

/-- A parameter value as an SQL constant; `none` is a rejected value. -/
def paramToLiteral [CaseTable] [FloatFormat] (value : Option Bytes) (oid : Nat)
    (formatCode : Int) : Option Bytes :=
  match value with
  | none => some (ascii "NULL")
  | some v => if formatCode = 1 then binaryParamToLiteral v oid else textParamToLiteral v oid

end Pgmux
