import Mathlib.Data.List.TakeWhile
import Pgmux.Bytes

namespace Pgmux

/-- A wire message; its raw bytes are the encoding of type, length and payload. -/
structure Message where
  type : UInt8
  payload : Bytes
  deriving DecidableEq

def msgQuery : UInt8 := 'Q'.toUInt8
def msgTerminate : UInt8 := 'X'.toUInt8
def msgParse : UInt8 := 'P'.toUInt8
def msgBind : UInt8 := 'B'.toUInt8
def msgDescribe : UInt8 := 'D'.toUInt8
def msgExecute : UInt8 := 'E'.toUInt8
def msgSync : UInt8 := 'S'.toUInt8
def msgClose : UInt8 := 'C'.toUInt8
def msgCopyData : UInt8 := 'd'.toUInt8
def msgCopyDone : UInt8 := 'c'.toUInt8
def msgCopyFail : UInt8 := 'f'.toUInt8
def msgReadyForQuery : UInt8 := 'Z'.toUInt8
def msgRowDescription : UInt8 := 'T'.toUInt8
def msgDataRow : UInt8 := 'D'.toUInt8
def msgCommandComplete : UInt8 := 'C'.toUInt8
def msgErrorResponse : UInt8 := 'E'.toUInt8
def msgCopyInResponse : UInt8 := 'G'.toUInt8
def msgCopyOutResponse : UInt8 := 'H'.toUInt8
def msgCopyBothResponse : UInt8 := 'W'.toUInt8

/-- The bytes before the first NUL and those after it. -/
def cString (p : Bytes) : Option (Bytes × Bytes) :=
  match p.dropWhile (· ≠ 0) with
  | [] => none
  | _ :: rest => some (p.takeWhile (· ≠ 0), rest)

theorem cString_nul (h : (0 : UInt8) ∉ name) (rest : Bytes) :
    cString (name ++ 0 :: rest) = some (name, rest) := by
  have hne : ∀ c ∈ name, (decide (c ≠ 0)) := by
    intro c hc
    exact decide_eq_true fun h0 => h (h0 ▸ hc)
  unfold cString
  rw [List.dropWhile_append_of_pos hne, List.takeWhile_append_of_pos hne]
  simp

theorem cString_noNul (h : cString p = some (name, rest)) : (0 : UInt8) ∉ name := by
  unfold cString at h
  split at h
  · cases h
  · cases h
    intro h0
    simpa using List.mem_takeWhile_imp h0

def uint16 (a b : UInt8) : Nat := a.toNat * 256 + b.toNat

def uint32 (a b c d : UInt8) : Nat := uint16 a b * 65536 + uint16 c d

def putUint16 (n : Nat) : Bytes := [(n / 256).toUInt8, n.toUInt8]

def putUint32 (n : Nat) : Bytes := putUint16 (n / 65536) ++ putUint16 n

theorem putUint32_length (n : Nat) : (putUint32 n).length = 4 := rfl

theorem putUint32_inj (h : putUint32 n = putUint32 k) (hn : n < 2 ^ 32) (hk : k < 2 ^ 32) :
    n = k := by
  simp only [putUint32, putUint16, List.cons_append, List.nil_append, List.cons.injEq,
    and_true] at h
  obtain ⟨h₁, h₂, h₃, h₄⟩ := h
  have e₁ := congrArg UInt8.toNat h₁
  have e₂ := congrArg UInt8.toNat h₂
  have e₃ := congrArg UInt8.toNat h₃
  have e₄ := congrArg UInt8.toNat h₄
  simp only [UInt8.toNat_ofNat', Nat.toUInt8_eq] at e₁ e₂ e₃ e₄
  omega

/-- The wire bytes of a message, as `WriteMessage` builds them. -/
def Message.raw (m : Message) : Bytes := m.type :: putUint32 (4 + m.payload.length) ++ m.payload

def queryMessage (query : Bytes) : Message := ⟨msgQuery, query ++ [0]⟩

def extractQueryText (payload : Bytes) : Bytes := payload.takeWhile (· ≠ 0)

/-- The statement name and text of a Parse payload, empty where a terminator is missing. -/
def parseParseMessage (payload : Bytes) : Bytes × Bytes :=
  match cString payload with
  | none => ([], [])
  | some (name, rest) =>
    match cString rest with
    | none => (name, [])
    | some (query, _) => (name, query)

/-- Up to `n` big-endian OIDs, and whether all of them were there. -/
def readOids : Nat → Bytes → List Nat × Bool
  | 0, _ => ([], true)
  | n + 1, a :: b :: c :: d :: rest =>
    let (oids, ok) := readOids n rest
    (uint32 a b c d :: oids, ok)
  | _ + 1, _ => ([], false)

/-- What `ParseParseMessageFull` returns; `ok` is that it returns no error. -/
structure ParseFull where
  stmtName : Bytes
  query : Bytes
  paramOIDs : List Nat
  ok : Bool
  deriving DecidableEq

def parseParseMessageFull (payload : Bytes) : ParseFull :=
  match cString payload with
  | none => ⟨[], [], [], false⟩
  | some (name, rest) =>
    match cString rest with
    | none => ⟨name, [], [], false⟩
    | some (query, a :: b :: rest) =>
      let (oids, ok) := readOids (uint16 a b) rest
      ⟨name, query, oids, ok⟩
    | some (query, _) => ⟨name, query, [], true⟩

def buildParsePayload (stmtName query : Bytes) (paramOIDs : List Nat) : Bytes :=
  stmtName ++ [0] ++ query ++ [0] ++ putUint16 paramOIDs.length ++ paramOIDs.flatMap putUint32

/-- The portal and the statement name of a Bind payload. -/
def parseBindMessage (payload : Bytes) : Bytes × Bytes :=
  match cString payload with
  | none => ([], [])
  | some (portal, rest) =>
    match cString rest with
    | none => (portal, [])
    | some (stmtName, _) => (portal, stmtName)

structure BindMessageDetail where
  portal : Bytes
  statementName : Bytes
  formatCodes : List Int
  parameters : List (Option Bytes)
  resultFormatCodes : List Int
  deriving DecidableEq

/-- The value of a 16-bit pattern as `int16`. -/
def int16 (n : Nat) : Int := if n < 32768 then n else (n : Int) - 65536

def readInt16s : Nat → Bytes → Option (List Int × Bytes)
  | 0, rest => some ([], rest)
  | n + 1, a :: b :: rest => do
    let (codes, rest) ← readInt16s n rest
    return (int16 (uint16 a b) :: codes, rest)
  | _ + 1, _ => none

def readCodes : Bytes → Option (List Int × Bytes)
  | a :: b :: rest => readInt16s (uint16 a b) rest
  | _ => none

/-- Length -1 is NULL; any other length must be non-negative and within the payload. -/
def readParams : Nat → Bytes → Option (List (Option Bytes) × Bytes)
  | 0, rest => some ([], rest)
  | n + 1, a :: b :: c :: d :: rest =>
    let len := uint32 a b c d
    if len = 4294967295 then do
      let (params, rest) ← readParams n rest
      return (none :: params, rest)
    else if len < 2147483648 ∧ len ≤ rest.length then do
      let (params, tail) ← readParams n (rest.drop len)
      return (some (rest.take len) :: params, tail)
    else none
  | _ + 1, _ => none

def parseBindMessageFull (payload : Bytes) : Option BindMessageDetail := do
  let (portal, rest) ← cString payload
  let (statementName, rest) ← cString rest
  let (formatCodes, rest) ← readCodes rest
  let (parameters, rest) ← match rest with
    | a :: b :: rest => readParams (uint16 a b) rest
    | _ => none
  let (resultFormatCodes, _) ← readCodes rest
  return ⟨portal, statementName, formatCodes, parameters, resultFormatCodes⟩

def parseCloseMessage : Bytes → UInt8 × Bytes
  | c :: d :: rest => (c, ((cString (d :: rest)).map Prod.fst).getD [])
  | _ => (0, [])

end Pgmux
