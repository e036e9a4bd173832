import Pgmux.Literal
import Pgmux.WireFields

namespace Pgmux

open Codec Cursor

section Encoding

def putParam : Option Bytes → Bytes
  | none => putUint32 4294967295
  | some v => putUint32 v.length ++ v

def putCodes (codes : List Int) : Bytes := putUint16 codes.length ++ codes.flatMap putInt16

def putParams (params : List (Option Bytes)) : Bytes :=
  putUint16 params.length ++ params.flatMap putParam

def BindMessageDetail.encode (d : BindMessageDetail) : Bytes :=
  d.portal ++ [0] ++ (d.statementName ++ [0] ++ (putCodes d.formatCodes ++
    (putParams d.parameters ++ putCodes d.resultFormatCodes)))

def CodesFit (codes : List Int) : Prop := codes.length < 65536 ∧ ∀ c ∈ codes, IsInt16 c

def ParamFits (v : Option Bytes) : Prop := ∀ b ∈ v, b.length < 2147483648

def ParamsFit (params : List (Option Bytes)) : Prop :=
  params.length < 65536 ∧ ∀ v ∈ params, ParamFits v

structure BindMessageDetail.Encodable (d : BindMessageDetail) : Prop where
  portal : 0 ∉ d.portal
  statementName : 0 ∉ d.statementName
  formatCodes : CodesFit d.formatCodes
  parameters : ParamsFit d.parameters
  resultFormatCodes : CodesFit d.resultFormatCodes

end Encoding

section Parser

def readValue (len : Int) : Parser UInt8 (Option Bytes) := fun p =>
  if len = -1 then some (none, p)
  else if 0 ≤ len ∧ len ≤ p.length then some (some (p.take len.toNat), p.drop len.toNat)
  else none

def readParam : Parser UInt8 (Option Bytes) := fun p => do
  let (n, p) ← readUint32 p
  readValue (int32 n) p

theorem readParam_some (hn : n < 4294967296) (p : Bytes) :
    readParam (putUint32 n ++ p) = readValue (int32 n) p := by
  have hr := readUint32_inverts.read hn p
  rw [readParam, hr]
  rfl

theorem readParam_inverts : Inverts readParam ParamFits putParam := by
  intro p v t
  constructor
  · intro hp
    obtain ⟨⟨n, p'⟩, hn, h⟩ := Option.bind_eq_some_iff.mp hp
    obtain ⟨hlt, rfl⟩ := (readUint32_inverts _ _ _).mp hn
    change readValue (int32 n) p' = some (v, t) at h
    unfold readValue at h
    split at h
    · rename_i hnull
      cases h
      have hn : n = 4294967295 := by
        unfold int32 at hnull
        split at hnull <;> omega
      subst hn
      exact ⟨fun b hb => (Option.not_mem_none b hb).elim, rfl⟩
    · split at h
      · rename_i hle
        cases h
        have hn : int32 n = n ∧ n < 2147483648 := by
          unfold int32 at hle ⊢
          split at hle <;> split <;> omega
        rw [hn.1] at hle
        rw [hn.1, Int.toNat_natCast]
        have htake : (p'.take n).length = n := List.length_take_of_le (by omega)
        constructor
        · intro b hb
          cases hb
          rw [htake]
          exact hn.2
        · rw [putParam, htake, List.append_assoc, List.take_append_drop]
      · cases h
  · rintro ⟨hv, rfl⟩
    cases v with
    | none => rw [putParam, readParam_some (by decide)]; rfl
    | some b =>
      have hb : b.length < 2147483648 := hv b rfl
      have hint : int32 b.length = b.length := if_pos hb
      have hle : b.length ≤ (b ++ t).length := by
        rw [List.length_append]
        omega
      rw [putParam, List.append_assoc, readParam_some (by omega), hint, readValue,
        if_neg (by omega), if_pos (by omega), Int.toNat_natCast, List.take_left, List.drop_left]

def readParamList : Parser UInt8 (List (Option Bytes)) := counted readUint16 readParam

theorem readInt16s_eq (n : Nat) (p : Bytes) : readInt16s n p = many readInt16 n p := by
  induction n generalizing p with
  | zero => rfl
  | succ n ih =>
    rcases p with _ | ⟨a, _ | ⟨b, p⟩⟩
    · rfl
    · rfl
    · rw [readInt16s, ih]
      rfl

theorem readCodes_eq : readCodes = counted readUint16 readInt16 := by
  funext p
  rcases p with _ | ⟨a, _ | ⟨b, p⟩⟩
  · rfl
  · rfl
  · exact readInt16s_eq _ p

theorem readParams_eq (n : Nat) (p : Bytes) : readParams n p = many readParam n p := by
  induction n generalizing p with
  | zero => rfl
  | succ n ih =>
    rcases p with _ | ⟨a, _ | ⟨b, _ | ⟨c, _ | ⟨d, p⟩⟩⟩⟩
    · rfl
    · rfl
    · rfl
    · rfl
    · have hp : readParam (a :: b :: c :: d :: p) = readValue (int32 (uint32 a b c d)) p := rfl
      have hlt := uint32_lt a b c d
      rw [readParams, many, hp]
      dsimp only
      split
      · rename_i hnull
        rw [ih, hnull]
        rfl
      · rename_i hnull
        split
        · rename_i hle
          have hint : int32 (uint32 a b c d) = uint32 a b c d := if_pos hle.1
          rw [ih, hint, readValue, if_neg (by omega), if_pos (by omega), Int.toNat_natCast]
          rfl
        · rename_i hle
          rw [readValue, if_neg, if_neg]
          · rfl
          · unfold int32
            split <;> omega
          · unfold int32
            split <;> omega

theorem readCodes_inverts : Inverts readCodes CodesFit putCodes := by
  rw [readCodes_eq]
  exact readUint16_inverts.counted readInt16_inverts

theorem readParamList_inverts : Inverts readParamList ParamsFit putParams :=
  readUint16_inverts.counted readParam_inverts

def bindDetail : Parser UInt8 BindMessageDetail := fun p => do
  let (portal, p) ← cString p
  let (statementName, p) ← cString p
  let (formatCodes, p) ← readCodes p
  let (parameters, p) ← readParamList p
  let (resultFormatCodes, p) ← readCodes p
  return (⟨portal, statementName, formatCodes, parameters, resultFormatCodes⟩, p)

theorem bindDetail_inverts :
    Inverts bindDetail BindMessageDetail.Encodable BindMessageDetail.encode := by
  intro p d t
  simp only [bindDetail, Option.bind_eq_bind, Option.bind_eq_some_iff, Option.pure_def,
    Option.some.injEq, Prod.mk.injEq, Prod.exists]
  constructor
  · rintro ⟨portal, p₁, h₁, name, p₂, h₂, codes, p₃, h₃, params, p₄, h₄, results, p₅, h₅, rfl, rfl⟩
    obtain ⟨v₁, rfl⟩ := (cString_inverts _ _ _).mp h₁
    obtain ⟨v₂, rfl⟩ := (cString_inverts _ _ _).mp h₂
    obtain ⟨v₃, rfl⟩ := (readCodes_inverts _ _ _).mp h₃
    obtain ⟨v₄, rfl⟩ := (readParamList_inverts _ _ _).mp h₄
    obtain ⟨v₅, rfl⟩ := (readCodes_inverts _ _ _).mp h₅
    refine ⟨⟨v₁, v₂, v₃, v₄, v₅⟩, ?_⟩
    simp only [BindMessageDetail.encode, List.append_assoc]
  · rintro ⟨hd, rfl⟩
    have h₅ := readCodes_inverts.read hd.resultFormatCodes t
    have h₄ := readParamList_inverts.read hd.parameters (putCodes d.resultFormatCodes ++ t)
    have h₃ := readCodes_inverts.read hd.formatCodes
      (putParams d.parameters ++ (putCodes d.resultFormatCodes ++ t))
    have h₂ := cString_inverts.read hd.statementName
      (putCodes d.formatCodes ++ (putParams d.parameters ++ (putCodes d.resultFormatCodes ++ t)))
    have h₁ := cString_inverts.read hd.portal (d.statementName ++ [0] ++
      (putCodes d.formatCodes ++ (putParams d.parameters ++ (putCodes d.resultFormatCodes ++ t))))
    have he : d.encode ++ t = d.portal ++ [0] ++ (d.statementName ++ [0] ++
        (putCodes d.formatCodes ++ (putParams d.parameters ++
          (putCodes d.resultFormatCodes ++ t)))) := by
      simp only [BindMessageDetail.encode, List.append_assoc]
    rw [he]
    exact ⟨_, _, h₁, _, _, h₂, _, _, h₃, _, _, h₄, _, _, h₅, rfl, rfl⟩

theorem parseBindMessageFull_eq (p : Bytes) :
    parseBindMessageFull p = (bindDetail p).map Prod.fst := by
  unfold parseBindMessageFull bindDetail
  simp only [Option.bind_eq_bind]
  rcases cString p with _ | ⟨portal, p₁⟩
  · rfl
  simp only [Option.bind_some]
  rcases cString p₁ with _ | ⟨name, p₂⟩
  · rfl
  simp only [Option.bind_some]
  rcases readCodes p₂ with _ | ⟨codes, p₃⟩
  · rfl
  simp only [Option.bind_some]
  rcases p₃ with _ | ⟨a, _ | ⟨b, p₃⟩⟩
  · rfl
  · rfl
  have hparams : readParamList (a :: b :: p₃) = readParams (uint16 a b) p₃ :=
    (readParams_eq _ p₃).symm
  rw [hparams]
  dsimp only
  rcases readParams (uint16 a b) p₃ with _ | ⟨params, p₄⟩
  · rfl
  simp only [Option.bind_some]
  rcases readCodes p₄ with _ | ⟨results, p₅⟩
  · rfl
  · rfl

theorem parseBindMessage_of_bindDetail (h : bindDetail p = some (d, t)) :
    parseBindMessage p = (d.portal, d.statementName) := by
  obtain ⟨hd, rfl⟩ := (bindDetail_inverts _ _ _).mp h
  have h₁ := cString_inverts.read hd.portal (d.statementName ++ [0] ++ (putCodes d.formatCodes ++
    (putParams d.parameters ++ putCodes d.resultFormatCodes)) ++ t)
  have h₂ := cString_inverts.read hd.statementName (putCodes d.formatCodes ++
    (putParams d.parameters ++ putCodes d.resultFormatCodes) ++ t)
  simp only [List.append_assoc] at h₁ h₂
  simp only [parseBindMessage, BindMessageDetail.encode, List.append_assoc]
  rw [h₁]
  dsimp only
  rw [h₂]

end Parser

namespace Sliced

/-- The errors of `ParseBindMessageFull`, with the numbers in their texts. -/
inductive BindError where
  | missingPortal
  | missingStatementName
  | formatCodeCount
  | formatCode (i : Nat)
  | parameterCount
  | parameterLength (i : Nat)
  | invalidLength (paramLen : Int) (i : Nat)
  | resultCodeCount
  | resultCode (i : Nat)
  deriving DecidableEq

def BindError.text : BindError → Bytes
  | missingPortal => ascii "missing portal name terminator"
  | missingStatementName => ascii "missing statement name terminator"
  | formatCodeCount => ascii "truncated format code count"
  | formatCode i => ascii "truncated format code at index " ++ natText i
  | parameterCount => ascii "truncated parameter count"
  | parameterLength i => ascii "truncated parameter length at index " ++ natText i
  | invalidLength paramLen i =>
    ascii "invalid parameter length " ++ formatInt paramLen ++ ascii " at index " ++ natText i
  | resultCodeCount => ascii "truncated result format code count"
  | resultCode i => ascii "truncated result format code at index " ++ natText i

section Source

variable (payload : Bytes)

def code (truncated : Nat → BindError) (i : Nat) (pos : Int) : Checked BindError (Int × Int) := do
  let (n, pos) ← uint16At payload (truncated i) pos
  return (int16 n, pos)

def codes (count : BindError) (truncated : Nat → BindError) (pos : Int) :
    Checked BindError (List Int × Int) := do
  let (n, pos) ← uint16At payload count pos
  Cursor.collect (code payload truncated) n 0 pos

def parameterValue (i : Nat) (paramLen pos : Int) : Checked BindError (Option Bytes × Int) :=
  if paramLen = -1 then .ok (none, pos)
  else if paramLen < 0 ∨ payload.length < pos + paramLen then
    .error (.error (.invalidLength paramLen i))
  else do
    let value ← slice payload pos (pos + paramLen)
    return (some value, pos + paramLen)

def parameter (i : Nat) (pos : Int) : Checked BindError (Option Bytes × Int) := do
  let (n, pos) ← uint32At payload (.parameterLength i) pos
  parameterValue payload i (int32 n) pos

def parameters (pos : Int) : Checked BindError (List (Option Bytes) × Int) := do
  let (n, pos) ← uint16At payload .parameterCount pos
  Cursor.collect (parameter payload) n 0 pos

def bindDetail (pos : Int) : Checked BindError (BindMessageDetail × Int) := do
  let (portal, pos) ← terminated payload .missingPortal pos
  let (statementName, pos) ← terminated payload .missingStatementName pos
  let (formatCodes, pos) ← codes payload .formatCodeCount .formatCode pos
  let (parameters, pos) ← parameters payload pos
  let (resultFormatCodes, pos) ← codes payload .resultCodeCount .resultCode pos
  return (⟨portal, statementName, formatCodes, parameters, resultFormatCodes⟩, pos)

def parseBindMessageFull : Checked BindError BindMessageDetail := do
  let (d, _) ← bindDetail payload 0
  return d

end Source

variable {payload : Bytes}

theorem code_follows (truncated : Nat → BindError) (i : Nat) :
    Follows payload (code payload truncated i) readInt16 :=
  (uint16At_follows _).bind fun n => Follows.pure (int16 n)

theorem codes_follows (count : BindError) (truncated : Nat → BindError) :
    Follows payload (codes payload count truncated) readCodes := by
  rw [readCodes_eq]
  exact (uint16At_follows _).bind fun n => Follows.collect (code_follows truncated) n 0

theorem parameterValue_follows (i : Nat) (paramLen : Int) :
    Follows payload (parameterValue payload i paramLen) (readValue paramLen) where
  some pos v t hpos h := by
    unfold readValue at h
    split at h
    · rename_i hnull
      cases h
      exact ⟨pos, hpos, rfl, by rw [parameterValue, if_pos hnull]⟩
    · split at h
      · rename_i hle
        obtain ⟨n, rfl⟩ := Int.eq_ofNat_of_zero_le hle.1
        rw [List.length_drop] at hle
        cases h
        refine ⟨pos + n, by omega, List.drop_drop, ?_⟩
        rw [parameterValue, if_neg (by omega), if_neg (by omega), slice_add (by omega)]
        rfl
      · cases h
  none pos hpos h := by
    unfold readValue at h
    split at h
    · cases h
    · rename_i hnull
      split at h
      · cases h
      · rename_i hle
        rw [List.length_drop] at hle
        exact ⟨_, by rw [parameterValue, if_neg hnull, if_pos (by omega)]⟩

theorem parameter_follows (i : Nat) : Follows payload (parameter payload i) readParam :=
  (uint32At_follows _).bind fun n => parameterValue_follows i (int32 n)

theorem parameters_follows : Follows payload (parameters payload) readParamList :=
  (uint16At_follows _).bind fun n => Follows.collect parameter_follows n 0

theorem bindDetail_follows : Follows payload (bindDetail payload) Pgmux.bindDetail :=
  (terminated_follows _).bind fun _ => (terminated_follows _).bind fun _ =>
    (codes_follows _ _).bind fun _ => parameters_follows.bind fun _ =>
      (codes_follows _ _).bind fun _ => Follows.pure _

theorem parseBindMessageFull_ok :
    parseBindMessageFull payload = .ok d ↔ ∃ t, Pgmux.bindDetail payload = some (d, t) := by
  unfold parseBindMessageFull
  cases hp : Pgmux.bindDetail payload with
  | none =>
    obtain ⟨e, he⟩ := bindDetail_follows.none 0 (Nat.zero_le _) hp
    rw [show bindDetail payload 0 = .error (.error e) from he]
    constructor
    · intro h
      cases h
    · rintro ⟨t, ht⟩
      cases ht
  | some r =>
    obtain ⟨next, -, -, hr⟩ := bindDetail_follows.some 0 r.1 r.2 (Nat.zero_le _) hp
    rw [show bindDetail payload 0 = .ok (r.1, (next : Int)) from hr]
    constructor
    · intro h
      cases h
      exact ⟨r.2, rfl⟩
    · rintro ⟨t, ht⟩
      cases ht
      rfl

theorem parseBindMessageFull_error (h : Pgmux.bindDetail payload = none) :
    ∃ e, parseBindMessageFull payload = .error (.error e) := by
  obtain ⟨e, he⟩ := bindDetail_follows.none 0 (Nat.zero_le _) h
  refine ⟨e, ?_⟩
  rw [parseBindMessageFull, show bindDetail payload 0 = .error (.error e) from he]
  rfl

theorem parseBindMessageFull_toOption (payload : Bytes) :
    (parseBindMessageFull payload).toOption = Pgmux.parseBindMessageFull payload := by
  rw [parseBindMessageFull_eq]
  cases hp : Pgmux.bindDetail payload with
  | none =>
    obtain ⟨e, he⟩ := parseBindMessageFull_error hp
    rw [he]
    rfl
  | some r =>
    rw [parseBindMessageFull_ok.mpr ⟨r.2, hp⟩]
    rfl

end Sliced

/-- A payload is parsed to a detail exactly when it starts with the encoding of the detail. Any
other payload is an error and no access is out of range; the short parser agrees on the names. -/
theorem bind_parsing_exact (payload : Bytes) :
    (∀ d, Sliced.parseBindMessageFull payload = .ok d ↔
      d.Encodable ∧ ∃ t, payload = d.encode ++ t) ∧
    ((¬ ∃ d : BindMessageDetail, d.Encodable ∧ ∃ t, payload = d.encode ++ t) →
      ∃ e, Sliced.parseBindMessageFull payload = .error (.error e)) ∧
    Sliced.parseBindMessageFull payload ≠ .error .outOfRange ∧
    (∀ d d' : BindMessageDetail, d.Encodable → d'.Encodable → d.encode <+: payload →
      d'.encode <+: payload → d.parameters = d'.parameters) ∧
    (∀ d, Sliced.parseBindMessageFull payload = .ok d →
      parseBindMessage payload = (d.portal, d.statementName)) := by
  have hok : ∀ d, Sliced.parseBindMessageFull payload = .ok d ↔
      d.Encodable ∧ ∃ t, payload = d.encode ++ t := by
    intro d
    rw [Sliced.parseBindMessageFull_ok, ← exists_and_left]
    exact exists_congr fun t => bindDetail_inverts payload d t
  have herror (h : ¬ ∃ d : BindMessageDetail, d.Encodable ∧ ∃ t, payload = d.encode ++ t) :
      ∃ e, Sliced.parseBindMessageFull payload = .error (.error e) := by
    apply Sliced.parseBindMessageFull_error
    cases hp : bindDetail payload with
    | none => rfl
    | some r =>
      obtain ⟨hd, ht⟩ := (bindDetail_inverts payload r.1 r.2).mp hp
      exact absurd ⟨r.1, hd, r.2, ht⟩ h
  refine ⟨hok, herror, ?_, ?_, ?_⟩
  · intro hout
    by_cases h : ∃ d : BindMessageDetail, d.Encodable ∧ ∃ t, payload = d.encode ++ t
    · obtain ⟨d, hd⟩ := h
      rw [(hok d).mpr hd] at hout
      cases hout
    · obtain ⟨e, he⟩ := herror h
      rw [he] at hout
      cases hout
  · rintro d d' hd hd' ⟨t, ht⟩ ⟨t', ht'⟩
    have h := (hok d).mpr ⟨hd, t, ht.symm⟩
    have h' := (hok d').mpr ⟨hd', t', ht'.symm⟩
    rw [h] at h'
    cases h'
    rfl
  · intro d h
    obtain ⟨t, ht⟩ := Sliced.parseBindMessageFull_ok.mp h
    exact parseBindMessage_of_bindDetail ht

end Pgmux
