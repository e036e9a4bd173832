import Pgmux.Script

namespace Pgmux

/-- The input and receive functions of PostgreSQL for the type with an OID. No text has a byte 0.
Each byte string is a `bytea`: its binary form is the string, and one of its texts the hex form. -/
class PgTypes where
  Value : Type
  decEq : DecidableEq Value
  textIn : Nat → Bytes → Option Value
  binaryIn : Nat → Bytes → Option Value
  textIn_nul : ∀ oid t v, textIn oid t = some v → 0 ∉ t
  bytea_inj : ∀ s s', binaryIn 17 s = binaryIn 17 s' → s = s'
  bytea_hex : ∀ s, textIn 17 (ascii "\\x" ++ encodeHex s) = binaryIn 17 s

attribute [reducible, instance] PgTypes.decEq

/-- The text of a quoted constant behind its opening quote, with
`standard_conforming_strings` on. -/
def quotedText : Bytes → Option Bytes
  | [] => none
  | [c] => if c = quote then some [] else none
  | c :: d :: s =>
    if c = quote then if d = quote then (quotedText s).map (quote :: ·) else none
    else (quotedText (d :: s)).map (c :: ·)

def backslash : UInt8 := '\\'.toUInt8

/-- The text of an escape constant behind its opening quote. The only escape that the code
writes is the doubled backslash. -/
def escapedText : Bytes → Option Bytes
  | [] => none
  | [c] => if c = quote then some [] else none
  | c :: d :: s =>
    if c = quote then if d = quote then (escapedText s).map (quote :: ·) else none
    else if c = backslash then
      if d = backslash then (escapedText s).map (backslash :: ·) else none
    else (escapedText (d :: s)).map (c :: ·)

/-- The text of a constant: in quotes, with escapes, or a number. A bare word is no constant. -/
def constantText : Bytes → Option Bytes
  | [] => none
  | c :: s =>
    if c = quote then quotedText s
    else if c = 'E'.toUInt8 ∧ s.head? = some quote then escapedText s.tail
    else if (dropSign (c :: s)).head?.any fun d => isDigit d || d == '.'.toUInt8 then some (c :: s)
    else none

def numericWord (t : Bytes) : Bool :=
  equalFold t (ascii "NaN") || equalFold t (ascii "Infinity") || equalFold t (ascii "-Infinity")

theorem quotedText_cons (h : c ≠ quote) (hs : s ≠ []) :
    quotedText (c :: s) = (quotedText s).map (c :: ·) := by
  cases s with
  | nil => exact absurd rfl hs
  | cons d s => rw [quotedText, if_neg h]

theorem quotedText_escape (s : Bytes) :
    quotedText (s.flatMap (fun c => if c = quote then [quote, quote] else if c = 0 then [] else [c])
      ++ [quote]) = some (s.filter (· ≠ 0)) := by
  induction s with
  | nil => rfl
  | cons c s ih =>
    rw [List.flatMap_cons, List.append_assoc]
    by_cases hq : c = quote
    · subst hq
      rw [if_pos rfl, List.cons_append, List.singleton_append, quotedText, if_pos rfl, if_pos rfl,
        ih]
      rfl
    · rw [if_neg hq]
      by_cases h0 : c = 0
      · subst h0
        exact ih
      · rw [if_neg h0, List.singleton_append, quotedText_cons hq (by simp), ih]
        simp [h0]

theorem constantText_escape (s : Bytes) :
    constantText (escapeStringLiteral s) = some (s.filter (· ≠ 0)) := quotedText_escape s

theorem escapedText_plain (h : ∀ c ∈ s, c ≠ quote ∧ c ≠ backslash) :
    escapedText (s ++ [quote]) = some s := by
  induction s with
  | nil => rfl
  | cons c s ih =>
    rw [List.forall_mem_cons] at h
    obtain ⟨d, r, hr⟩ := List.exists_cons_of_ne_nil
      (List.append_ne_nil_of_right_ne_nil s (List.cons_ne_nil quote []))
    rw [List.cons_append, hr, escapedText, if_neg h.1.1, if_neg h.1.2, ← hr, ih h.2]
    rfl

theorem hexNibble_plain (h : n < 16) : hexNibble n ≠ quote ∧ hexNibble n ≠ backslash := by
  have hall : ∀ n < 16, hexNibble n ≠ quote ∧ hexNibble n ≠ backslash := by decide
  exact hall n h

theorem encodeHex_plain (h : c ∈ encodeHex s) : c ≠ quote ∧ c ≠ backslash := by
  unfold encodeHex at h
  obtain ⟨d, -, hc⟩ := List.mem_flatMap.mp h
  have hd := d.toNat_lt
  rcases List.mem_pair.mp hc with rfl | rfl
  · exact hexNibble_plain (by omega)
  · exact hexNibble_plain (by omega)

theorem constantText_bytea (s : Bytes) :
    constantText (byteaLiteral s) = some (ascii "\\x" ++ encodeHex s) := by
  have hx : ∀ c ∈ 'x'.toUInt8 :: encodeHex s, c ≠ quote ∧ c ≠ backslash :=
    List.forall_mem_cons.mpr ⟨by decide, fun c => encodeHex_plain⟩
  have hlit : ascii "E'\\\\x" = ['E'.toUInt8, quote, backslash, backslash, 'x'.toUInt8] := by decide
  have htext : ascii "\\x" = [backslash, 'x'.toUInt8] := by decide
  rw [byteaLiteral, hlit, htext]
  change (escapedText ('x'.toUInt8 :: encodeHex s ++ [quote])).map (backslash :: ·) = _
  rw [escapedText_plain hx]
  rfl

section Numeric

def startsNumber (c : UInt8) : Bool := isDigit c || c == '.'.toUInt8

theorem constantText_bare (hq : c ≠ quote) (he : c ≠ 'E'.toUInt8) (s : Bytes) :
    constantText (c :: s) =
      if (dropSign (c :: s)).head?.any startsNumber then some (c :: s) else none := by
  rw [constantText, if_neg hq, if_neg fun h => he h.1]
  rfl

theorem letter_plain (h : lowerByte c = 'n'.toUInt8 ∨ lowerByte c = 'i'.toUInt8) :
    c ≠ quote ∧ c ≠ 'E'.toUInt8 ∧ isSign c = false ∧ startsNumber c = false := by
  have hall : ∀ c, lowerByte c = 'n'.toUInt8 ∨ lowerByte c = 'i'.toUInt8 →
      c ≠ quote ∧ c ≠ 'E'.toUInt8 ∧ isSign c = false ∧ startsNumber c = false :=
    forall_byte (by decide +kernel)
  exact hall c h

theorem minus_of_lowerByte (h : lowerByte c = '-'.toUInt8) : c = '-'.toUInt8 := by
  have hall : ∀ c, lowerByte c = '-'.toUInt8 → c = '-'.toUInt8 := forall_byte (by decide +kernel)
  exact hall c h

theorem constantText_letter (h : lowerByte c = 'n'.toUInt8 ∨ lowerByte c = 'i'.toUInt8)
    (s : Bytes) : constantText (c :: s) = none := by
  obtain ⟨hq, he, hs, hn⟩ := letter_plain h
  rw [constantText_bare hq he, dropSign, hs]
  simp [hn]

theorem constantText_numericWord (h : numericWord t) : constantText t = none := by
  simp only [numericWord, equalFold, Bool.or_eq_true, decide_eq_true_eq] at h
  rcases h with (h | h) | h
  · obtain ⟨c, s, rfl, hc, -⟩ := List.map_eq_cons_iff.mp h
    exact constantText_letter (.inl hc) s
  · obtain ⟨c, s, rfl, hc, -⟩ := List.map_eq_cons_iff.mp h
    exact constantText_letter (.inr hc) s
  · obtain ⟨c, s, rfl, hc, hs⟩ := List.map_eq_cons_iff.mp h
    obtain ⟨d, s, rfl, hd, -⟩ := List.map_eq_cons_iff.mp hs
    obtain rfl := minus_of_lowerByte hc
    rw [constantText_bare (by decide) (by decide)]
    change (if startsNumber d then _ else _) = _
    rw [(letter_plain (.inr hd)).2.2.2]
    rfl

theorem isValidNumeric_starts (h : isValidNumeric t) (hw : numericWord t = false) :
    (dropSign t).head?.any startsNumber := by
  unfold numericWord at hw
  unfold isValidNumeric at h
  rw [hw, Bool.false_or] at h
  have hsome := (Bool.and_eq_true_iff.mp h).1
  cases hb : dropSign t with
  | nil => simp [hb] at hsome
  | cons c s =>
    by_cases hd : isDigit c
    · simp [startsNumber, hd]
    · rw [hb, List.takeWhile_cons_of_neg hd, List.dropWhile_cons_of_neg hd] at hsome
      have hp : c = '.'.toUInt8 := by
        by_contra hp
        simp [hp] at hsome
      simp [startsNumber, hp]

theorem constantText_numeric (h : isValidNumeric t) (hw : numericWord t = false) :
    constantText t = some t := by
  have hstart := isValidNumeric_starts h hw
  cases t with
  | nil => cases hstart
  | cons c s =>
    have hc : c ≠ quote ∧ c ≠ 'E'.toUInt8 := by
      constructor
      · rintro rfl
        exact Bool.false_ne_true hstart
      · rintro rfl
        exact Bool.false_ne_true hstart
    rw [constantText_bare hc.1 hc.2, if_pos hstart]

end Numeric

section Values

variable [PgTypes]

open PgTypes

def denotes (oid : Nat) (lit : Bytes) : Option Value := (constantText lit).bind (textIn oid)

theorem denotes_escape (oid : Nat) (s : Bytes) :
    denotes oid (escapeStringLiteral s) = textIn oid (s.filter (· ≠ 0)) := by
  rw [denotes, constantText_escape]
  rfl

theorem denotes_bytea (s : Bytes) : denotes 17 (byteaLiteral s) = binaryIn 17 s := by
  rw [denotes, constantText_bytea]
  exact bytea_hex s

theorem filter_textIn (h : textIn oid t = some v) : t.filter (· ≠ 0) = t := by
  apply List.filter_eq_self.mpr
  intro c hc
  apply decide_eq_true
  rintro rfl
  exact textIn_nul oid t v h hc

theorem denotes_text (h : textIn oid t = some v) :
    denotes oid (escapeStringLiteral t) = some v := by
  rw [denotes_escape, filter_textIn h, h]

variable [CaseTable] [FloatFormat]

/-- The two encodings of the value become constants for it, as far as they are accepted. -/
structure SameValue (oid : Nat) (t b : Bytes) (v : Value) : Prop where
  agree : ∀ l l', paramToLiteral (some t) oid 0 = some l →
    paramToLiteral (some b) oid 1 = some l' → ∃ w, denotes oid l = some w ∧ denotes oid l' = some w
  text : ∀ l, paramToLiteral (some t) oid 0 = some l → denotes oid l = some v
  binary : ∀ l, paramToLiteral (some b) oid 1 = some l → denotes oid l = some v

/-- The encodings can be used as they are: the bytes of a `bytea` are its text, and for the other
types the binary form without its bytes 0 is a text of the value, which is a number in digits if
it is numeric. -/
def PlainEncoding (oid : Nat) (t b : Bytes) (v : Value) : Prop :=
  if oidKind oid = .bytea then t = b
  else textIn oid (b.filter (· ≠ 0)) = some v ∧
    (oidKind oid = .numeric → numericWord t = false)

theorem sameValue_iff : SameValue oid t b v ↔
    (∀ l, paramToLiteral (some t) oid 0 = some l → denotes oid l = some v) ∧
      ∀ l, paramToLiteral (some b) oid 1 = some l → denotes oid l = some v := by
  constructor
  · exact fun h => ⟨h.text, h.binary⟩
  · intro h
    exact ⟨fun l l' hl hl' => ⟨v, h.1 l hl, h.2 l' hl'⟩, h.1, h.2⟩

omit [CaseTable] [FloatFormat] [PgTypes] in
theorem oidKind_bytea (h : oidKind oid = .bytea) : oid = 17 := by
  grind [oidKind]

theorem text_denotes_iff (hkind : oidKind oid ∈ [.numeric, .bytea, .uuid, .text])
    (ht : textIn oid t = some v) (hb : binaryIn oid b = some v) :
    (∀ l, paramToLiteral (some t) oid 0 = some l → denotes oid l = some v) ↔
      (oidKind oid = .bytea → t = b) ∧ (oidKind oid = .numeric → numericWord t = false) := by
  change (∀ l, textParamToLiteral t oid = some l → _) ↔ _
  unfold textParamToLiteral
  cases hk : oidKind oid with
  | bytea =>
    obtain rfl := oidKind_bytea hk
    simp only [Option.some.injEq, forall_eq', denotes_bytea, true_implies, reduceCtorEq,
      false_implies, and_true, ← hb]
    exact ⟨bytea_inj t b, fun h => congrArg _ h⟩
  | numeric =>
    simp only [reduceCtorEq, false_implies, true_and, true_implies]
    constructor
    · intro h
      by_contra hw
      rw [Bool.not_eq_false] at hw
      have hvalid : isValidNumeric t := by
        unfold numericWord at hw
        unfold isValidNumeric
        rw [hw, Bool.true_or]
      have := h t (if_pos hvalid)
      rw [denotes, constantText_numericWord hw] at this
      cases this
    · intro hw l hl
      split at hl
      · rename_i hvalid
        cases hl
        rw [denotes, constantText_numeric hvalid hw]
        exact ht
      · cases hl
  | uuid =>
    simp only [reduceCtorEq, false_implies, and_true, iff_true]
    intro l hl
    split at hl
    · cases hl
      exact denotes_text ht
    · cases hl
  | text =>
    simp only [reduceCtorEq, false_implies, and_true, iff_true]
    intro l hl
    cases hl
    exact denotes_text ht
  | _ =>
    rw [hk] at hkind
    exact absurd hkind (by decide)

theorem binary_denotes_iff (hkind : oidKind oid ∈ [.numeric, .bytea, .uuid, .text])
    (hb : binaryIn oid b = some v) :
    (∀ l, paramToLiteral (some b) oid 1 = some l → denotes oid l = some v) ↔
      (oidKind oid ≠ .bytea → textIn oid (b.filter (· ≠ 0)) = some v) := by
  change (∀ l, binaryParamToLiteral b oid = some l → _) ↔ _
  unfold binaryParamToLiteral
  cases hk : oidKind oid with
  | bytea =>
    obtain rfl := oidKind_bytea hk
    simp [denotes_bytea, hb]
  | numeric | uuid | text =>
    simp only [Option.some.injEq, forall_eq', denotes_escape, ne_eq, reduceCtorEq,
      not_false_eq_true, true_implies]
  | _ =>
    rw [hk] at hkind
    exact absurd hkind (by decide)

omit [CaseTable] [FloatFormat] in
/-- Encodings of a type whose binary form is its text, as of `text`, `varchar` and `json`, are
plain. -/
theorem plainEncoding_of_textual (hkind : oidKind oid ∉ [.bytea, .numeric])
    (hsame : ∀ s, binaryIn oid s = textIn oid s) (hb : binaryIn oid b = some v) :
    PlainEncoding oid t b v := by
  rw [hsame] at hb
  simp only [List.mem_cons, List.not_mem_nil, or_false, not_or] at hkind
  rw [PlainEncoding, if_neg hkind.1, filter_textIn hb]
  exact ⟨hb, fun h => absurd h hkind.2⟩

omit [CaseTable] [FloatFormat] in
/-- Encodings of a type whose texts are all longer than its binary forms, as those of `uuid` are,
are never plain. -/
theorem not_plainEncoding_of_longer (hkind : oidKind oid ≠ .bytea)
    (htext : ∀ t v, textIn oid t = some v → n < t.length) (hb : b.length ≤ n) :
    ¬ PlainEncoding oid t b v := by
  rw [PlainEncoding, if_neg hkind]
  rintro ⟨h, -⟩
  have hlen := htext _ _ h
  have := List.length_filter_le (· ≠ 0) b
  omega

/-- The constants for the two encodings of a value stand for it exactly if the encodings are
plain. -/
theorem literals_same_value_iff (oid : Nat) (t b : Bytes) (v : Value)
    (hkind : oidKind oid ∈ [.numeric, .bytea, .uuid, .text])
    (ht : textIn oid t = some v) (hb : binaryIn oid b = some v) :
    SameValue oid t b v ↔ PlainEncoding oid t b v := by
  rw [sameValue_iff, text_denotes_iff hkind ht hb, binary_denotes_iff hkind hb, PlainEncoding]
  by_cases hk : oidKind oid = .bytea
  · simp [hk]
  · simp [hk, and_comm]

end Values

section Sample

def decodeHex : Bytes → Option Bytes
  | [] => some []
  | [_] => none
  | c :: d :: s =>
    if isHexDigit c && isHexDigit d then
      (decodeHex s).map ((hexValue c * 16 + hexValue d).toUInt8 :: ·)
    else none

theorem decodeHex_byte (c : UInt8) (s : Bytes) :
    decodeHex (hexNibble (c.toNat / 16) :: hexNibble (c.toNat % 16) :: s) =
      (decodeHex s).map (c :: ·) := by
  have hnibble : ∀ n < 16, isHexDigit (hexNibble n) ∧ hexValue (hexNibble n) = n := by
    decide
  have hc := c.toNat_lt
  have hhigh := hnibble (c.toNat / 16) (by omega)
  have hlow := hnibble (c.toNat % 16) (by omega)
  have hsum : c.toNat / 16 * 16 + c.toNat % 16 = c.toNat := by omega
  rw [decodeHex, hhigh.1, hlow.1, hhigh.2, hlow.2, hsum, show c.toNat.toUInt8 = c by simp]
  rfl

theorem decodeHex_encodeHex (s : Bytes) : decodeHex (encodeHex s) = some s := by
  induction s with
  | nil => rfl
  | cons c s ih =>
    change decodeHex (hexNibble (c.toNat / 16) :: hexNibble (c.toNat % 16) :: encodeHex s) = _
    rw [decodeHex_byte, ih]
    rfl

theorem zero_notMem_hexText (s : Bytes) : 0 ∉ ascii "\\x" ++ encodeHex s := by
  intro h
  rcases List.mem_append.mp h with h | h
  · exact absurd h (by decide)
  · have hall : ∀ n < 16, hexNibble n ≠ 0 := by decide
    obtain ⟨d, -, hc⟩ := List.mem_flatMap.mp h
    have hd := d.toNat_lt
    rcases List.mem_pair.mp hc with hc | hc
    · exact hall _ (by omega) hc.symm
    · exact hall _ (by omega) hc.symm

/-- A server with `bytea`, `uuid`, and types whose texts are their values. -/
@[reducible] def sampleTypes : PgTypes where
  Value := Bytes
  decEq := inferInstanceAs (DecidableEq Bytes)
  textIn oid t :=
    if 0 ∈ t then none
    else if oid = 17 then
      if hasPrefix t (ascii "\\x") then decodeHex (t.drop 2)
      else if backslash ∈ t then none else some t
    else if oid = 2950 then
      if isValidUUID t then decodeHex (t.filter (· ≠ '-'.toUInt8)) else none
    else some t
  binaryIn oid b :=
    if oid = 17 then some b
    else if oid = 2950 then if b.length = 16 then some b else none
    else if 0 ∈ b then none else some b
  textIn_nul oid t v h hm := by
    rw [if_pos hm] at h
    cases h
  bytea_inj s s' h := by
    rw [if_pos rfl, if_pos rfl] at h
    exact Option.some.inj h
  bytea_hex s := by
    have hpre : hasPrefix (ascii "\\x" ++ encodeHex s) (ascii "\\x") = true :=
      List.isPrefixOf_iff_prefix.mpr (List.prefix_append _ _)
    rw [if_neg (zero_notMem_hexText s), if_pos rfl, if_pos rfl, if_pos hpre]
    exact decodeHex_encodeHex s

def sampleUuid : Bytes := ascii "550e8400-e29b-41d4-a716-446655440000"

def sampleUuidBytes : Bytes :=
  [0x55, 0x0e, 0x84, 0x00, 0xe2, 0x9b, 0x41, 0xd4, 0xa7, 0x16, 0x44, 0x66, 0x55, 0x44, 0x00, 0x00]

/-- The hex text of a `bytea` becomes a constant for the characters of the text, and the bytes of
a `uuid` become a quoted string that is no `uuid`. -/
theorem hex_text_not_decoded :
    let _ := asciiExternal
    let _ := sampleTypes
    PgTypes.textIn 17 (ascii "\\x6869") = some (ascii "hi") ∧
      PgTypes.binaryIn 17 (ascii "hi") = some (ascii "hi") ∧
      paramToLiteral (some (ascii "\\x6869")) 17 0 = some (ascii "E'\\\\x5c7836383639'") ∧
      paramToLiteral (some (ascii "hi")) 17 1 = some (ascii "E'\\\\x6869'") ∧
      denotes 17 (ascii "E'\\\\x5c7836383639'") = some (ascii "\\x6869") ∧
      denotes 17 (ascii "E'\\\\x6869'") = some (ascii "hi") ∧
      PgTypes.textIn 2950 sampleUuid = some sampleUuidBytes ∧
      PgTypes.binaryIn 2950 sampleUuidBytes = some sampleUuidBytes ∧
      (paramToLiteral (some sampleUuid) 2950 0).bind (denotes 2950) = some sampleUuidBytes ∧
      (paramToLiteral (some sampleUuidBytes) 2950 1).isSome = true ∧
      (paramToLiteral (some sampleUuidBytes) 2950 1).bind (denotes 2950) = none := by
  decide +kernel

theorem text_same_value_iff :
    let _ := asciiExternal
    let _ := sampleTypes
    let t := ascii "it's"
    PgTypes.textIn 25 t = some t ∧ PgTypes.binaryIn 25 t = some t ∧
      (SameValue 25 t t t ↔ PlainEncoding 25 t t t) := by
  intro _ _ t
  have ht : PgTypes.textIn 25 t = some t := rfl
  have hb : PgTypes.binaryIn 25 t = some t := rfl
  exact ⟨ht, hb, literals_same_value_iff 25 t t t (by decide) ht hb⟩

end Sample

end Pgmux
