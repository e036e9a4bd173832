import Pgmux.DecimalText
import Pgmux.Script

namespace Pgmux

section Shifts

variable {w : Nat}

def pushByte (v : BitVec w) (c : UInt8) : BitVec w := (v <<< 8) ||| c.toBitVec.setWidth w

theorem toNat_pushByte (hw : 8 ≤ w) (v : BitVec w) (c : UInt8) :
    (pushByte v c).toNat = (v.toNat * 256 + c.toNat) % 2 ^ w := by
  have hc : c.toNat < 2 ^ 8 := c.toNat_lt
  have hpow : 2 ^ w = 2 ^ (w - 8) * 2 ^ 8 := by
    rw [← Nat.pow_add]
    congr 1
    omega
  have hlt : c.toNat < 2 ^ w := by
    rw [hpow]
    exact Nat.lt_of_lt_of_le hc (Nat.le_mul_of_pos_left _ (Nat.two_pow_pos _))
  have hbyte : (c.toBitVec.setWidth w).toNat = c.toNat := by
    rw [BitVec.toNat_setWidth]
    exact Nat.mod_eq_of_lt hlt
  have hshift : (v <<< 8).toNat = (v.toNat % 2 ^ (w - 8)) <<< 8 := by
    rw [BitVec.toNat_shiftLeft, Nat.shiftLeft_eq, Nat.shiftLeft_eq, hpow, Nat.mul_mod_mul_right]
  have hsum : v.toNat % 2 ^ (w - 8) * 2 ^ 8 + c.toNat < 2 ^ w := by
    have hmod : v.toNat % 2 ^ (w - 8) < 2 ^ (w - 8) := Nat.mod_lt _ (Nat.two_pow_pos _)
    rw [hpow]
    omega
  rw [pushByte, BitVec.toNat_or, hshift, hbyte, ← Nat.shiftLeft_add_eq_or_of_lt hc,
    Nat.shiftLeft_eq, ← Nat.mod_eq_of_lt hsum, ← Nat.mul_mod_mul_right, ← hpow, Nat.mod_add_mod]
  rfl

theorem toNat_pushBytes (hw : 8 ≤ w) (data : Bytes) (v : BitVec w) (n : Nat)
    (hv : v.toNat = n % 2 ^ w) :
    (data.foldl pushByte v).toNat = data.foldl (fun n c => n * 256 + c.toNat) n % 2 ^ w := by
  induction data generalizing v n with
  | nil => exact hv
  | cons c data ih =>
    apply ih
    rw [toNat_pushByte hw, hv, Nat.add_mod, Nat.mod_mul_mod, ← Nat.add_mod]

theorem foldl_bigEndian_lt (data : Bytes) (n : Nat) :
    data.foldl (fun n c => n * 256 + c.toNat) n < (n + 1) * 256 ^ data.length := by
  induction data generalizing n with
  | nil => simp
  | cons c data ih =>
    have hc := c.toNat_lt
    calc (c :: data).foldl (fun n c => n * 256 + c.toNat) n
        < (n * 256 + c.toNat + 1) * 256 ^ data.length := ih _
      _ ≤ ((n + 1) * 256) * 256 ^ data.length := Nat.mul_le_mul_right _ (by omega)
      _ = (n + 1) * 256 ^ (c :: data).length := by
        rw [List.length_cons, Nat.pow_succ, Nat.mul_assoc, Nat.mul_comm 256]

theorem bigEndian_lt (data : Bytes) : bigEndian data < 256 ^ data.length := by
  have h := foldl_bigEndian_lt data 0
  rwa [Nat.zero_add, Nat.one_mul] at h

theorem toNat_pushBytes_zero (hw : 8 ≤ w) {data : Bytes} (hlen : 256 ^ data.length = 2 ^ w) :
    (data.foldl pushByte (0#w)).toNat = bigEndian data := by
  rw [toNat_pushBytes hw data (0#w) 0 (by simp)]
  apply Nat.mod_eq_of_lt
  rw [← hlen]
  exact bigEndian_lt data

theorem toInt_eq_signed (v : BitVec w) (hw : 0 < w) : v.toInt = signed w v.toNat := by
  have hpow : 2 ^ w = 2 * 2 ^ (w - 1) := by
    rw [← Nat.pow_succ']
    congr 1
    omega
  rw [BitVec.toInt_eq_toNat_cond, signed]
  by_cases h : v.toNat < 2 ^ (w - 1)
  · rw [if_pos h, if_pos (by omega)]
  · rw [if_neg h, if_neg (by omega)]
    rfl

theorem toInt_pushBytes (hw : 8 ≤ w) {data : Bytes} (hlen : 256 ^ data.length = 2 ^ w) :
    (data.foldl pushByte (0#w)).toInt = signed w (bigEndian data) := by
  rw [toInt_eq_signed _ (by omega), toNat_pushBytes_zero hw hlen]

end Shifts

section Values

theorem shiftedInt16_toBitVec (a b : UInt8) :
    (shiftedInt16 [a, b]).toBitVec = [a, b].foldl pushByte (0#16) := by
  simp [shiftedInt16, pushByte]

theorem shiftedInt32_toBitVec (a b c d : UInt8) :
    (shiftedInt32 [a, b, c, d]).toBitVec = [a, b, c, d].foldl pushByte (0#32) := by
  simp [shiftedInt32, pushByte, BitVec.shiftLeft_or_distrib, ← BitVec.shiftLeft_add]

theorem shiftedInt64_toBitVec (data : Bytes) :
    (shiftedInt64 data).toBitVec = data.foldl pushByte (0#64) := by
  have hfold (v : Int64) :
      (data.foldl (fun (v : Int64) c => (v <<< 8) ||| c.toUInt64.toInt64) v).toBitVec =
        data.foldl pushByte v.toBitVec := by
    induction data generalizing v with
    | nil => rfl
    | cons c data ih =>
      have hstep : ((v <<< 8) ||| c.toUInt64.toInt64).toBitVec = pushByte v.toBitVec c := by
        simp [pushByte]
      rw [List.foldl_cons, List.foldl_cons, ih, hstep]
  exact hfold 0

theorem shiftedInt16_toInt {data : Bytes} (h : data.length = 2) :
    (shiftedInt16 data).toInt = signed 16 (bigEndian data) := by
  rcases data with _ | ⟨a, _ | ⟨b, _ | ⟨c, data⟩⟩⟩
  all_goals simp only [List.length_cons, List.length_nil] at h
  all_goals try omega
  show (shiftedInt16 [a, b]).toBitVec.toInt = _
  rw [shiftedInt16_toBitVec, toInt_pushBytes (by decide) (by simp)]

theorem shiftedInt32_toInt {data : Bytes} (h : data.length = 4) :
    (shiftedInt32 data).toInt = signed 32 (bigEndian data) := by
  rcases data with _ | ⟨a, _ | ⟨b, _ | ⟨c, _ | ⟨d, _ | ⟨e, data⟩⟩⟩⟩⟩
  all_goals simp only [List.length_cons, List.length_nil] at h
  all_goals try omega
  show (shiftedInt32 [a, b, c, d]).toBitVec.toInt = _
  rw [shiftedInt32_toBitVec, toInt_pushBytes (by decide) (by simp)]

theorem shiftedInt64_toInt {data : Bytes} (h : data.length = 8) :
    (shiftedInt64 data).toInt = signed 64 (bigEndian data) := by
  show (shiftedInt64 data).toBitVec.toInt = _
  rw [shiftedInt64_toBitVec, toInt_pushBytes (by decide) (by rw [h]; decide)]

end Values

section Texts

/-- The decimal text of a number: a minus sign if it is negative, and digits without a leading
zero. -/
def Canonical (v : Int) (t : Bytes) : Prop :=
  ∃ digits : Bytes, t = (if v < 0 then ['-'.toUInt8] else []) ++ digits ∧ digits ≠ [] ∧
    digits.all isDigit = true ∧ (digits.head? = some '0'.toUInt8 → digits = ['0'.toUInt8]) ∧
    decimal digits = v.natAbs

theorem formatInt_canonical (v : Int) : Canonical v (formatInt v) := by
  obtain ⟨hne, hall⟩ := natText_digits v.natAbs
  refine ⟨natText v.natAbs, ?_, hne, hall, natText_head_zero, decimal_natText _⟩
  unfold formatInt
  split <;> rfl

/-- An optional sign and digits, with a value in the range of `int64`. -/
def IsInt64Text (s : Bytes) : Prop :=
  ∃ sign digits : Bytes, s = sign ++ digits ∧
    (sign = [] ∨ sign = ['+'.toUInt8] ∨ sign = ['-'.toUInt8]) ∧ digits ≠ [] ∧
    digits.all isDigit = true ∧
    -9223372036854775808 ≤
      (if sign = ['-'.toUInt8] then -(decimal digits : Int) else decimal digits) ∧
    (if sign = ['-'.toUInt8] then -(decimal digits : Int) else decimal digits) ≤ 9223372036854775807

theorem dropSign_digits {digits : Bytes} (hall : digits.all isDigit) :
    dropSign digits = digits := by
  cases digits with
  | nil => rfl
  | cons c digits =>
    have hc : isDigit c := by
      rw [List.all_cons, Bool.and_eq_true] at hall
      exact hall.1
    have hall : ∀ c, isDigit c → isSign c = false := forall_byte (by decide +kernel)
    rw [dropSign, hall c hc]
    rfl

theorem head_digits {digits : Bytes} (hall : digits.all isDigit) :
    digits.head? ≠ some '-'.toUInt8 := by
  cases digits with
  | nil => simp
  | cons c digits =>
    intro h
    rw [Option.some.inj h, List.all_cons, Bool.and_eq_true] at hall
    exact absurd hall.1 (by decide)

theorem parsesInt64_eq (s : Bytes) : parsesInt64 s ↔
    dropSign s ≠ [] ∧ (dropSign s).all isDigit ∧
      (decimal (dropSign s) < 9223372036854775808 ∨
        s.head? = some '-'.toUInt8 ∧ decimal (dropSign s) = 9223372036854775808) := by
  simp [parsesInt64, and_assoc]

theorem parsesInt64_iff (s : Bytes) : parsesInt64 s ↔ IsInt64Text s := by
  rw [parsesInt64_eq]
  constructor
  · rintro ⟨hne, hall, hrange⟩
    cases s with
    | nil => exact absurd rfl hne
    | cons c t =>
      by_cases hsign : isSign c
      · have hdrop : dropSign (c :: t) = t := if_pos hsign
        rw [hdrop] at hne hall hrange
        have hc : [c] = ['+'.toUInt8] ∨ [c] = ['-'.toUInt8] := by
          simpa [isSign] using hsign
        refine ⟨[c], t, rfl, .inr hc, hne, hall, ?_⟩
        simp only [List.head?_cons, Option.some.injEq] at hrange
        simp only [List.cons.injEq, and_true]
        by_cases hminus : c = '-'.toUInt8
        · rw [if_pos hminus]
          omega
        · rw [if_neg hminus]
          have hpos := hrange.resolve_right fun h => hminus h.1
          omega
      · have hdrop : dropSign (c :: t) = c :: t := if_neg hsign
        rw [hdrop] at hne hall hrange
        have hpos := hrange.resolve_right fun h => head_digits hall h.1
        refine ⟨[], c :: t, rfl, .inl rfl, hne, hall, ?_⟩
        rw [if_neg (by simp)]
        omega
  · rintro ⟨sign, digits, rfl, hsign, hne, hall, hrange⟩
    have hdrop : dropSign (sign ++ digits) = digits := by
      rcases hsign with rfl | rfl | rfl
      · exact dropSign_digits hall
      · rfl
      · rfl
    rw [hdrop]
    refine ⟨hne, hall, ?_⟩
    rcases hsign with rfl | rfl | rfl
    · rw [if_neg (by simp)] at hrange
      omega
    · rw [if_neg (by decide)] at hrange
      omega
    · rw [if_pos rfl] at hrange
      have hhead : (['-'.toUInt8] ++ digits).head? = some '-'.toUInt8 := rfl
      rw [hhead]
      simp only [true_and]
      omega

theorem signed_bounds (h : n < 2 ^ w) (hw : 0 < w) :
    -(2 ^ (w - 1) : Nat) ≤ signed w n ∧ signed w n < (2 ^ (w - 1) : Nat) := by
  have hpow : 2 ^ w = 2 * 2 ^ (w - 1) := by
    rw [← Nat.pow_succ']
    congr 1
    omega
  have hcast : (2 : Int) ^ w = ((2 ^ w : Nat) : Int) := by push_cast; rfl
  unfold signed
  split
  · omega
  · rw [hcast]
    omega

def intWidth (oid : Nat) : Option Nat :=
  if oid = 21 then some 2 else if oid = 23 then some 4 else if oid = 20 then some 8 else none

theorem intWidth_cases (h : intWidth oid = some width) :
    (oid = 21 ∧ width = 2) ∨ (oid = 23 ∧ width = 4) ∨ (oid = 20 ∧ width = 8) := by
  unfold intWidth at h
  split at h
  · cases h
    exact .inl ⟨‹_›, rfl⟩
  · split at h
    · cases h
      exact .inr (.inl ⟨‹_›, rfl⟩)
    · split at h
      · cases h
        exact .inr (.inr ⟨‹_›, rfl⟩)
      · cases h

theorem isInt64Text_formatInt (hlow : -9223372036854775808 ≤ v) (hhigh : v < 9223372036854775808) :
    IsInt64Text (formatInt v) := by
  obtain ⟨digits, ht, hne, hall, -, hval⟩ := formatInt_canonical v
  refine ⟨_, digits, ht, ?_, hne, hall, ?_⟩
  · split
    · exact .inr (.inr rfl)
    · exact .inl rfl
  · by_cases hv : v < 0
    · rw [if_pos hv, if_pos rfl]
      omega
    · rw [if_neg hv, if_neg (by simp)]
      omega

theorem signed_int64 (hoid : intWidth oid = some width) {b : Bytes} (hb : b.length = width) :
    -9223372036854775808 ≤ signed (8 * width) (bigEndian b) ∧
      signed (8 * width) (bigEndian b) < 9223372036854775808 := by
  have hlt := bigEndian_lt b
  rw [hb] at hlt
  rcases intWidth_cases hoid with ⟨-, rfl⟩ | ⟨-, rfl⟩ | ⟨-, rfl⟩
  · have h := signed_bounds (w := 8 * 2) (n := bigEndian b) (by omega) (by decide)
    omega
  · have h := signed_bounds (w := 8 * 4) (n := bigEndian b) (by omega) (by decide)
    omega
  · have h := signed_bounds (w := 8 * 8) (n := bigEndian b) (by omega) (by decide)
    omega

end Texts

section Params

variable [CaseTable] [FloatFormat]

omit [CaseTable] in
theorem binaryParamToLiteral_int (hoid : intWidth oid = some width) (b : Bytes) :
    binaryParamToLiteral b oid =
      if b.length = width then some (formatInt (signed (8 * width) (bigEndian b))) else none := by
  rcases intWidth_cases hoid with ⟨rfl, rfl⟩ | ⟨rfl, rfl⟩ | ⟨rfl, rfl⟩
  · show (if b.length = 2 then some (formatInt (shiftedInt16 b).toInt) else none) = _
    split
    · rename_i h
      rw [shiftedInt16_toInt h]
    · rfl
  · show (if b.length = 4 then some (formatInt (shiftedInt32 b).toInt) else none) = _
    split
    · rename_i h
      rw [shiftedInt32_toInt h]
    · rfl
  · show (if b.length = 8 then some (formatInt (shiftedInt64 b).toInt) else none) = _
    split
    · rename_i h
      rw [shiftedInt64_toInt h]
    · rfl

omit [FloatFormat] in
theorem textParamToLiteral_int (hoid : intWidth oid = some width) (s : Bytes) :
    textParamToLiteral s oid = if parsesInt64 s then some s else none := by
  rcases intWidth_cases hoid with ⟨rfl, rfl⟩ | ⟨rfl, rfl⟩ | ⟨rfl, rfl⟩
  · rfl
  · rfl
  · rfl

/-- The binary format of an integer type takes strings of the type's length to the decimal text of
their two's-complement value, which the text format keeps; the text format takes the signed decimal
texts of 64 bits. -/
theorem integer_params_exact {formatCode : Int} (hoid : intWidth oid = some width)
    (htext : formatCode ≠ 1) :
    (∀ b, (paramToLiteral (some b) oid 1).isSome = true ↔ b.length = width) ∧
    (∀ b, b.length = width → ∃ text, paramToLiteral (some b) oid 1 = some text ∧
      Canonical (signed (8 * width) (bigEndian b)) text ∧
      paramToLiteral (some text) oid formatCode = some text) ∧
    ∀ s, (IsInt64Text s → paramToLiteral (some s) oid formatCode = some s) ∧
      (¬ IsInt64Text s → paramToLiteral (some s) oid formatCode = none) := by
  have hbinary (b : Bytes) : paramToLiteral (some b) oid 1 =
      if b.length = width then some (formatInt (signed (8 * width) (bigEndian b))) else none := by
    rw [paramToLiteral, if_pos rfl, binaryParamToLiteral_int hoid]
  have haccept (s : Bytes) : paramToLiteral (some s) oid formatCode =
      if parsesInt64 s then some s else none := by
    rw [paramToLiteral, if_neg htext, textParamToLiteral_int hoid]
  refine ⟨?_, ?_, ?_⟩
  · intro b
    rw [hbinary]
    split <;> simp [*]
  · intro b hb
    obtain ⟨hlow, hhigh⟩ := signed_int64 hoid hb
    refine ⟨_, by rw [hbinary, if_pos hb], formatInt_canonical _, ?_⟩
    rw [haccept, if_pos ((parsesInt64_iff _).mpr (isInt64Text_formatInt hlow hhigh))]
  · intro s
    rw [haccept, ← parsesInt64_iff]
    constructor
    · intro h
      rw [if_pos h]
    · intro h
      rw [if_neg h]

end Params

/-- The smallest int2 in the binary format. -/
theorem int2_minimum : ∃ _ : External,
    (∀ b, (paramToLiteral (some b) 21 1).isSome = true ↔ b.length = 2) ∧
    (∀ b, b.length = 2 → ∃ text, paramToLiteral (some b) 21 1 = some text ∧
      Canonical (signed (8 * 2) (bigEndian b)) text ∧ paramToLiteral (some text) 21 0 = some text) ∧
    (∀ s, (IsInt64Text s → paramToLiteral (some s) 21 0 = some s) ∧
      (¬ IsInt64Text s → paramToLiteral (some s) 21 0 = none)) ∧
    paramToLiteral (some [0x80, 0]) 21 1 = some (ascii "-32768") := by
  let _ := asciiExternal
  have hoid : intWidth 21 = some 2 := rfl
  obtain ⟨hbinary, hvalue, htext⟩ := integer_params_exact hoid (by decide : (0 : Int) ≠ 1)
  exact ⟨asciiExternal, hbinary, hvalue, htext, by decide +kernel⟩

end Pgmux
