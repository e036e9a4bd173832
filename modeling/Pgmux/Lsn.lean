import Pgmux.Backend

namespace Pgmux

/-- The verb `%X`. -/
def upperHex (n : Nat) : Bytes := (Nat.toDigits 16 n).map fun c => c.toUpper.toUInt8

/-- `LSN.String`. -/
def lsnString (l : UInt64) : Bytes :=
  upperHex (l >>> 32).toUInt32.toNat ++ '/'.toUInt8 :: upperHex l.toUInt32.toNat

/-- A hexadecimal numeral below `2 ^ 32`. -/
def IsHex32 (h : Bytes) : Prop := h ≠ [] ∧ h.all isHexDigit ∧ digitsValue 16 h < 2 ^ 32

theorem upperHex_read (n : Nat) :
    upperHex n ≠ [] ∧ (upperHex n).all isHexDigit ∧ digitsValue 16 (upperHex n) = n := by
  induction n using Nat.strongRecOn with
  | ind n ih =>
    have hdigit : ∀ k < 16, upperHex k ≠ [] ∧ (upperHex k).all isHexDigit ∧
        digitsValue 16 (upperHex k) = k ∧ (upperHex k).length = 1 := by decide
    by_cases hn : n < 16
    · obtain ⟨hne, hall, hvalue, -⟩ := hdigit n hn
      exact ⟨hne, hall, hvalue⟩
    · -- The text is that of the quotient by 16 with the digit of the remainder behind it.
      have hmod := Nat.mod_lt n (show 0 < 16 by decide)
      have hstep : upperHex n = upperHex (n / 16) ++ upperHex (n % 16) := by
        rw [upperHex, Nat.toDigits_of_base_le (by decide) (Nat.le_of_not_lt hn), List.map_append,
          upperHex, upperHex, Nat.toDigits_of_lt_base hmod]
      obtain ⟨-, hall, hvalue, hlen⟩ := hdigit (n % 16) hmod
      obtain ⟨hne, hfront, hquot⟩ := ih (n / 16) (by omega)
      obtain ⟨d, hd⟩ := List.length_eq_one_iff.mp hlen
      rw [hd] at hall hvalue
      rw [hstep, hd]
      refine ⟨by simp, by rw [List.all_append, hfront, hall]; rfl, ?_⟩
      have hlast : hexValue d = n % 16 := by simpa [digitsValue] using hvalue
      rw [digitsValue] at hquot ⊢
      rw [List.foldl_concat, hquot, hlast]
      omega

theorem parseHex32_eq_some : parseHex32 h = some v ↔ IsHex32 h ∧ digitsValue 16 h = v := by
  simp [parseHex32, IsHex32]

theorem parseLSN_eq_some : parseLSN s = some v ↔ ∃ hi lo, s = hi ++ '/'.toUInt8 :: lo ∧
    IsHex32 hi ∧ IsHex32 lo ∧ v = digitsValue 16 hi * 2 ^ 32 + digitsValue 16 lo := by
  constructor
  · intro h
    have hs := List.takeWhile_append_dropWhile (p := (· ≠ '/'.toUInt8)) (l := s)
    unfold parseLSN at h
    split at h
    · cases h
    · rename_i c lo hd
      have hc : ¬ decide (c ≠ '/'.toUInt8) := by
        have := List.head?_dropWhile_not (· ≠ '/'.toUInt8) s
        simp only [hd, List.head?_cons] at this
        simpa using this
      obtain ⟨x, hx, h⟩ := Option.bind_eq_some_iff.mp h
      obtain ⟨y, hy, h⟩ := Option.bind_eq_some_iff.mp h
      obtain ⟨hhi, rfl⟩ := parseHex32_eq_some.mp hx
      obtain ⟨hlo, rfl⟩ := parseHex32_eq_some.mp hy
      rw [hd, show c = '/'.toUInt8 by simpa using hc] at hs
      exact ⟨_, lo, hs.symm, hhi, hlo, (Option.some.inj h).symm⟩
  · rintro ⟨hi, lo, rfl, hhi, hlo, rfl⟩
    have hall : ∀ c ∈ hi, decide (c ≠ '/'.toUInt8) := by
      intro c hc
      have hdigit := List.all_eq_true.mp hhi.2.1 c hc
      rw [decide_eq_true_iff]
      rintro rfl
      exact absurd hdigit (by decide)
    rw [parseLSN, List.dropWhile_append_of_pos hall, List.takeWhile_append_of_pos hall]
    simp [parseHex32_eq_some.mpr ⟨hhi, rfl⟩, parseHex32_eq_some.mpr ⟨hlo, rfl⟩]

/-- A number is read back from its text; what is read is two hexadecimal numerals of 32 bits with a
slash between, and the numbers that are read are ordered as the pairs of their numerals are. -/
theorem lsn_text_exact :
    (∀ l : UInt64, parseLSN (lsnString l) = some l.toNat) ∧
    (∀ s v, parseLSN s = some v ↔ ∃ hi lo, s = hi ++ '/'.toUInt8 :: lo ∧ IsHex32 hi ∧
      IsHex32 lo ∧ v = digitsValue 16 hi * 2 ^ 32 + digitsValue 16 lo) ∧
    ∀ s t v w, parseLSN s = some v → parseLSN t = some w → ∃ hi lo hi' lo',
      s = hi ++ '/'.toUInt8 :: lo ∧ t = hi' ++ '/'.toUInt8 :: lo' ∧
      (v < w ↔ digitsValue 16 hi < digitsValue 16 hi' ∨
        digitsValue 16 hi = digitsValue 16 hi' ∧ digitsValue 16 lo < digitsValue 16 lo') := by
  refine ⟨fun l => ?_, fun s v => parseLSN_eq_some, fun s t v w hv hw => ?_⟩
  · have hhex (n : UInt32) : IsHex32 (upperHex n.toNat) := by
      obtain ⟨hne, hall, hvalue⟩ := upperHex_read n.toNat
      exact ⟨hne, hall, hvalue.symm ▸ n.toNat_lt⟩
    refine parseLSN_eq_some.mpr ⟨_, _, rfl, hhex _, hhex _, ?_⟩
    have hlt := l.toNat_lt
    rw [(upperHex_read _).2.2, (upperHex_read _).2.2, UInt64.toNat_toUInt32, UInt64.toNat_toUInt32,
      UInt64.toNat_shiftRight, show (32 : UInt64).toNat % 64 = 32 from rfl,
      Nat.shiftRight_eq_div_pow]
    omega
  · obtain ⟨hi, lo, rfl, -, ⟨-, -, hlo⟩, rfl⟩ := parseLSN_eq_some.mp hv
    obtain ⟨hi', lo', rfl, -, ⟨-, -, hlo'⟩, rfl⟩ := parseLSN_eq_some.mp hw
    refine ⟨hi, lo, hi', lo', rfl, rfl, ?_⟩
    omega

end Pgmux
