import Pgmux.Json
import Pgmux.Utf8

namespace Pgmux

/-- The runes of a string as `utf8.DecodeRune` finds them; `none` is a byte that is no UTF-8. -/
def decoded : Bytes → List (Option Nat)
  | [] => []
  | [c] => [if c < 0x80 then some c.toNat else none]
  | [c, d] =>
    if c < 0x80 then some c.toNat :: decoded [d]
    else match rune2 c d with
      | some r => [some r]
      | none => none :: decoded [d]
  | [c, d, e] =>
    if c < 0x80 then some c.toNat :: decoded [d, e]
    else match rune2 c d, rune3 c d e with
      | some r, _ => some r :: decoded [e]
      | none, some r => [some r]
      | none, none => none :: decoded [d, e]
  | c :: d :: e :: f :: s =>
    if c < 0x80 then some c.toNat :: decoded (d :: e :: f :: s)
    else match rune2 c d, rune3 c d e, rune4 c d e f with
      | some r, _, _ => some r :: decoded (e :: f :: s)
      | none, some r, _ => some r :: decoded (f :: s)
      | none, none, some r => some r :: decoded s
      | none, none, none => none :: decoded (d :: e :: f :: s)

def ValidUtf8 (s : Bytes) : Prop := none ∉ decoded s

def hexByte (n : Nat) : UInt8 := if n < 10 then (48 + n).toUInt8 else (87 + n).toUInt8

/-- An ASCII byte in a JSON string, with the characters of HTML escaped. -/
def escapeByte (c : UInt8) : Bytes :=
  if c = 34 ∨ c = 92 then [92, c]
  else if c = 8 then ascii "\\b"
  else if c = 12 then ascii "\\f"
  else if c = 10 then ascii "\\n"
  else if c = 13 then ascii "\\r"
  else if c = 9 then ascii "\\t"
  else if c < 0x20 ∨ c = '<'.toUInt8 ∨ c = '>'.toUInt8 ∨ c = '&'.toUInt8 then
    ascii "\\u00" ++ [hexByte (c.toNat / 16), hexByte (c.toNat % 16)]
  else [c]

def escapeRune : Option Nat → Bytes
  | none => ascii "\\ufffd"
  | some r =>
    if r < 0x80 then escapeByte r.toUInt8
    else if r = 0x2028 ∨ r = 0x2029 then ascii "\\u202" ++ [hexByte (r % 16)]
    else encodeRune r

/-- What `appendString` of `encoding/json` writes between the quotes. -/
def escape (s : Bytes) : Bytes := (decoded s).flatMap escapeRune

def hexDigitValue (r : Nat) : Option Nat :=
  if 48 ≤ r ∧ r ≤ 57 then some (r - 48)
  else if 97 ≤ r ∧ r ≤ 102 then some (r - 87)
  else if 65 ≤ r ∧ r ≤ 70 then some (r - 55)
  else none

/-- The rune of the escape with four hexadecimal digits; halves of surrogate pairs, which are never
written, are left out. -/
def hex4 (a b c d : Nat) : Option Nat := do
  let r := (((← hexDigitValue a) * 16 + (← hexDigitValue b)) * 16 + (← hexDigitValue c)) * 16 +
    (← hexDigitValue d)
  if 0xD800 ≤ r ∧ r ≤ 0xDFFF then none else some r

def charEscape (r : Nat) : Option Nat :=
  if r = 34 ∨ r = 92 ∨ r = 47 ∨ r = 39 then some r
  else if r = 98 then some 8
  else if r = 102 then some 12
  else if r = 110 then some 10
  else if r = 114 then some 13
  else if r = 116 then some 9
  else none

/-- The runes that the runes between the quotes stand for. -/
def unescape : List Nat → Option (List Nat)
  | [] => some []
  | [r] => if r = 34 ∨ r = 92 ∨ r < 0x20 then none else some [r]
  | r :: e :: s =>
    if r = 92 then
      if e = 117 then
        match s with
        | a :: b :: c :: d :: s => (hex4 a b c d).bind fun x => (unescape s).map (x :: ·)
        | _ => none
      else (charEscape e).bind fun x => (unescape s).map (x :: ·)
    else if r = 34 ∨ r < 0x20 then none
    else (unescape (e :: s)).map (r :: ·)

/-- `unquote` of `encoding/json`. -/
def unquote (raw : Bytes) : Option Bytes :=
  (unescape (runes raw)).map fun rs => rs.flatMap encodeRune

theorem decoded_ascii (h : c < 0x80) (s : Bytes) :
    decoded (c :: s) = some c.toNat :: decoded s := by
  rcases s with _ | ⟨d, _ | ⟨e, _ | ⟨f, s⟩⟩⟩ <;> simp [decoded, h]

theorem decoded_multibyte (h : ¬ c < 0x80) (s : Bytes) : decoded (c :: s) =
    match multibyte c s with
    | some (r, t) => some r :: decoded t
    | none => none :: decoded s := by
  rcases s with _ | ⟨d, _ | ⟨e, _ | ⟨f, s⟩⟩⟩
  · simp [decoded, multibyte, h]
  · cases h₂ : rune2 c d <;> simp [decoded, multibyte, h, h₂]
  · cases h₂ : rune2 c d <;> cases h₃ : rune3 c d e <;> simp [decoded, multibyte, h, h₂, h₃]
  · cases h₂ : rune2 c d <;> cases h₃ : rune3 c d e <;> cases h₄ : rune4 c d e f <;>
      simp [decoded, multibyte, h, h₂, h₃, h₄]

theorem decode_induction {P : Bytes → Prop} (nil : P [])
    (ascii : ∀ c s, c < 0x80 → P s → P (c :: s))
    (rune : ∀ c s r t, ¬ c < 0x80 → multibyte c s = some (r, t) → P t → P (c :: s))
    (invalid : ∀ c s, ¬ c < 0x80 → multibyte c s = none → P s → P (c :: s)) (s : Bytes) : P s := by
  induction hn : s.length using Nat.strong_induction_on generalizing s with
  | h n ih =>
    cases s with
    | nil => exact nil
    | cons c s =>
      have htail : P s := ih s.length (by rw [← hn]; exact Nat.lt_succ_self _) s rfl
      by_cases hc : c < 0x80
      · exact ascii c s hc htail
      · cases hm : multibyte c s with
        | none => exact invalid c s hc hm htail
        | some p =>
          have hlen := multibyte_length hm
          exact rune c s p.1 p.2 hc hm
            (ih p.2.length (by rw [← hn, List.length_cons]; omega) p.2 rfl)

theorem runes_decoded (s : Bytes) : runes s = (decoded s).map (·.getD runeError) := by
  induction s using decode_induction with
  | nil => rfl
  | ascii c s hc ih => rw [runes_ascii hc, decoded_ascii hc, List.map_cons, ih]; rfl
  | rune c s r t hc hm ih => rw [runes_multibyte hc, decoded_multibyte hc, hm]; simp [ih]
  | invalid c s hc hm ih => rw [runes_multibyte hc, decoded_multibyte hc, hm]; simp [ih]

def IsScalar (r : Nat) : Prop := r < 0xD800 ∨ (0xDFFF < r ∧ r ≤ 0x10FFFF)

theorem isScalar_of_rune3 (h : rune3 c d e = some r) : IsScalar r := by
  unfold rune3 at h
  split at h
  · rename_i hc
    simp only [Bool.and_eq_true, Bool.or_eq_true, decide_eq_true_eq, isCont_iff, beq_iff_eq,
      UInt8.le_iff_toNat_le, ← UInt8.toNat_inj] at hc
    have hr := Option.some.inj h
    have hlt := UInt8.toNat_lt c
    simp at hc
    unfold IsScalar
    omega
  · cases h

theorem isScalar_of_rune4 (h : rune4 c d e f = some r) : IsScalar r := by
  unfold rune4 at h
  split at h
  · rename_i hc
    simp only [Bool.and_eq_true, Bool.or_eq_true, decide_eq_true_eq, isCont_iff, beq_iff_eq,
      UInt8.le_iff_toNat_le, ← UInt8.toNat_inj] at hc
    have hr := Option.some.inj h
    simp at hc
    unfold IsScalar
    omega
  · cases h

theorem isScalar_of_multibyte (h : multibyte c s = some (r, t)) : IsScalar r ∧ 0x80 ≤ r := by
  rcases multibyte_cases h with ⟨d, rfl, hr⟩ | ⟨d, e, rfl, hr⟩ | ⟨d, e, f, rfl, hr⟩
  · have hb := rune2_bounds hr
    unfold IsScalar
    omega
  · have hb := rune3_bounds hr
    exact ⟨isScalar_of_rune3 hr, by omega⟩
  · have hb := rune4_bounds hr
    exact ⟨isScalar_of_rune4 hr, by omega⟩

theorem isScalar_of_mem (h : some r ∈ decoded s) : IsScalar r := by
  induction s using decode_induction with
  | nil => cases h
  | ascii c s hc ih =>
    rw [decoded_ascii hc] at h
    rcases List.mem_cons.mp h with h | h
    · have hlt : c.toNat < 128 := hc
      rw [Option.some.inj h]
      exact .inl (by omega)
    · exact ih h
  | rune c s x t hc hm ih =>
    rw [decoded_multibyte hc, hm] at h
    rcases List.mem_cons.mp h with h | h
    · rw [Option.some.inj h]
      exact (isScalar_of_multibyte hm).1
    · exact ih h
  | invalid c s hc hm ih =>
    rw [decoded_multibyte hc, hm] at h
    rcases List.mem_cons.mp h with h | h
    · cases h
    · exact ih h

theorem toNat_toUInt8 (h : k < 256) : k.toUInt8.toNat = k := by
  rw [Nat.toUInt8_eq, UInt8.toNat_ofNat', Nat.mod_eq_of_lt h]

theorem rune2_encode (h : 0x80 ≤ r) (h' : r < 0x800) :
    rune2 (0xC0 + r / 64).toUInt8 (0x80 + r % 64).toUInt8 = some r := by
  have hc := toNat_toUInt8 (k := 0xC0 + r / 64) (by omega)
  have hd := toNat_toUInt8 (k := 0x80 + r % 64) (by omega)
  unfold rune2
  rw [if_pos]
  · rw [hc, hd]
    congr 1
    omega
  · simp only [Bool.and_eq_true, decide_eq_true_eq, isCont_iff, UInt8.le_iff_toNat_le, hc, hd]
    simp
    omega

theorem rune3_encode (h : IsScalar r) (h' : 0x800 ≤ r) (h'' : r < 0x10000) :
    rune3 (0xE0 + r / 4096).toUInt8 (0x80 + r / 64 % 64).toUInt8 (0x80 + r % 64).toUInt8 =
      some r := by
  have hc := toNat_toUInt8 (k := 0xE0 + r / 4096) (by omega)
  have hd := toNat_toUInt8 (k := 0x80 + r / 64 % 64) (by omega)
  have he := toNat_toUInt8 (k := 0x80 + r % 64) (by omega)
  unfold IsScalar at h
  unfold rune3
  rw [if_pos]
  · rw [hc, hd, he]
    congr 1
    omega
  · simp only [Bool.and_eq_true, Bool.or_eq_true, decide_eq_true_eq, isCont_iff, beq_iff_eq,
      UInt8.le_iff_toNat_le, ← UInt8.toNat_inj, hc, hd, he]
    simp
    omega

theorem rune4_encode (h : r ≤ 0x10FFFF) (h' : 0x10000 ≤ r) :
    rune4 (0xF0 + r / 262144).toUInt8 (0x80 + r / 4096 % 64).toUInt8 (0x80 + r / 64 % 64).toUInt8
      (0x80 + r % 64).toUInt8 = some r := by
  have hc := toNat_toUInt8 (k := 0xF0 + r / 262144) (by omega)
  have hd := toNat_toUInt8 (k := 0x80 + r / 4096 % 64) (by omega)
  have he := toNat_toUInt8 (k := 0x80 + r / 64 % 64) (by omega)
  have hf := toNat_toUInt8 (k := 0x80 + r % 64) (by omega)
  unfold rune4
  rw [if_pos]
  · rw [hc, hd, he, hf]
    congr 1
    omega
  · simp only [Bool.and_eq_true, Bool.or_eq_true, decide_eq_true_eq, isCont_iff, beq_iff_eq,
      UInt8.le_iff_toNat_le, ← UInt8.toNat_inj, hc, hd, he, hf]
    simp
    omega

theorem decoded_rune (hc : 0x80 ≤ c.toNat) (hm : multibyte c s = some (r, t)) :
    decoded (c :: s) = some r :: decoded t := by
  have hlt : ¬ c < 0x80 := fun h => absurd (UInt8.lt_iff_toNat_lt.mp h) (by simpa using hc)
  rw [decoded_multibyte hlt, hm]

theorem decoded_encodeRune (h : IsScalar r) (t : Bytes) :
    decoded (encodeRune r ++ t) = some r :: decoded t := by
  unfold encodeRune
  split
  · rename_i hr
    have hc := toNat_toUInt8 (k := r) (by omega)
    have hlt : r.toUInt8 < 0x80 := UInt8.lt_iff_toNat_lt.mpr (by rw [hc]; exact hr)
    rw [List.singleton_append, decoded_ascii hlt, hc]
  rename_i hsmall
  split
  · have hc := toNat_toUInt8 (k := 0xC0 + r / 64) (by omega)
    exact decoded_rune (by omega) (multibyte_rune2 (rune2_encode (by omega) (by omega)) t)
  rename_i htwo
  rw [if_neg]
  swap
  · unfold IsScalar at h
    simp only [Bool.or_eq_true, Bool.and_eq_true, decide_eq_true_eq]
    omega
  split
  · have hc := toNat_toUInt8 (k := 0xE0 + r / 4096) (by omega)
    exact decoded_rune (by omega) (multibyte_rune3 (rune3_encode h (by omega) (by omega)) t)
  · have hmax : r ≤ 0x10FFFF := by
      unfold IsScalar at h
      omega
    have hc := toNat_toUInt8 (k := 0xF0 + r / 262144) (by omega)
    exact decoded_rune (by omega) (multibyte_rune4 (rune4_encode hmax (by omega)) t)

structure StandsFor (u : Bytes) (r : Nat) : Prop where
  raw : Json.Raw u
  read : ∀ t, unescape (runes (u ++ t)) = (unescape (runes t)).map (r :: ·)

theorem unescape_plain (h : ¬ (r = 34 ∨ r = 92 ∨ r < 0x20)) (rs : List Nat) :
    unescape (r :: rs) = (unescape rs).map (r :: ·) := by
  rw [not_or, not_or] at h
  rcases rs with _ | ⟨e, _ | ⟨a, _ | ⟨b, _ | ⟨c, _ | ⟨d, s⟩⟩⟩⟩⟩ <;> simp [unescape, h]

theorem unescape_char (he : e ≠ 117) (hr : charEscape e = some r) (rs : List Nat) :
    unescape (92 :: e :: rs) = (unescape rs).map (r :: ·) := by
  rcases rs with _ | ⟨a, _ | ⟨b, _ | ⟨c, _ | ⟨d, s⟩⟩⟩⟩ <;> simp [unescape, he, hr]

theorem unescape_hex (hr : hex4 a b c d = some r) (rs : List Nat) :
    unescape (92 :: 117 :: a :: b :: c :: d :: rs) = (unescape rs).map (r :: ·) := by
  simp [unescape, hr]

def escapes (u : Bytes) (r : Nat) : Bool :=
  match u with
  | [c] => c < 0x80 && c != 34 && c != 92 && !(c < 0x20) && c.toNat == r
  | [x, e] => x == 92 && e < 0x80 && e != 117 && charEscape e.toNat == some r
  | [x, y, a, b, c, d] => x == 92 && y == 117 && [a, b, c, d].all (fun e => e < 0x80) &&
      hex4 a.toNat b.toNat c.toNat d.toNat == some r
  | _ => false

theorem plain_of_hexDigitValue {c : UInt8} (h : (hexDigitValue c.toNat).isSome = true) :
    c ≠ 34 ∧ c ≠ 92 ∧ ¬ c < 0x20 := by
  refine ⟨?_, ?_, ?_⟩
  · rintro rfl
    exact absurd h (by decide)
  · rintro rfl
    exact absurd h (by decide)
  · intro hlt
    have hc : c.toNat < 32 := hlt
    unfold hexDigitValue at h
    rw [if_neg (by omega), if_neg (by omega), if_neg (by omega)] at h
    cases h

theorem hex4_digits (h : hex4 a b c d = some r) : (hexDigitValue a).isSome = true ∧
    (hexDigitValue b).isSome = true ∧ (hexDigitValue c).isSome = true ∧
    (hexDigitValue d).isSome = true := by
  unfold hex4 at h
  cases ha : hexDigitValue a <;> cases hb : hexDigitValue b <;> cases hc : hexDigitValue c <;>
    cases hd : hexDigitValue d <;> simp [ha, hb, hc, hd] at h ⊢

theorem standsFor_of_escapes (h : escapes u r) : StandsFor u r := by
  unfold escapes at h
  split at h
  · rename_i c
    simp only [Bool.and_eq_true, decide_eq_true_eq, bne_iff_ne, Bool.not_eq_true', beq_iff_eq,
      decide_eq_false_iff_not] at h
    obtain ⟨⟨⟨⟨hc, h₁⟩, h₂⟩, h₃⟩, rfl⟩ := h
    refine ⟨.plain h₁ h₂ h₃ .nil, fun t => ?_⟩
    rw [List.singleton_append, runes_ascii hc]
    apply unescape_plain
    rintro (he | he | he)
    · exact h₁ (UInt8.toNat_inj.mp he)
    · exact h₂ (UInt8.toNat_inj.mp he)
    · exact h₃ (UInt8.lt_iff_toNat_lt.mpr he)
  · rename_i x e
    simp only [Bool.and_eq_true, decide_eq_true_eq, bne_iff_ne, beq_iff_eq] at h
    obtain ⟨⟨⟨rfl, he⟩, hu⟩, hr⟩ := h
    refine ⟨.escape .nil, fun t => ?_⟩
    rw [List.cons_append, List.singleton_append, runes_ascii (by decide), runes_ascii he]
    exact unescape_char (fun hn => hu (UInt8.toNat_inj.mp hn)) hr _
  · rename_i x y a b c d
    simp only [Bool.and_eq_true, List.all_eq_true, decide_eq_true_eq, beq_iff_eq] at h
    obtain ⟨⟨⟨rfl, rfl⟩, hall⟩, hr⟩ := h
    have ha := hall a (by simp)
    have hb := hall b (by simp)
    have hc := hall c (by simp)
    have hd := hall d (by simp)
    obtain ⟨pa, pb, pc, pd⟩ := hex4_digits hr
    constructor
    · have plain {c : UInt8} {r : Bytes} (hc : (hexDigitValue c.toNat).isSome = true)
          (hr : Json.Raw r) : Json.Raw (c :: r) := by
        obtain ⟨h₁, h₂, h₃⟩ := plain_of_hexDigitValue hc
        exact .plain h₁ h₂ h₃ hr
      exact .escape (plain pa (plain pb (plain pc (plain pd .nil))))
    · intro t
      simp only [List.cons_append, List.nil_append]
      rw [runes_ascii (by decide), runes_ascii (by decide), runes_ascii ha, runes_ascii hb,
        runes_ascii hc, runes_ascii hd]
      exact unescape_hex hr _
  · cases h

theorem standsFor_ascii (h : r < 0x80) : StandsFor (escapeByte r.toUInt8) r := by
  have hall : ∀ r < 0x80, escapes (escapeByte r.toUInt8) r := by decide +kernel
  exact standsFor_of_escapes (hall r h)

theorem encodeRune_bytes (h : 0x80 ≤ r) (hc : c ∈ encodeRune r) : ¬ c < 0x80 := by
  obtain ⟨d, s, hd⟩ := List.exists_cons_of_ne_nil (encodeRune_ne_nil r)
  rw [hd] at hc
  rcases List.mem_cons.mp hc with rfl | hc
  · intro hlt
    exact absurd (encodeRune_ascii hd hlt) (by omega)
  · exact encodeRune_tail hd hc

theorem raw_of_bytes (h : ∀ c ∈ u, ¬ c < 0x80) : Json.Raw u := by
  induction u with
  | nil => exact .nil
  | cons c u ih =>
    have hc := h c (.head _)
    refine .plain ?_ ?_ ?_ (ih fun d hd => h d (List.mem_cons_of_mem c hd))
    · rintro rfl
      exact hc (by decide)
    · rintro rfl
      exact hc (by decide)
    · exact fun hlt => hc (UInt8.lt_trans hlt (by decide))

theorem runes_encodeRune (h : IsScalar r) (t : Bytes) :
    runes (encodeRune r ++ t) = r :: runes t := by
  rw [runes_decoded, decoded_encodeRune h, List.map_cons, ← runes_decoded]
  rfl

theorem standsFor_rune (h : IsScalar r) (hr : 0x80 ≤ r) : StandsFor (encodeRune r) r := by
  refine ⟨raw_of_bytes fun c hc => encodeRune_bytes hr hc, fun t => ?_⟩
  rw [runes_encodeRune h]
  exact unescape_plain (by omega) _

/-- What is written for a rune stands for it, and for a byte that is no UTF-8 the replacement
character does. -/
theorem standsFor_escapeRune (h : ∀ r ∈ x, IsScalar r) :
    StandsFor (escapeRune x) (x.getD runeError) := by
  cases x with
  | none => exact standsFor_of_escapes (by decide)
  | some r =>
    rw [escapeRune]
    split
    · rename_i hr
      exact standsFor_ascii hr
    split
    · rename_i hr
      rcases hr with rfl | rfl <;> exact standsFor_of_escapes (by decide)
    · rename_i hr _
      exact standsFor_rune (h r rfl) (by omega)

theorem raw_escapeRunes {xs : List (Option Nat)} (h : ∀ x ∈ xs, ∀ r ∈ x, IsScalar r) :
    Json.Raw (xs.flatMap escapeRune) := by
  induction xs with
  | nil => exact .nil
  | cons x xs ih =>
    rw [List.flatMap_cons]
    exact (standsFor_escapeRune (h x (.head _))).raw.append
      (ih fun y hy => h y (List.mem_cons_of_mem x hy))

theorem unescape_escapeRunes {xs : List (Option Nat)} (h : ∀ x ∈ xs, ∀ r ∈ x, IsScalar r) :
    unescape (runes (xs.flatMap escapeRune)) = some (xs.map (·.getD runeError)) := by
  induction xs with
  | nil => rfl
  | cons x xs ih =>
    rw [List.flatMap_cons, (standsFor_escapeRune (h x (.head _))).read,
      ih fun y hy => h y (List.mem_cons_of_mem x hy)]
    rfl

theorem isScalar_decoded (s : Bytes) : ∀ x ∈ decoded s, ∀ r ∈ x, IsScalar r := by
  rintro x hx r rfl
  exact isScalar_of_mem hx

theorem raw_escape (s : Bytes) : Json.Raw (escape s) := raw_escapeRunes (isScalar_decoded s)

def sanitized (s : Bytes) : Bytes := (runes s).flatMap encodeRune

theorem unquote_escape (s : Bytes) : unquote (escape s) = some (sanitized s) := by
  rw [unquote, escape, unescape_escapeRunes (isScalar_decoded s), ← runes_decoded]
  rfl

theorem isScalar_runes (s : Bytes) : ∀ r ∈ runes s, IsScalar r := by
  intro r hr
  rw [runes_decoded] at hr
  obtain ⟨x, hx, rfl⟩ := List.mem_map.mp hr
  cases x with
  | none => exact .inr ⟨by decide, by decide⟩
  | some r => exact isScalar_of_mem hx

theorem decoded_encodeRunes {rs : List Nat} (h : ∀ r ∈ rs, IsScalar r) :
    decoded (rs.flatMap encodeRune) = rs.map some := by
  induction rs with
  | nil => rfl
  | cons r rs ih =>
    rw [List.flatMap_cons, decoded_encodeRune (h r (.head _)),
      ih fun x hx => h x (List.mem_cons_of_mem r hx)]
    rfl

theorem decoded_sanitized (s : Bytes) : decoded (sanitized s) = (runes s).map some :=
  decoded_encodeRunes (isScalar_runes s)

theorem escape_sanitized_iff (s : Bytes) : escape (sanitized s) = escape s ↔ ValidUtf8 s := by
  unfold escape ValidUtf8
  rw [decoded_sanitized, runes_decoded, List.map_map]
  generalize decoded s = xs
  induction xs with
  | nil => simp
  | cons x xs ih =>
    rw [List.map_cons, List.flatMap_cons, List.flatMap_cons, List.mem_cons, not_or]
    cases x with
    | none =>
      refine iff_of_false ?_ fun h => h.1 rfl
      intro he
      have hmark : escapeRune (some runeError) = [0xEF, 0xBF, 0xBD] := by decide
      rw [Function.comp_apply, Option.getD_none, hmark] at he
      exact absurd (List.cons.inj he).1 (by decide)
    | some r =>
      simp [ih]

example : unquote (escape (ascii "a<\n\"" ++ [0xC3, 0xA9, 0xFF])) =
    some (ascii "a<\n\"" ++ [0xC3, 0xA9, 0xEF, 0xBF, 0xBD]) := by decide +kernel

end Pgmux
