import Pgmux.Bytes

namespace Pgmux

theorem isCont_iff {c : UInt8} : isCont c ↔ 0x80 ≤ c.toNat ∧ c.toNat ≤ 0xBF := by
  simp [isCont, UInt8.le_iff_toNat_le]

theorem rune2_bounds (h : rune2 c d = some r) :
    0xC2 ≤ c.toNat ∧ c.toNat ≤ 0xDF ∧ 0x80 ≤ d.toNat ∧ d.toNat ≤ 0xBF ∧
      r = (c.toNat % 32) * 64 + d.toNat % 64 := by
  unfold rune2 at h
  split at h
  · rename_i hc
    simp only [Bool.and_eq_true, decide_eq_true_eq, isCont_iff, UInt8.le_iff_toNat_le] at hc
    have hr := Option.some.inj h
    exact ⟨hc.1.1, hc.1.2, hc.2.1, hc.2.2, hr.symm⟩
  · cases h

theorem rune3_bounds (h : rune3 c d e = some r) :
    0xE0 ≤ c.toNat ∧ 0x80 ≤ d.toNat ∧ d.toNat ≤ 0xBF ∧ isCont e ∧ 0x800 ≤ r := by
  unfold rune3 at h
  split at h
  · rename_i hc
    simp only [Bool.and_eq_true, Bool.or_eq_true, decide_eq_true_eq, isCont_iff, beq_iff_eq,
      UInt8.le_iff_toNat_le, ← UInt8.toNat_inj] at hc
    obtain ⟨hc, he⟩ := hc
    have hr := Option.some.inj h
    refine ⟨?_, ?_, ?_, isCont_iff.mpr he, ?_⟩
    all_goals simp at hc; omega
  · cases h

theorem rune4_bounds (h : rune4 c d e f = some r) :
    0xF0 ≤ c.toNat ∧ 0x80 ≤ d.toNat ∧ d.toNat ≤ 0xBF ∧ isCont e ∧ isCont f ∧
      0x800 ≤ r := by
  unfold rune4 at h
  split at h
  · rename_i hc
    simp only [Bool.and_eq_true, Bool.or_eq_true, decide_eq_true_eq, beq_iff_eq,
      UInt8.le_iff_toNat_le, ← UInt8.toNat_inj] at hc
    obtain ⟨⟨hc, he⟩, hf⟩ := hc
    simp only [isCont_iff] at hc
    have hr := Option.some.inj h
    refine ⟨?_, ?_, ?_, he, hf, ?_⟩
    all_goals simp at hc; omega
  · cases h

/-- The rune of several bytes that starts with `c`, and the text behind it. -/
def multibyte (c : UInt8) : Bytes → Option (Nat × Bytes)
  | [] => none
  | [d] => (rune2 c d).map (·, [])
  | [d, e] => ((rune2 c d).map (·, [e])).or ((rune3 c d e).map (·, []))
  | d :: e :: f :: s => ((rune2 c d).map (·, e :: f :: s)).or
      (((rune3 c d e).map (·, f :: s)).or ((rune4 c d e f).map (·, s)))

theorem runes_ascii (h : c < 0x80) (s : Bytes) : runes (c :: s) = c.toNat :: runes s := by
  rcases s with _ | ⟨d, _ | ⟨e, _ | ⟨f, s⟩⟩⟩ <;> simp [runes, h]

theorem runes_multibyte (h : ¬ c < 0x80) (s : Bytes) : runes (c :: s) =
    match multibyte c s with
    | some (r, t) => r :: runes t
    | none => runeError :: runes s := by
  rcases s with _ | ⟨d, _ | ⟨e, _ | ⟨f, s⟩⟩⟩
  · simp [runes, multibyte, h]
  · cases h₂ : rune2 c d <;> simp [runes, multibyte, h, h₂]
  · cases h₂ : rune2 c d <;> cases h₃ : rune3 c d e <;> simp [runes, multibyte, h, h₂, h₃]
  · cases h₂ : rune2 c d <;> cases h₃ : rune3 c d e <;> cases h₄ : rune4 c d e f <;>
      simp [runes, multibyte, h, h₂, h₃, h₄]

theorem multibyte_cases (h : multibyte c s = some (r, t)) :
    (∃ d, s = d :: t ∧ rune2 c d = some r) ∨ (∃ d e, s = d :: e :: t ∧ rune3 c d e = some r) ∨
      ∃ d e f, s = d :: e :: f :: t ∧ rune4 c d e f = some r := by
  rcases s with _ | ⟨d, _ | ⟨e, _ | ⟨f, s⟩⟩⟩
  · cases h
  · obtain ⟨r, hr, hp⟩ := Option.map_eq_some_iff.mp h
    cases hp
    exact .inl ⟨d, rfl, hr⟩
  · simp only [multibyte, Option.or_eq_some_iff, Option.map_eq_some_iff] at h
    rcases h with ⟨r, hr, hp⟩ | ⟨-, r, hr, hp⟩ <;> cases hp
    · exact .inl ⟨d, rfl, hr⟩
    · exact .inr (.inl ⟨d, e, rfl, hr⟩)
  · simp only [multibyte, Option.or_eq_some_iff, Option.map_eq_some_iff] at h
    rcases h with ⟨r, hr, hp⟩ | ⟨-, ⟨r, hr, hp⟩ | ⟨-, r, hr, hp⟩⟩ <;> cases hp
    · exact .inl ⟨d, rfl, hr⟩
    · exact .inr (.inl ⟨d, e, rfl, hr⟩)
    · exact .inr (.inr ⟨d, e, f, rfl, hr⟩)

theorem multibyte_length (h : multibyte c s = some (r, t)) : t.length < s.length := by
  rcases multibyte_cases h with ⟨d, rfl, -⟩ | ⟨d, e, rfl, -⟩ | ⟨d, e, f, rfl, -⟩ <;>
    simp only [List.length_cons] <;> omega

section Boundary

variable {x : UInt8} (hx : isCont x = false)

include hx

theorem rune2_boundary (c : UInt8) : rune2 c x = none := by
  simp [rune2, hx]

theorem rune3_boundary (c d : UInt8) : rune3 c d x = none ∧ rune3 c x d = none := by
  constructor
  · simp [rune3, hx]
  · by_contra h
    obtain ⟨r, hr⟩ := Option.ne_none_iff_exists'.mp h
    have hb := rune3_bounds hr
    rw [isCont_iff.mpr ⟨hb.2.1, hb.2.2.1⟩] at hx
    cases hx

theorem rune4_boundary (c d e : UInt8) :
    rune4 c d e x = none ∧ rune4 c d x e = none ∧ rune4 c x d e = none := by
  refine ⟨by simp [rune4, hx], by simp [rune4, hx], ?_⟩
  by_contra h
  obtain ⟨r, hr⟩ := Option.ne_none_iff_exists'.mp h
  have hb := rune4_bounds hr
  rw [isCont_iff.mpr ⟨hb.2.1, hb.2.2.1⟩] at hx
  cases hx

theorem multibyte_append (c : UInt8) (s b : Bytes) :
    multibyte c (s ++ x :: b) = (multibyte c s).map fun p => (p.1, p.2 ++ x :: b) := by
  have h₂ := rune2_boundary hx
  have h₃ := rune3_boundary hx
  have h₄ := rune4_boundary hx
  rcases s with _ | ⟨d, _ | ⟨e, _ | ⟨f, s⟩⟩⟩
  · rcases b with _ | ⟨y, _ | ⟨z, b⟩⟩ <;> simp [multibyte, h₂, h₃, h₄]
  · rcases b with _ | ⟨y, b⟩ <;> cases hr : rune2 c d <;> simp [multibyte, h₃, h₄, hr]
  · cases hr : rune2 c d <;> cases hr' : rune3 c d e <;> simp [multibyte, h₄, hr, hr']
  · cases hr : rune2 c d <;> cases hr' : rune3 c d e <;> cases hr'' : rune4 c d e f <;>
      simp [multibyte, hr, hr', hr'']

theorem runes_append (a b : Bytes) : runes (a ++ x :: b) = runes a ++ runes (x :: b) := by
  induction hn : a.length using Nat.strong_induction_on generalizing a with
  | h n ih =>
    cases a with
    | nil => rfl
    | cons c s =>
      have htail := ih s.length (by rw [← hn]; exact Nat.lt_succ_self _) s rfl
      rw [List.cons_append]
      by_cases hc : c < 0x80
      · rw [runes_ascii hc, runes_ascii hc, htail]
        rfl
      · rw [runes_multibyte hc, runes_multibyte hc, multibyte_append hx]
        cases hm : multibyte c s with
        | none =>
          simp only [Option.map_none]
          rw [htail]
          rfl
        | some p =>
          have hlen := multibyte_length hm
          simp only [Option.map_some]
          rw [ih p.2.length (by rw [← hn, List.length_cons]; omega) p.2 rfl]
          rfl

end Boundary

theorem multibyte_rune2 (h : rune2 c d = some r) (s : Bytes) :
    multibyte c (d :: s) = some (r, s) := by
  rcases s with _ | ⟨e, _ | ⟨f, s⟩⟩ <;> simp [multibyte, h]

theorem multibyte_rune3 (h : rune3 c d e = some r) (s : Bytes) :
    multibyte c (d :: e :: s) = some (r, s) := by
  have h₂ : rune2 c d = none := by
    by_contra hne
    obtain ⟨x, hx⟩ := Option.ne_none_iff_exists'.mp hne
    have := rune2_bounds hx
    have := rune3_bounds h
    omega
  cases s <;> simp [multibyte, h₂, h]

theorem multibyte_rune4 (h : rune4 c d e f = some r) (s : Bytes) :
    multibyte c (d :: e :: f :: s) = some (r, s) := by
  have hb := rune4_bounds h
  have h₂ : rune2 c d = none := by
    by_contra hne
    obtain ⟨x, hx⟩ := Option.ne_none_iff_exists'.mp hne
    have := rune2_bounds hx
    omega
  have h₃ : rune3 c d e = none := by
    unfold rune3
    apply if_neg
    simp only [Bool.and_eq_true, Bool.or_eq_true, decide_eq_true_eq, beq_iff_eq,
      UInt8.le_iff_toNat_le, ← UInt8.toNat_inj]
    simp
    omega
  simp [multibyte, h₂, h₃, h]

inductive Folds : Bytes → Prop
  | nil : Folds []
  | ascii : c < 0x80 → Folds s → Folds (c :: s)
  | dotlessI : Folds s → Folds (0xC4 :: 0xB1 :: s)
  | longS : Folds s → Folds (0xC5 :: 0xBF :: s)

theorem rune2_dotlessI (h : rune2 c d = some 0x131) : c = 0xC4 ∧ d = 0xB1 := by
  have hb := rune2_bounds h
  constructor
  · apply UInt8.toNat_inj.mp
    change _ = 196
    omega
  · apply UInt8.toNat_inj.mp
    change _ = 177
    omega

theorem rune2_longS (h : rune2 c d = some 0x17F) : c = 0xC5 ∧ d = 0xBF := by
  have hb := rune2_bounds h
  constructor
  · apply UInt8.toNat_inj.mp
    change _ = 197
    omega
  · apply UInt8.toNat_inj.mp
    change _ = 191
    omega

theorem runes_dotlessI (s : Bytes) : runes (0xC4 :: 0xB1 :: s) = 0x131 :: runes s := by
  have h : rune2 0xC4 0xB1 = some 0x131 := by decide
  rw [runes_multibyte (by decide), multibyte_rune2 h]

theorem runes_longS (s : Bytes) : runes (0xC5 :: 0xBF :: s) = 0x17F :: runes s := by
  have h : rune2 0xC5 0xBF = some 0x17F := by decide
  rw [runes_multibyte (by decide), multibyte_rune2 h]

theorem runes_start (h : runes (c :: s) = r :: rs) (hr : r < 0x80 ∨ r = 0x131 ∨ r = 0x17F) :
    (c < 0x80 ∧ rs = runes s) ∨ (c = 0xC4 ∧ ∃ t, s = 0xB1 :: t ∧ rs = runes t) ∨
      (c = 0xC5 ∧ ∃ t, s = 0xBF :: t ∧ rs = runes t) := by
  by_cases hc : c < 0x80
  · rw [runes_ascii hc] at h
    exact .inl ⟨hc, (List.cons.inj h).2.symm⟩
  · rw [runes_multibyte hc] at h
    cases hm : multibyte c s with
    | none =>
      rw [hm] at h
      obtain ⟨rfl, -⟩ := List.cons.inj h
      unfold runeError at hr
      omega
    | some p =>
      rw [hm] at h
      obtain ⟨rfl, rfl⟩ := List.cons.inj h
      rcases multibyte_cases hm with ⟨d, rfl, h₂⟩ | ⟨d, e, rfl, h₃⟩ | ⟨d, e, f, rfl, h₄⟩
      · have hb := rune2_bounds h₂
        rcases hr with hr | hr | hr
        · omega
        · rw [hr] at h₂
          obtain ⟨rfl, rfl⟩ := rune2_dotlessI h₂
          exact .inr (.inl ⟨rfl, _, rfl, rfl⟩)
        · rw [hr] at h₂
          obtain ⟨rfl, rfl⟩ := rune2_longS h₂
          exact .inr (.inr ⟨rfl, _, rfl, rfl⟩)
      · have hb := rune3_bounds h₃
        omega
      · have hb := rune4_bounds h₄
        omega

theorem multibyte_suffix (h : multibyte c s = some (r, t)) : t <:+ s := by
  rcases multibyte_cases h with ⟨d, rfl, -⟩ | ⟨d, e, rfl, -⟩ | ⟨d, e, f, rfl, -⟩
  · exact ⟨[d], rfl⟩
  · exact ⟨[d, e], rfl⟩
  · exact ⟨[d, e, f], rfl⟩

theorem runes_cons (c : UInt8) (s : Bytes) : ∃ r t, t <:+ s ∧ runes (c :: s) = r :: runes t := by
  by_cases hc : c < 0x80
  · exact ⟨_, s, List.suffix_refl s, runes_ascii hc s⟩
  · rw [runes_multibyte hc]
    cases hm : multibyte c s with
    | none => exact ⟨_, s, List.suffix_refl s, rfl⟩
    | some p => exact ⟨p.1, p.2, multibyte_suffix hm, rfl⟩

theorem Folds.runes_append (h : Folds u) (t : Bytes) : runes (u ++ t) = runes u ++ runes t := by
  induction h with
  | nil => rfl
  | ascii hc _ ih => rw [List.cons_append, runes_ascii hc, runes_ascii hc, ih, List.cons_append]
  | dotlessI _ ih =>
    rw [List.cons_append, List.cons_append, runes_dotlessI, runes_dotlessI, ih, List.cons_append]
  | longS _ ih =>
    rw [List.cons_append, List.cons_append, runes_longS, runes_longS, ih, List.cons_append]

theorem Folds.runes_infix (h : Folds u) (hne : u ≠ []) (a b : Bytes) :
    runes (a ++ u ++ b) = runes a ++ runes u ++ runes b := by
  have hstart : ∃ c v, u = c :: v ∧ isCont c = false := by
    cases h with
    | nil => exact absurd rfl hne
    | @ascii c s hc =>
      refine ⟨c, s, rfl, ?_⟩
      rw [← Bool.not_eq_true, isCont_iff]
      have : c.toNat < 128 := hc
      omega
    | @dotlessI s => exact ⟨_, _, rfl, by decide⟩
    | @longS s => exact ⟨_, _, rfl, by decide⟩
  obtain ⟨c, v, hv, hc⟩ := hstart
  rw [List.append_assoc, hv, List.cons_append, Pgmux.runes_append hc, ← List.cons_append, ← hv,
    h.runes_append, List.append_assoc]

section Case

variable [CaseTable]

theorem toUpper_nil : toUpper [] = [] := rfl

theorem Folds.toUpper_infix (h : Folds u) (a b : Bytes) :
    toUpper u <:+: toUpper (a ++ u ++ b) := by
  by_cases hne : u = []
  · subst hne
    exact List.nil_infix
  · unfold toUpper
    rw [h.runes_infix hne, List.flatMap_append, List.flatMap_append]
    exact List.infix_append _ _ _

omit [CaseTable] in
theorem encodeRune_small (h : r < 0x80) : encodeRune r = [r.toUInt8] := if_pos h

omit [CaseTable] in
theorem encodeRune_ne_nil (r : Nat) : encodeRune r ≠ [] := by
  unfold encodeRune
  repeat' split
  all_goals exact List.cons_ne_nil _ _

omit [CaseTable] in
theorem encodeRune_ascii (h : encodeRune r = c :: s) (hc : c < 0x80) : r < 0x80 := by
  by_contra hr
  have hlead {k : Nat} (hk : 0x80 ≤ k) (hk' : k < 256) (he : k.toUInt8 = c) : False := by
    have hlt : c.toNat < 128 := hc
    rw [← he, Nat.toUInt8_eq, UInt8.toNat_ofNat', Nat.mod_eq_of_lt hk'] at hlt
    omega
  unfold encodeRune at h
  rw [if_neg hr] at h
  split at h
  · exact hlead (by omega) (by omega) (List.cons.inj h).1
  · split at h
    · rw [← (List.cons.inj h).1] at hc
      exact absurd hc (by decide)
    · rename_i hmax
      simp only [Bool.or_eq_true, Bool.and_eq_true, decide_eq_true_eq, not_or] at hmax
      split at h
      · exact hlead (by omega) (by omega) (List.cons.inj h).1
      · exact hlead (by omega) (by omega) (List.cons.inj h).1

omit [CaseTable] in
theorem encodeRune_tail (h : encodeRune r = c :: s) (hd : d ∈ s) : ¬ d < 0x80 := by
  have hcont {k : Nat} (hk : d = (0x80 + k % 64).toUInt8) : ¬ d < 0x80 := by
    intro hlt
    have hn : d.toNat < 128 := hlt
    rw [hk, Nat.toUInt8_eq, UInt8.toNat_ofNat'] at hn
    omega
  unfold encodeRune at h
  split at h
  · obtain ⟨-, rfl⟩ := List.cons.inj h
    cases hd
  split at h
  · obtain ⟨-, rfl⟩ := List.cons.inj h
    exact hcont (List.mem_singleton.mp hd)
  split at h
  · obtain ⟨-, rfl⟩ := List.cons.inj h
    rcases List.mem_pair.mp hd with rfl | rfl <;> decide
  split at h
  · obtain ⟨-, rfl⟩ := List.cons.inj h
    rcases List.mem_pair.mp hd with hd | hd <;> exact hcont hd
  · obtain ⟨-, rfl⟩ := List.cons.inj h
    rcases List.mem_cons.mp hd with hd | hd
    · exact hcont hd
    · rcases List.mem_pair.mp hd with hd | hd <;> exact hcont hd

theorem toUpper_ascii (h : c < 0x80) (s : Bytes) : toUpper (c :: s) = upperByte c :: toUpper s := by
  have hlt : (upperByte c).toNat < 0x80 := by
    have hc : c.toNat < 128 := h
    unfold upperByte
    split
    · rename_i hl
      simp only [Bool.and_eq_true, decide_eq_true_eq, UInt8.le_iff_toNat_le] at hl
      rw [UInt8.toNat_sub_of_le _ _ (UInt8.le_iff_toNat_le.mpr (by simp at hl ⊢; omega))]
      omega
    · exact hc
  unfold toUpper
  rw [runes_ascii h, List.flatMap_cons, CaseTable.upper_ascii c h, encodeRune_small hlt]
  simp

theorem toUpper_runes (h : runes s = runes t) : toUpper s = toUpper t := by
  unfold toUpper
  rw [h]

theorem toUpper_rune (h : runes s = r :: runes t) :
    toUpper s = encodeRune (CaseTable.upper r) ++ toUpper t := by
  unfold toUpper
  rw [h, List.flatMap_cons]

theorem exists_folds_of_prefix (h : p <+: toUpper t) (hp : ∀ c ∈ p, c < 0x80) :
    ∃ u, u <+: t ∧ Folds u ∧ toUpper u = p := by
  induction p generalizing t with
  | nil => exact ⟨[], List.nil_prefix, .nil, rfl⟩
  | cons x p ih =>
    cases t with
    | nil => exact absurd (List.prefix_nil.mp h) (List.cons_ne_nil x p)
    | cons c s =>
      obtain ⟨r, t, -, hr⟩ := runes_cons c s
      rw [toUpper_rune hr] at h
      have hhead : encodeRune (CaseTable.upper r) = [x] ∧ p <+: toUpper t ∧
          (r < 0x80 ∨ r = 0x131 ∨ r = 0x17F) := by
        cases he : encodeRune (CaseTable.upper r) with
        | nil => exact absurd he (encodeRune_ne_nil _)
        | cons y ys =>
          rw [he, List.cons_append, List.cons_prefix_cons] at h
          obtain ⟨rfl, h⟩ := h
          have hsmall := encodeRune_ascii he (hp x (.head _))
          rw [encodeRune_small hsmall] at he
          obtain ⟨-, rfl⟩ := List.cons.inj he
          exact ⟨rfl, h, CaseTable.upper_small r hsmall⟩
      obtain ⟨hx, hrest, hsmall⟩ := hhead
      have hp' : ∀ c ∈ p, c < 0x80 := fun c hc => hp c (List.mem_cons_of_mem x hc)
      rcases runes_start hr hsmall with ⟨hc, ht⟩ | ⟨rfl, s, rfl, ht⟩ | ⟨rfl, s, rfl, ht⟩
      all_goals
        rw [toUpper_runes ht] at hrest
        obtain ⟨u, hu, hf, rfl⟩ := ih hrest hp'
      · refine ⟨c :: u, List.cons_prefix_cons.mpr ⟨rfl, hu⟩, .ascii hc hf, ?_⟩
        rw [runes_ascii hc] at hr
        rw [toUpper_rune (runes_ascii hc u), (List.cons.inj hr).1, hx]
        rfl
      · refine ⟨0xC4 :: 0xB1 :: u, ?_, .dotlessI hf, ?_⟩
        · simpa using hu
        · rw [runes_dotlessI] at hr
          rw [toUpper_rune (runes_dotlessI u), (List.cons.inj hr).1, hx]
          rfl
      · refine ⟨0xC5 :: 0xBF :: u, ?_, .longS hf, ?_⟩
        · simpa using hu
        · rw [runes_longS] at hr
          rw [toUpper_rune (runes_longS u), (List.cons.inj hr).1, hx]
          rfl

omit [CaseTable] in
theorem infix_of_infix_append (h : x :: p <:+: s ++ t) (hx : x ∉ s) : x :: p <:+: t := by
  induction s with
  | nil => exact h
  | cons c s ih =>
    rw [List.mem_cons, not_or] at hx
    rcases List.infix_cons_iff.mp h with h | h
    · exact absurd (List.cons_prefix_cons.mp h).1 hx.1
    · exact ih h hx.2

theorem exists_folds_of_infix (h : p <:+: toUpper t) (hp : ∀ c ∈ p, c < 0x80) :
    ∃ u, u <:+: t ∧ Folds u ∧ toUpper u = p := by
  cases p with
  | nil => exact ⟨[], List.nil_infix, .nil, rfl⟩
  | cons x p =>
    induction hn : t.length using Nat.strong_induction_on generalizing t with
    | h n ih =>
      -- The occurrence starts with the first rune of the text, or behind it.
      cases t with
      | nil => exact absurd (List.infix_nil.mp h) (List.cons_ne_nil x p)
      | cons c s =>
        by_cases hpre : x :: p <+: toUpper (c :: s)
        · obtain ⟨u, hu, hf, he⟩ := exists_folds_of_prefix hpre hp
          exact ⟨u, hu.isInfix, hf, he⟩
        · obtain ⟨r, t, ht, hr⟩ := runes_cons c s
          rw [toUpper_rune hr] at h hpre
          obtain ⟨y, ys, he⟩ := List.exists_cons_of_ne_nil (encodeRune_ne_nil (CaseTable.upper r))
          rw [he, List.cons_append] at h hpre
          have hlater := (List.infix_cons_iff.mp h).resolve_left hpre
          have hx : x ∉ ys := fun hm => encodeRune_tail he hm (hp x (.head _))
          have hlen := ht.length_le
          obtain ⟨u, hu, hf, he⟩ := ih t.length (by rw [← hn, List.length_cons]; omega)
            (infix_of_infix_append hlater hx) rfl
          exact ⟨u, (hu.trans ht.isInfix).trans (List.suffix_cons c s).isInfix, hf, he⟩

theorem infix_toUpper (hp : ∀ c ∈ p, c < 0x80) (h : p <:+: toUpper s)
    (hs : ∀ u, Folds u → toUpper u = p → u <:+: s → u <:+: t) : p <:+: toUpper t := by
  obtain ⟨u, hu, hf, rfl⟩ := exists_folds_of_infix h hp
  obtain ⟨a, b, rfl⟩ := hs u hf rfl hu
  exact hf.toUpper_infix a b

end Case

end Pgmux
