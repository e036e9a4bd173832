import Pgmux.Literal

namespace Pgmux

theorem toUInt8_digit {c : Char} (h : c.isDigit) :
    isDigit c.toUInt8 ∧ c.toUInt8.toNat = c.toNat := by
  have hc : 48 ≤ c.toNat ∧ c.toNat ≤ 57 := by
    simpa [Char.isDigit, UInt32.le_iff_toNat_le] using h
  have hn : c.toUInt8.toNat = c.toNat := by
    change c.toNat % 256 = c.toNat
    omega
  refine ⟨?_, hn⟩
  simp only [isDigit, Bool.and_eq_true, decide_eq_true_eq, UInt8.le_iff_toNat_le, hn]
  exact hc

theorem natText_digits (n : Nat) : natText n ≠ [] ∧ (natText n).all isDigit := by
  refine ⟨fun h => Nat.toDigits_ne_nil (List.map_eq_nil_iff.mp h), ?_⟩
  rw [List.all_eq_true]
  intro c hc
  obtain ⟨d, hd, rfl⟩ := List.mem_map.mp hc
  exact (toUInt8_digit (Nat.isDigit_of_mem_toDigits (by decide) (by decide) hd)).1

theorem decimal_natText (n : Nat) : decimal (natText n) = n := by
  have hdigits : ∀ c ∈ Nat.toDigits 10 n, c.isDigit := fun c hc =>
    Nat.isDigit_of_mem_toDigits (by decide) (by decide) hc
  have hfold (l : List Char) (hl : ∀ c ∈ l, c.isDigit) (init : Nat) :
      (l.map Char.toUInt8).foldl (fun n c => n * 10 + (c.toNat - 48)) init =
        Nat.ofDigitChars 10 l init := by
    induction l generalizing init with
    | nil => rfl
    | cons c l ih =>
      rw [List.map_cons, List.foldl_cons, Nat.ofDigitChars_cons,
        (toUInt8_digit (hl c (.head _))).2, Nat.mul_comm]
      exact ih (fun d hd => hl d (List.mem_cons_of_mem c hd)) _
  rw [decimal, natText, hfold _ hdigits, Nat.ofDigitChars_ten_toDigits]

theorem natText_head (n : Nat) : (natText n).head? ≠ some '-'.toUInt8 := by
  obtain ⟨hne, hall⟩ := natText_digits n
  obtain ⟨c, s, hs⟩ := List.exists_cons_of_ne_nil hne
  rw [hs, List.all_cons, Bool.and_eq_true] at hall
  rw [hs]
  intro h
  rw [Option.some.inj h] at hall
  exact absurd hall.1 (by decide)

theorem toDigits_head_zero (h : (Nat.toDigits 10 n).head? = some '0') : n = 0 := by
  induction n using Nat.strongRecOn with
  | ind n ih =>
    by_cases hn : n < 10
    · rw [Nat.toDigits_of_lt_base hn] at h
      have hall : ∀ k < 10, Nat.digitChar k = '0' → k = 0 := by decide
      exact hall n hn (Option.some.inj h)
    · have hle : 10 ≤ n := Nat.le_of_not_lt hn
      rw [Nat.toDigits_of_base_le (by decide) hle,
        List.head?_append_of_ne_nil _ Nat.toDigits_ne_nil] at h
      have hzero := ih (n / 10) (by omega) h
      omega

theorem natText_head_zero (h : (natText n).head? = some '0'.toUInt8) :
    natText n = ['0'.toUInt8] := by
  obtain ⟨c, l, hl⟩ := List.exists_cons_of_ne_nil (Nat.toDigits_ne_nil (n := n) (b := 10))
  have hc : c.isDigit :=
    Nat.isDigit_of_mem_toDigits (b := 10) (n := n) (by decide) (by decide) (by simp [hl])
  have hzero : c = '0' := by
    rw [natText, hl] at h
    have hn := congrArg UInt8.toNat (Option.some.inj h)
    rw [(toUInt8_digit hc).2] at hn
    exact Char.toNat_inj.mp hn
  have hn : n = 0 := toDigits_head_zero (by rw [hl, hzero]; rfl)
  rw [hn]
  rfl

end Pgmux
