import Mathlib.Data.Nat.Log
import Mathlib.Tactic.Ring
import Mathlib.Tactic.Linarith

namespace Binary64

/-- The nearest multiple of `2 ^ e`, ties to even. -/
def roundTo (e n : Nat) : Nat :=
  if 2 * (n % 2 ^ e) < 2 ^ e ∨ (2 * (n % 2 ^ e) = 2 ^ e ∧ n / 2 ^ e % 2 = 0) then n / 2 ^ e * 2 ^ e
  else (n / 2 ^ e + 1) * 2 ^ e

def round (n : Nat) : Nat := roundTo (n.log2 - 52) n

theorem roundTo_of_dvd (h : 2 ^ e ∣ n) : roundTo e n = n := by
  have hpos : 0 < 2 ^ e := Nat.two_pow_pos e
  rw [roundTo, Nat.mod_eq_zero_of_dvd h, if_pos (.inl (by omega)), Nat.div_mul_cancel h]

theorem roundTo_cases (e n : Nat) :
    (roundTo e n = n / 2 ^ e * 2 ^ e) ∨ roundTo e n = (n / 2 ^ e + 1) * 2 ^ e := by
  unfold roundTo
  split
  · exact .inl rfl
  · exact .inr rfl

theorem dvd_roundTo (e n : Nat) : 2 ^ e ∣ roundTo e n := by
  rcases roundTo_cases e n with h | h <;> rw [h] <;> exact Nat.dvd_mul_left _ _

theorem roundTo_mono (e : Nat) (h : m ≤ n) : roundTo e m ≤ roundTo e n := by
  have hdiv : m / 2 ^ e ≤ n / 2 ^ e := Nat.div_le_div_right h
  rcases Nat.lt_or_eq_of_le hdiv with hlt | heq
  · calc roundTo e m ≤ (m / 2 ^ e + 1) * 2 ^ e := by
          rcases roundTo_cases e m with hm | hm <;> rw [hm]
          exact Nat.mul_le_mul_right _ (Nat.le_succ _)
      _ ≤ n / 2 ^ e * 2 ^ e := Nat.mul_le_mul_right _ hlt
      _ ≤ roundTo e n := by
          rcases roundTo_cases e n with hn | hn <;> rw [hn]
          exact Nat.mul_le_mul_right _ (Nat.le_succ _)
  · -- Between the same multiples the larger number is not rounded down where the smaller is not.
    have hmod : m % 2 ^ e ≤ n % 2 ^ e := by
      have hm := Nat.div_add_mod m (2 ^ e)
      have hn := Nat.div_add_mod n (2 ^ e)
      rw [heq] at hm
      omega
    unfold roundTo
    rw [heq]
    split
    · split
      · exact le_refl _
      · exact Nat.mul_le_mul_right _ (Nat.le_succ _)
    · rename_i hup
      rw [if_neg]
      rintro (hlow | ⟨hhalf, heven⟩)
      · exact hup (.inl (by omega))
      · by_cases heq : 2 * (m % 2 ^ e) = 2 ^ e
        · exact hup (.inr ⟨heq, heven⟩)
        · exact hup (.inl (by omega))

theorem round_bounds (hn : n ≠ 0) : 2 ^ n.log2 ≤ round n ∧ round n ≤ 2 ^ (n.log2 + 1) := by
  have hlow := Nat.log2_self_le hn
  have hhigh : n < 2 ^ (n.log2 + 1) := Nat.lt_log2_self
  generalize hl : n.log2 = l at hlow hhigh
  have he : l - 52 ≤ l := Nat.sub_le _ _
  have hfloor : 2 ^ l ≤ n / 2 ^ (l - 52) * 2 ^ (l - 52) := by
    have hpow : 2 ^ l = 2 ^ (l - (l - 52)) * 2 ^ (l - 52) := by rw [← pow_add]; congr 1; omega
    have hdiv : 2 ^ (l - (l - 52)) ≤ n / 2 ^ (l - 52) := by
      rw [Nat.le_div_iff_mul_le (Nat.two_pow_pos _), ← hpow]
      exact hlow
    rw [hpow]
    exact Nat.mul_le_mul_right _ hdiv
  have hceil : (n / 2 ^ (l - 52) + 1) * 2 ^ (l - 52) ≤ 2 ^ (l + 1) := by
    have hpow : 2 ^ (l + 1) = 2 ^ (l + 1 - (l - 52)) * 2 ^ (l - 52) := by
      rw [← pow_add]; congr 1; omega
    rw [hpow]
    apply Nat.mul_le_mul_right
    apply Nat.succ_le_of_lt
    rw [Nat.div_lt_iff_lt_mul (Nat.two_pow_pos _), ← hpow]
    exact hhigh
  rw [round, hl]
  rcases roundTo_cases (l - 52) n with h | h <;> rw [h]
  · exact ⟨hfloor, le_trans (Nat.mul_le_mul_right _ (Nat.le_succ _)) hceil⟩
  · exact ⟨le_trans hfloor (Nat.mul_le_mul_right _ (Nat.le_succ _)), hceil⟩

theorem round_mono (h : m ≤ n) : round m ≤ round n := by
  by_cases hm : m = 0
  · subst hm
    exact Nat.zero_le _
  have hn : n ≠ 0 := by omega
  have hlog : m.log2 ≤ n.log2 := (Nat.le_log2 hn).mpr (le_trans (Nat.log2_self_le hm) h)
  rcases Nat.lt_or_eq_of_le hlog with hlt | heq
  · calc round m ≤ 2 ^ (m.log2 + 1) := (round_bounds hm).2
      _ ≤ 2 ^ n.log2 := Nat.pow_le_pow_right (by decide) hlt
      _ ≤ round n := (round_bounds hn).1
  · unfold round
    rw [heq]
    exact roundTo_mono _ h

theorem round_round (n : Nat) : round (round n) = round n := by
  by_cases hn : n = 0
  · subst hn
    rfl
  obtain ⟨hlow, hhigh⟩ := round_bounds hn
  have hdvd : 2 ^ (n.log2 - 52) ∣ round n := dvd_roundTo _ n
  have hpos : round n ≠ 0 := by
    have := Nat.two_pow_pos n.log2
    omega
  rcases Nat.lt_or_eq_of_le hhigh with hlt | heq
  · have hlog : (round n).log2 = n.log2 := by
      have h₁ := (Nat.le_log2 hpos).mpr hlow
      have h₂ := (Nat.log2_lt hpos).mpr hlt
      omega
    unfold round at hlog ⊢
    rw [hlog]
    exact roundTo_of_dvd hdvd
  · rw [heq]
    unfold round
    rw [Nat.log2_two_pow]
    exact roundTo_of_dvd (pow_dvd_pow 2 (Nat.sub_le _ _))

/-- The multiple of `10 ^ k` nearest to the double among those that round to it. -/
def nearest (k f : Nat) : Option Nat :=
  let lo := f / 10 ^ k * 10 ^ k
  let hi := lo + 10 ^ k
  if round lo = f then
    if round hi = f ∧ (hi - f < f - lo ∨ (hi - f = f - lo ∧ f / 10 ^ k % 2 = 1)) then some hi
    else some lo
  else if round hi = f then some hi
  else none

def shortestFrom : Nat → Nat → Nat
  | 0, f => f
  | k + 1, f => (nearest (k + 1) f).getD (shortestFrom k f)

def shortest (f : Nat) : Nat := shortestFrom 19 f

theorem nearest_some (h : nearest k f = some m) : round m = f ∧ 10 ^ k ∣ m := by
  have hlo : 10 ^ k ∣ f / 10 ^ k * 10 ^ k := Nat.dvd_mul_left _ _
  have hhi : 10 ^ k ∣ f / 10 ^ k * 10 ^ k + 10 ^ k := Nat.dvd_add hlo (Nat.dvd_refl _)
  unfold nearest at h
  dsimp only at h
  split at h
  · rename_i hround
    split at h
    · rename_i hup
      cases h
      exact ⟨hup.1, hhi⟩
    · cases h
      exact ⟨hround, hlo⟩
  · split at h
    · rename_i hround
      cases h
      exact ⟨hround, hhi⟩
    · cases h

theorem multiple_cases (hm : 10 ^ k ∣ m) (f : Nat) :
    m ≤ f / 10 ^ k * 10 ^ k ∨ f / 10 ^ k * 10 ^ k + 10 ^ k ≤ m := by
  obtain ⟨q, rfl⟩ := hm
  rcases Nat.lt_or_ge (f / 10 ^ k) q with hq | hq
  · refine .inr ?_
    calc f / 10 ^ k * 10 ^ k + 10 ^ k = (f / 10 ^ k + 1) * 10 ^ k := by ring
      _ ≤ q * 10 ^ k := Nat.mul_le_mul_right _ hq
      _ = 10 ^ k * q := Nat.mul_comm _ _
  · refine .inl ?_
    rw [Nat.mul_comm]
    exact Nat.mul_le_mul_right _ hq

theorem nearest_none (hf : round f = f) (h : nearest k f = none) (hm : 10 ^ k ∣ m) :
    round m ≠ f := by
  intro hr
  have hlow : f / 10 ^ k * 10 ^ k ≤ f := Nat.div_mul_le_self f _
  have hhigh : f ≤ f / 10 ^ k * 10 ^ k + 10 ^ k := by
    have := Nat.lt_div_mul_add (a := f) (Nat.pow_pos (n := k) (by decide : 0 < 10))
    omega
  unfold nearest at h
  dsimp only at h
  split at h
  · split at h <;> cases h
  · rename_i hlo
    split at h
    · cases h
    · rename_i hhi
      -- What lies between two numbers that round to the double rounds to it.
      rcases multiple_cases hm f with hle | hge
      · have h₁ := round_mono hle
        have h₂ := round_mono hlow
        exact hlo (by omega)
      · have h₁ := round_mono hge
        have h₂ := round_mono hhigh
        exact hhi (by omega)

theorem shortestFrom_round (hf : round f = f) (k : Nat) : round (shortestFrom k f) = f := by
  induction k with
  | zero => exact hf
  | succ k ih =>
    rw [shortestFrom]
    cases h : nearest (k + 1) f with
    | none => exact ih
    | some m => exact (nearest_some h).1

theorem shortestFrom_dvd (hf : round f = f) (hj : j ≤ k) (hm : 10 ^ j ∣ m) (hr : round m = f) :
    10 ^ j ∣ shortestFrom k f := by
  induction k with
  | zero =>
    obtain rfl := Nat.le_zero.mp hj
    exact one_dvd _
  | succ k ih =>
    rw [shortestFrom]
    cases h : nearest (k + 1) f with
    | some x => exact (Nat.pow_dvd_pow 10 hj).trans (nearest_some h).2
    | none =>
      rcases Nat.lt_or_eq_of_le hj with hlt | rfl
      · exact ih (Nat.le_of_lt_succ hlt)
      · exact absurd hr (nearest_none hf h hm)

/-- The shortest decimal rounds to the double, and no other one that does has more zeros at its
end. -/
theorem shortest_spec (hf : round f = f) : round (shortest f) = f ∧
    ∀ j m, j ≤ 19 → 10 ^ j ∣ m → round m = f → 10 ^ j ∣ shortest f :=
  ⟨shortestFrom_round hf 19, fun _ _ hj hm hr => shortestFrom_dvd hf hj hm hr⟩

example : shortest (round (2 ^ 63 - 1)) = 9223372036854776000 := by decide +kernel

end Binary64
