import Mathlib.Algebra.Order.Field.Basic
import Mathlib.Tactic.Linarith
import Mathlib.Tactic.Ring

structure TokenBucket (K : Type) [Field K] [LinearOrder K] [IsStrictOrderedRing K] where
  rate : K
  burst : K
  rate_nonneg : 0 ≤ rate
  burst_nonneg : 0 ≤ burst

namespace TokenBucket

variable {K : Type} [Field K] [LinearOrder K] [IsStrictOrderedRing K] (b : TokenBucket K)

def refill (level elapsed : K) : K := min b.burst (level + elapsed * b.rate)

theorem refill_le_burst (level elapsed : K) : b.refill level elapsed ≤ b.burst := min_le_left ..

theorem refill_le (level elapsed : K) : b.refill level elapsed ≤ level + elapsed * b.rate :=
  min_le_right ..

theorem refill_nonneg (hl : 0 ≤ level) (he : 0 ≤ elapsed) : 0 ≤ b.refill level elapsed :=
  le_min b.burst_nonneg (add_nonneg hl (mul_nonneg he b.rate_nonneg))

theorem refill_burst (he : 0 ≤ elapsed) : b.refill b.burst elapsed = b.burst :=
  min_eq_left (le_add_of_nonneg_right (mul_nonneg he b.rate_nonneg))

theorem refill_full (hl : 0 ≤ level) (he : b.burst ≤ elapsed * b.rate) :
    b.refill level elapsed = b.burst :=
  min_eq_left (le_trans he (le_add_of_nonneg_left hl))

theorem refill_refill (level elapsed : K) (he : 0 ≤ elapsed') :
    b.refill (b.refill level elapsed) elapsed' = b.refill level (elapsed + elapsed') := by
  have hpos := mul_nonneg he b.rate_nonneg
  unfold refill
  rw [add_mul, ← add_assoc, min_def, min_def, min_def]
  split_ifs <;> linarith

def admitted (level since : K) : List K → List K
  | [] => []
  | t :: ts =>
    if 1 ≤ b.refill level (t - since) then t :: admitted (b.refill level (t - since) - 1) t ts
    else admitted (b.refill level (t - since)) t ts

variable {b} {level since t₁ t₂ : K} {ts : List K}

theorem admitted_sublist : (b.admitted level since ts).Sublist ts := by
  induction ts generalizing level since with
  | nil => exact .slnil
  | cons t ts ih =>
    rw [admitted]
    split
    · exact ih.cons_cons t
    · exact ih.cons t

theorem admitted_congr (h : ∀ t ∈ ts, b.refill level (t - since) = b.refill level' (t - since')) :
    b.admitted level since ts = b.admitted level' since' ts := by
  cases ts with
  | nil => rfl
  | cons t ts => rw [admitted, admitted, h t (.head _)]

def within (t₁ t₂ : K) (ts : List K) : Nat := ts.countP fun t => t₁ ≤ t ∧ t ≤ t₂

omit [Field K] [IsStrictOrderedRing K] in
theorem within_cons (t₁ t₂ t : K) (ts : List K) :
    within t₁ t₂ (t :: ts) = within t₁ t₂ ts + if t₁ ≤ t ∧ t ≤ t₂ then 1 else 0 := by
  unfold within
  rw [List.countP_cons]
  simp

theorem within_late (hlate : t₂ < t) (hts : (t :: ts).Pairwise (· ≤ ·)) :
    within t₁ t₂ (b.admitted level since (t :: ts)) = 0 := by
  apply List.countP_eq_zero.mpr
  intro u hu
  have hlt : t₂ < u := by
    rcases List.mem_cons.mp (admitted_sublist.subset hu) with rfl | hu
    · exact hlate
    · exact lt_of_lt_of_le hlate ((List.pairwise_cons.mp hts).1 u hu)
  simp only [decide_eq_true_eq, not_and, not_le]
  exact fun _ => hlt

theorem within_le_level (hl : 0 ≤ level) (h₂ : since ≤ t₂) (hts : ts.Pairwise (· ≤ ·))
    (hs : ∀ t ∈ ts, since ≤ t) :
    (within t₁ t₂ (b.admitted level since ts) : K) ≤ level + b.rate * (t₂ - since) := by
  induction ts generalizing level since with
  | nil =>
    have hpos := mul_nonneg b.rate_nonneg (sub_nonneg.mpr h₂)
    simp only [admitted, within, List.countP_nil, Nat.cast_zero]
    linarith
  | cons t ts ih =>
    have ht := hs t (.head _)
    by_cases hlate : t₂ < t
    · have hpos := mul_nonneg b.rate_nonneg (sub_nonneg.mpr h₂)
      rw [within_late hlate hts, Nat.cast_zero]
      linarith
    · rw [not_lt] at hlate
      have hle := b.refill_le level (t - since)
      have hnn := b.refill_nonneg hl (sub_nonneg.mpr ht)
      have hrest := (List.pairwise_cons.mp hts).2
      have hafter := (List.pairwise_cons.mp hts).1
      rw [admitted]
      split
      · rename_i hone
        have hih := ih (sub_nonneg.mpr hone) hlate hrest hafter
        rw [within_cons]
        push_cast
        split
        · linarith
        · linarith
      · have hih := ih hnn hlate hrest hafter
        linarith

theorem within_le_burst (hl : 0 ≤ level) (h : t₁ ≤ t₂) (hts : ts.Pairwise (· ≤ ·))
    (hs : ∀ t ∈ ts, since ≤ t) :
    (within t₁ t₂ (b.admitted level since ts) : K) ≤ b.burst + b.rate * (t₂ - t₁) := by
  have hfull := b.burst_nonneg
  have hpos := mul_nonneg b.rate_nonneg (sub_nonneg.mpr h)
  induction ts generalizing level since with
  | nil =>
    simp only [admitted, within, List.countP_nil, Nat.cast_zero]
    linarith
  | cons t ts ih =>
    have ht := hs t (.head _)
    have hnn := b.refill_nonneg hl (sub_nonneg.mpr ht)
    have hrest := (List.pairwise_cons.mp hts).2
    have hafter := (List.pairwise_cons.mp hts).1
    by_cases hbefore : t < t₁
    · rw [admitted]
      split
      · rename_i hone
        rw [within_cons, if_neg (fun hc => absurd hc.1 (not_le.mpr hbefore)), Nat.add_zero]
        exact ih (sub_nonneg.mpr hone) hrest hafter
      · exact ih hnn hrest hafter
    · -- the first request of the interval finds at most a full bucket
      rw [not_lt] at hbefore
      by_cases hlate : t₂ < t
      · rw [within_late hlate hts, Nat.cast_zero]
        linarith
      · rw [not_lt] at hlate
        have hfrom : ∀ u ∈ t :: ts, t ≤ u := by
          intro u hu
          rcases List.mem_cons.mp hu with rfl | hu
          · exact le_refl u
          · exact hafter u hu
        have hshift : b.admitted level since (t :: ts) =
            b.admitted (b.refill level (t - since)) t (t :: ts) := by
          apply admitted_congr
          intro u hu
          rw [refill_refill _ _ _ (sub_nonneg.mpr (hfrom u hu)), sub_add_sub_cancel']
        have hspent : (within t₁ t₂ (b.admitted (b.refill level (t - since)) t (t :: ts)) : K) ≤
            b.refill level (t - since) + b.rate * (t₂ - t) :=
          within_le_level hnn hlate hts hfrom
        rw [hshift]
        have hcap := b.refill_le_burst level (t - since)
        have hmul := mul_le_mul_of_nonneg_left (sub_le_sub_left hbefore t₂) b.rate_nonneg
        linarith

section Ideal

def countFrom (s : K) (ts : List K) : Nat := ts.countP fun t => s ≤ t

omit [Field K] [IsStrictOrderedRing K] in
theorem within_eq_countFrom (h : ∀ u ∈ ts, u ≤ t) : within s t ts = countFrom s ts := by
  apply List.countP_congr
  intro u hu
  simp [h u hu]

omit [Field K] [IsStrictOrderedRing K] in
theorem countFrom_concat (h : s ≤ t) : countFrom s (ts ++ [t]) = countFrom s ts + 1 := by
  simp [countFrom, List.countP_append, h]

omit [Field K] [IsStrictOrderedRing K] in
theorem countFrom_late (h : ∀ u ∈ ts, u < s) : countFrom s ts = 0 := by
  apply List.countP_eq_zero.mpr
  intro u hu
  simpa using h u hu

def allowance (b : TokenBucket K) (adm : List K) (now s : K) : K :=
  b.burst + b.rate * (now - s) - countFrom s adm

/-- The level is the least that any window since the start leaves, and some window leaves it. -/
structure Ideal (b : TokenBucket K) (start now level : K) (adm : List K) : Prop where
  start_le : start ≤ now
  past : ∀ u ∈ adm, u ≤ now
  least : ∀ s, start ≤ s → s ≤ now → level ≤ b.allowance adm now s
  attained : ∃ s, start ≤ s ∧ s ≤ now ∧ level = b.allowance adm now s

variable {start now level : K} {adm : List K}

theorem ideal_full (b : TokenBucket K) (start : K) : Ideal b start start b.burst [] where
  start_le := le_refl start
  past u hu := (List.not_mem_nil hu).elim
  least s hs hle := by
    rw [le_antisymm hle hs]
    simp [allowance, countFrom]
  attained := ⟨start, le_refl start, le_refl start, by simp [allowance, countFrom]⟩

theorem Ideal.refill_le_allowance (h : Ideal b start now level adm) (hs : start ≤ s)
    (hst : s ≤ t) : b.refill level (t - now) ≤ b.allowance adm t s := by
  by_cases hsn : s ≤ now
  · have hle := b.refill_le level (t - now)
    have hleast := h.least s hs hsn
    unfold allowance at hleast ⊢
    linarith
  · -- nothing was admitted in a window that starts later
    have hpos := mul_nonneg b.rate_nonneg (sub_nonneg.mpr hst)
    have hle := b.refill_le_burst level (t - now)
    have hzero : countFrom s adm = 0 :=
      countFrom_late fun u hu => lt_of_le_of_lt (h.past u hu) (not_le.mp hsn)
    rw [allowance, hzero, Nat.cast_zero]
    linarith

theorem Ideal.refill (h : Ideal b start now level adm) (ht : now ≤ t) :
    Ideal b start t (b.refill level (t - now)) adm where
  start_le := le_trans h.start_le ht
  past u hu := le_trans (h.past u hu) ht
  least s hs hst := h.refill_le_allowance hs hst
  attained := by
    rcases le_total b.burst (level + (t - now) * b.rate) with hfull | hrise
    · -- the empty window leaves a full bucket
      have hrefill : b.refill level (t - now) = b.burst := min_eq_left hfull
      have hle := h.refill_le_allowance (le_trans h.start_le ht) (le_refl t)
      have hcount : (0 : K) ≤ countFrom t adm := Nat.cast_nonneg _
      refine ⟨t, le_trans h.start_le ht, le_refl t, ?_⟩
      rw [hrefill, allowance, sub_self, mul_zero] at hle ⊢
      linarith
    · obtain ⟨s, hs, hsn, hlevel⟩ := h.attained
      refine ⟨s, hs, le_trans hsn ht, ?_⟩
      rw [TokenBucket.refill, min_eq_right hrise, hlevel]
      unfold allowance
      ring

theorem Ideal.spend (h : Ideal b start now level adm) :
    Ideal b start now (level - 1) (adm ++ [now]) := by
  have hcount (s : K) (hs : s ≤ now) :
      b.allowance (adm ++ [now]) now s = b.allowance adm now s - 1 := by
    rw [allowance, allowance, countFrom_concat hs]
    push_cast
    ring
  refine ⟨h.start_le, ?_, ?_, ?_⟩
  · intro u hu
    rcases List.mem_append.mp hu with hu | hu
    · exact h.past u hu
    · exact le_of_eq (List.mem_singleton.mp hu)
  · intro s hs hsn
    rw [hcount s hsn]
    linarith [h.least s hs hsn]
  · obtain ⟨s, hs, hsn, hlevel⟩ := h.attained
    exact ⟨s, hs, hsn, by rw [hcount s hsn, hlevel]⟩

theorem Ideal.lt_iff (h : Ideal b start now level adm) (x : K) :
    level < x ↔ ∃ s, start ≤ s ∧ s ≤ now ∧ b.allowance adm now s < x := by
  constructor
  · intro hlt
    obtain ⟨s, hs, hsn, hlevel⟩ := h.attained
    exact ⟨s, hs, hsn, hlevel ▸ hlt⟩
  · rintro ⟨s, hs, hsn, hlt⟩
    exact lt_of_le_of_lt (h.least s hs hsn) hlt

end Ideal

end TokenBucket
