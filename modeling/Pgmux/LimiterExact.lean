import Pgmux.RateLimiter

namespace Pgmux

namespace RateLimiter

def after (rl : RateLimiter) (ts : List Rat) : RateLimiter :=
  ts.foldl (fun rl t => (rl.allow t).2) rl

def admitted (rl : RateLimiter) : List Rat → List Rat
  | [] => []
  | t :: ts => (if (rl.allow t).1 then [t] else []) ++ admitted (rl.allow t).2 ts

variable {b : TokenBucket Rat} {rl : RateLimiter} {start t : Rat} {adm ts : List Rat}

/-- The limiter is at the level of the ideal bucket with these admissions since the start. -/
structure Exact (b : TokenBucket Rat) (start : Rat) (rl : RateLimiter) (adm : List Rat) :
    Prop where
  rate : rl.rate = b.rate
  burst : (rl.burst : Rat) = b.burst
  nonneg : 0 ≤ rl.tokens
  le_burst : rl.tokens ≤ b.burst
  ideal : b.Ideal start rl.lastTime rl.tokens adm

theorem exact_new (rate : Rat) (burst : Int) (start : Rat) (hrate : 0 ≤ rate) (hburst : 0 ≤ burst) :
    Exact ⟨rate, burst, hrate, Int.cast_nonneg hburst⟩ start (new rate burst start) [] where
  rate := rfl
  burst := rfl
  nonneg := Int.cast_nonneg hburst
  le_burst := le_refl _
  ideal := TokenBucket.ideal_full _ start

theorem Exact.allow (h : Exact b start rl adm) (ht : rl.lastTime ≤ t) :
    Exact b start (rl.allow t).2 (adm ++ if (rl.allow t).1 then [t] else []) := by
  have hnonneg := b.refill_nonneg h.nonneg (sub_nonneg.mpr ht)
  have hle := b.refill_le_burst rl.tokens (t - rl.lastTime)
  have hideal := h.ideal.refill ht
  rw [RateLimiterRegistry.limiter_allow h.rate h.burst ht]
  by_cases hone : 1 ≤ b.refill rl.tokens (t - rl.lastTime)
  · simp only [hone, decide_true, if_true]
    exact ⟨h.rate, h.burst, sub_nonneg.mpr hone, by simp only; linarith, hideal.spend⟩
  · simp only [hone, decide_false, if_false, sub_zero, Bool.false_eq_true, List.append_nil]
    exact ⟨h.rate, h.burst, hnonneg, hle, hideal⟩

theorem lastTime_allow (rl : RateLimiter) (t : Rat) : (rl.allow t).2.lastTime = t := by
  unfold RateLimiter.allow
  dsimp only
  rw [apply_ite Prod.snd, apply_ite RateLimiter.lastTime, ite_self]

theorem Exact.after (h : Exact b start rl adm) (hts : (rl.lastTime :: ts).Pairwise (· ≤ ·)) :
    Exact b start (rl.after ts) (adm ++ rl.admitted ts) := by
  induction ts generalizing rl adm with
  | nil =>
    rw [admitted, List.append_nil]
    exact h
  | cons t ts ih =>
    obtain ⟨hfirst, hrest⟩ := List.pairwise_cons.mp hts
    have hstep := h.allow (hfirst t (.head _))
    rw [admitted, ← List.append_assoc]
    apply ih hstep
    rw [lastTime_allow]
    exact hrest

theorem lastTime_after (hts : (rl.lastTime :: (ts ++ [t])).Pairwise (· ≤ ·)) :
    (rl.after ts).lastTime ≤ t := by
  induction ts generalizing rl with
  | nil => exact (List.pairwise_cons.mp hts).1 t (by simp)
  | cons u ts ih =>
    apply ih
    rw [lastTime_allow]
    exact (List.pairwise_cons.mp hts).2

theorem Exact.refused_iff (h : Exact b start rl adm) (ht : rl.lastTime ≤ t) :
    (rl.allow t).1 = false ↔ ∃ s, start ≤ s ∧ s ≤ t ∧
      b.burst + b.rate * (t - s) - 1 < TokenBucket.within s t adm := by
  have hideal := h.ideal.refill ht
  rw [RateLimiterRegistry.limiter_allow h.rate h.burst ht, decide_eq_false_iff_not, not_le,
    hideal.lt_iff]
  apply exists_congr
  intro s
  rw [TokenBucket.within_eq_countFrom hideal.past, TokenBucket.allowance, sub_lt_iff_lt_add,
    sub_lt_iff_lt_add, add_comm (1 : Rat)]

/-- A limiter with the clock and the rate of the ideal bucket refuses exactly the calls that would
take some window above its allowance. -/
theorem allow_exact (rate : Rat) (burst : Int) (start : Rat) (ts : List Rat) (t : Rat)
    (hrate : 0 ≤ rate) (hburst : 0 ≤ burst)
    (horder : (start :: (ts ++ [t])).Pairwise (· ≤ ·)) :
    let rl := (new rate burst start).after ts
    0 ≤ rl.tokens ∧ rl.tokens ≤ burst ∧
    ((rl.allow t).1 = false ↔ ∃ s, start ≤ s ∧ s ≤ t ∧
      (burst : Rat) + rate * (t - s) - 1 <
        TokenBucket.within s t ((new rate burst start).admitted ts)) := by
  intro rl
  have hts : (start :: ts).Pairwise (· ≤ ·) :=
    List.Pairwise.sublist ((List.sublist_append_left ts [t]).cons_cons start) horder
  have hexact := (exact_new rate burst start hrate hburst).after hts
  have ht : rl.lastTime ≤ t := lastTime_after horder
  rw [List.nil_append] at hexact
  exact ⟨hexact.nonneg, hexact.le_burst, hexact.refused_iff ht⟩

theorem allow_exact_burst :
    let rl := (new 1 2 0).after [0, 0]
    0 ≤ rl.tokens ∧ rl.tokens ≤ (2 : Int) ∧
    ((rl.allow (1 / 2)).1 = false ↔ ∃ s, 0 ≤ s ∧ s ≤ 1 / 2 ∧
      ((2 : Int) : Rat) + 1 * (1 / 2 - s) - 1 <
        TokenBucket.within s (1 / 2) ((new 1 2 0).admitted [0, 0])) :=
  allow_exact 1 2 0 [0, 0] (1 / 2) (by norm_num) (by norm_num) (by norm_num)

end RateLimiter

end Pgmux
