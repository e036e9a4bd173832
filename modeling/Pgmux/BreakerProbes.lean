import Mathlib.Algebra.Order.Field.Basic
import Mathlib.Algebra.Order.Field.Rat
import Mathlib.Data.List.Infix
import Pgmux.Breaker

namespace Pgmux.CircuitBreaker

variable {cb : CircuitBreaker} {cfg : BreakerConfig} {o : Int × BreakerCall}
  {pre stay calls : List (Int × BreakerCall)}

def admits (cb : CircuitBreaker) (o : Int × BreakerCall) : Bool :=
  o.2 = .allow && (cb.allow o.1).1

def admissions (cb : CircuitBreaker) : List (Int × BreakerCall) → Nat
  | [] => 0
  | o :: os => (if cb.admits o then 1 else 0) + (cb.call o).admissions os

def allows (calls : List (Int × BreakerCall)) : Nat := calls.countP fun o => o.2 = .allow

/-- The calls from the one that makes an open breaker half-open on, all of which leave it half-open.
-/
structure Stay (cfg : BreakerConfig) (pre stay : List (Int × BreakerCall)) : Prop where
  nonempty : stay ≠ []
  before : (after cfg pre).state = .open
  during : ∀ part, part <+: stay → part ≠ [] → (after cfg (pre ++ part)).state = .halfOpen

def ProbesLimited (cfg : BreakerConfig) (calls : List (Int × BreakerCall)) : Prop :=
  ∀ pre stay, pre ++ stay <+: calls → Stay cfg pre stay →
    ((after cfg pre).admissions stay : Int) ≤ cfg.withDefaults.halfOpenMax

/-- The admitted requests of which no outcome was recorded yet, after one more call. -/
def pending (cb : CircuitBreaker) (n : Nat) (o : Int × BreakerCall) : Nat :=
  if cb.admits o then n + 1 else if isOutcome o.2 then n - 1 else n

def inFlightFrom (cb : CircuitBreaker) (n : Nat) : List (Int × BreakerCall) → Nat
  | [] => n
  | o :: os => (cb.call o).inFlightFrom (cb.pending n o) os

def inFlight (cfg : BreakerConfig) (calls : List (Int × BreakerCall)) : Nat :=
  (new cfg).inFlightFrom 0 calls

/-- The callers never have more than `k` requests in flight. -/
def InFlightAtMost (cfg : BreakerConfig) (k : Nat) (calls : List (Int × BreakerCall)) : Prop :=
  ∀ pre, pre <+: calls → inFlight cfg pre ≤ k

instance (cfg : BreakerConfig) (k : Nat) (calls : List (Int × BreakerCall)) :
    Decidable (InFlightAtMost cfg k calls) :=
  decidable_of_iff (∀ pre ∈ calls.inits, inFlight cfg pre ≤ k)
    (forall_congr' fun _ => imp_congr (List.mem_inits ..) Iff.rfl)

theorem after_append (cfg : BreakerConfig) (pre calls : List (Int × BreakerCall)) :
    after cfg (pre ++ calls) = calls.foldl call (after cfg pre) := by
  unfold after
  rw [List.foldl_append]

theorem Stay.state (h : Stay cfg pre stay) : (after cfg (pre ++ stay)).state = .halfOpen :=
  h.during stay (List.prefix_refl stay) h.nonempty

theorem Stay.of_append (h : Stay cfg pre (stay ++ rest)) (hne : stay ≠ []) : Stay cfg pre stay where
  nonempty := hne
  before := h.before
  during := fun part hpart => h.during part (hpart.trans (List.prefix_append stay rest))

theorem Stay.allow (h : Stay cfg pre stay) (now : Int) :
    Stay cfg pre (stay ++ [(now, .allow)]) where
  nonempty := by simp
  before := h.before
  during := by
    intro part hpart hne
    rcases List.prefix_concat_iff.mp hpart with rfl | hpart
    · rw [← List.append_assoc, after_snoc, call_other (.inr h.state) rfl]
      exact h.state
    · exact h.during part hpart hne

theorem admits_halfOpen (hs : cb.state = .halfOpen) : cb.admits o = decide (o.2 = .allow) := by
  simp [admits, CircuitBreaker.allow, hs]

theorem admits_opening (hs : cb.state = .open) (hc : (cb.call o).state = .halfOpen) :
    cb.admits o = decide (o.2 = .allow) := by
  obtain ⟨now, o⟩ := o
  cases o with
  | allow =>
    simp only [call, CircuitBreaker.allow, hs] at hc
    simp only [admits, CircuitBreaker.allow, hs]
    split at hc
    · rename_i hr
      simp [hr]
    · cases hs.symm.trans hc
  | recordSuccess => rfl
  | recordFailure => rfl
  | state => rfl

theorem admissions_append (cb : CircuitBreaker) (calls : List (Int × BreakerCall))
    (o : Int × BreakerCall) :
    cb.admissions (calls ++ [o]) =
      cb.admissions calls + if (calls.foldl call cb).admits o then 1 else 0 := by
  induction calls generalizing cb with
  | nil => exact Nat.add_comm ..
  | cons p calls ih =>
    rw [List.cons_append, admissions, admissions, ih, List.foldl_cons]
    omega

theorem allows_snoc (calls : List (Int × BreakerCall)) (o : Int × BreakerCall) :
    allows (calls ++ [o]) = allows calls + if o.2 = .allow then 1 else 0 := by
  unfold allows
  rw [List.countP_append, List.countP_singleton]
  simp

theorem Stay.admissions_eq (h : Stay cfg pre stay) :
    (after cfg pre).admissions stay = allows stay := by
  induction stay using List.reverseRecOn with
  | nil => exact absurd rfl h.nonempty
  | append_singleton stay o ih =>
    have hadmits : (stay.foldl call (after cfg pre)).admits o = decide (o.2 = .allow) := by
      by_cases hne : stay = []
      · subst hne
        apply admits_opening h.before
        rw [← after_snoc]
        exact h.state
      · apply admits_halfOpen
        rw [← after_append]
        exact (h.of_append hne).state
    have hstay : (after cfg pre).admissions stay = allows stay := by
      by_cases hne : stay = []
      · rw [hne]
        rfl
      · exact ih (h.of_append hne)
    rw [admissions_append, allows_snoc, hadmits, hstay]
    simp

theorem inFlightFrom_append (cb : CircuitBreaker) (n : Nat) (calls : List (Int × BreakerCall))
    (o : Int × BreakerCall) : cb.inFlightFrom n (calls ++ [o]) =
      (calls.foldl call cb).pending (cb.inFlightFrom n calls) o := by
  induction calls generalizing cb n with
  | nil => rfl
  | cons p calls ih => exact ih (cb.call p) (cb.pending n p)

theorem inFlight_snoc (cfg : BreakerConfig) (calls : List (Int × BreakerCall))
    (o : Int × BreakerCall) :
    inFlight cfg (calls ++ [o]) = (after cfg calls).pending (inFlight cfg calls) o :=
  inFlightFrom_append (new cfg) 0 calls o

def outcomes (calls : List (Int × BreakerCall)) : Nat := calls.countP fun o => isOutcome o.2

theorem outcomes_snoc (calls : List (Int × BreakerCall)) (o : Int × BreakerCall) :
    outcomes (calls ++ [o]) = outcomes calls + if isOutcome o.2 then 1 else 0 := by
  unfold outcomes
  rw [List.countP_append, List.countP_singleton]

theorem admissions_le_inFlight (cfg : BreakerConfig) (pre seg : List (Int × BreakerCall)) :
    (after cfg pre).admissions seg ≤ outcomes seg + inFlight cfg (pre ++ seg) := by
  induction seg using List.reverseRecOn with
  | nil => exact Nat.zero_le _
  | append_singleton seg o ih =>
    rw [admissions_append, outcomes_snoc, ← List.append_assoc, inFlight_snoc, ← after_append,
      pending]
    split
    · omega
    · split <;> simp_all; omega

theorem opening_not_outcome (hs : cb.state = .open) (hc : (cb.call o).state = .halfOpen) :
    isOutcome o.2 = false := by
  obtain ⟨now, o⟩ := o
  cases o with
  | allow => rfl
  | state => rfl
  | recordSuccess => simp [call, recordSuccess, hs] at hc
  | recordFailure => simp [call, recordFailure, hs] at hc

/-- A stay ends with its first failure: the outcomes in it are the successes that were counted. -/
theorem Stay.halfOpenOK (h : Stay cfg pre stay) :
    (after cfg (pre ++ stay)).halfOpenOK = outcomes stay := by
  induction stay using List.reverseRecOn with
  | nil => exact absurd rfl h.nonempty
  | append_singleton stay o ih =>
    have hstate := h.state
    rw [← List.append_assoc, after_snoc] at hstate ⊢
    rw [outcomes_snoc]
    by_cases hne : stay = []
    · subst hne
      rw [List.append_nil] at hstate ⊢
      have ho := opening_not_outcome h.before hstate
      rcases call_open (o := o) h.before with hc | hc
      · rw [hc] at hstate
        cases h.before.symm.trans hstate
      · rw [hc, if_neg (by simp [ho])]
        rfl
    · have hshort := h.of_append hne
      have hok := ih hshort
      have hs := hshort.state
      obtain ⟨now, o⟩ := o
      cases o with
      | allow => rw [call_other (.inr hs) rfl, hok]; rfl
      | state => rw [call_other (.inr hs) rfl, hok]; rfl
      | recordFailure => simp [call, recordFailure, hs] at hstate
      | recordSuccess =>
        simp only [call, recordSuccess, hs] at hstate ⊢
        split at hstate
        · cases hstate
        · rename_i hm
          rw [if_neg hm]
          exact congrArg (· + 1) hok

theorem Stay.outcomes_lt (h : Stay cfg pre stay) :
    (outcomes stay : Int) < cfg.withDefaults.halfOpenMax := by
  have hbound := ((tracks_after cfg (pre ++ stay)).halfOpen h.state).bounded
  rwa [h.halfOpenOK, (tracks_after cfg (pre ++ stay)).config] at hbound

/-- With at most `k` requests in flight, a half-open breaker admits fewer than `k` requests more
than are configured. -/
theorem half_open_admissions_lt (hk : InFlightAtMost cfg k calls) (hpre : pre ++ stay <+: calls)
    (hstay : Stay cfg pre stay) :
    ((after cfg pre).admissions stay : Int) < cfg.withDefaults.halfOpenMax + k := by
  have hle := admissions_le_inFlight cfg pre stay
  have hflight := hk _ hpre
  have hlt := hstay.outcomes_lt
  omega

theorem Stay.single (hs : (after cfg pre).state = .open)
    (hc : (after cfg (pre ++ [o])).state = .halfOpen) : Stay cfg pre [o] where
  nonempty := by simp
  before := hs
  during := by
    intro part hpart hne
    rcases List.prefix_concat_iff.mp (show part <+: [] ++ [o] from hpart) with rfl | hpart
    · exact hc
    · exact absurd (List.prefix_nil.mp hpart) hne

/-- One failure opens a window of one; two requests in flight are both admitted in the stay, where
one is configured. -/
theorem half_open_admissions_lt_two :
    let cfg : BreakerConfig := ⟨1 / 2, 10, 1, 1⟩
    let stay := [(10, .allow), (10, .allow)]
    Stay cfg [(0, .recordFailure)] stay ∧
      (after cfg [(0, .recordFailure)]).admissions stay = 2 ∧
      ((after cfg [(0, .recordFailure)]).admissions stay : Int) < 1 + 2 := by
  intro cfg stay
  have hstay : Stay cfg [(0, .recordFailure)] stay :=
    (Stay.single (o := (10, .allow)) (by decide +kernel) (by decide +kernel)).allow 10
  have hk : InFlightAtMost cfg 2 ([(0, .recordFailure)] ++ stay) := by decide +kernel
  exact ⟨hstay, by decide +kernel, half_open_admissions_lt hk (List.prefix_refl _) hstay⟩

section Overrun

theorem Stay.success (h : Stay cfg pre stay)
    (hlt : (outcomes stay : Int) + 1 < cfg.withDefaults.halfOpenMax) (now : Int) :
    Stay cfg pre (stay ++ [(now, .recordSuccess)]) where
  nonempty := by simp
  before := h.before
  during := by
    intro part hpart hne
    rcases List.prefix_concat_iff.mp hpart with rfl | hpart
    · have hcfg := (tracks_after cfg (pre ++ stay)).config
      have hok := h.halfOpenOK
      rw [← List.append_assoc, after_snoc]
      simp only [call, recordSuccess, h.state, hok, hcfg]
      rw [if_neg (by push_cast; omega)]
    · exact h.during part hpart hne

theorem openedAt_zero (h : ∀ o ∈ calls, o.1 = 0) : (after cfg calls).openedAt = 0 := by
  induction calls using List.reverseRecOn with
  | nil => rfl
  | append_singleton calls o ih =>
    rw [List.forall_mem_append, List.forall_mem_singleton] at h
    have hold := ih h.1
    rw [after_snoc]
    obtain ⟨now, o⟩ := o
    obtain rfl : now = 0 := h.2
    cases o <;> simp only [call, CircuitBreaker.allow, recordSuccess, recordFailure, readState,
      evaluateWindow, resetCounters, halfOpened] <;> (repeat' split) <;> first | rfl | exact hold

theorem after_failures {cfg : BreakerConfig} {n : Nat}
    (h : (n : Int) < cfg.withDefaults.windowSize) :
    (after cfg (List.replicate n (0, .recordFailure))).state = .closed ∧
      window cfg (List.replicate n (0, .recordFailure)) = List.replicate n .recordFailure := by
  induction n with
  | zero => exact ⟨rfl, rfl⟩
  | succ n ih =>
    obtain ⟨hs, hw⟩ := ih (by push_cast at h; omega)
    have hT := tracks_after cfg (List.replicate n (0, .recordFailure))
    have hk := hT.closed hs
    have htotal := hk.total
    have hopens := closed_opens (o := (0, .recordFailure)) hk hs
    rw [hw, List.length_replicate] at htotal
    rw [hw, List.length_replicate, hT.config] at hopens
    rw [List.replicate_succ', after_snoc, window_snoc, hw, List.replicate_succ']
    constructor
    · cases hc : ((after cfg (List.replicate n (0, .recordFailure))).call
        (0, .recordFailure)).state with
      | closed => rfl
      | halfOpen => exact (closed_not_halfOpen hs hc).elim
      | «open» =>
        have hfull := (hopens.mp hc).2.1
        push_cast at h
        omega
    · rw [if_neg]
      · rfl
      · simp only [resets, hs, hT.config, htotal, Bool.and_eq_true, decide_eq_true_eq]
        push_cast at h
        omega

/-- As many failures as the window has open the breaker. -/
def opening (cfg : BreakerConfig) : List (Int × BreakerCall) :=
  List.replicate cfg.withDefaults.windowSize.toNat (0, .recordFailure)

theorem after_opening (h : cfg.withDefaults.errorThreshold ≤ 1) :
    (after cfg (opening cfg)).state = .open := by
  obtain ⟨n, hn⟩ : ∃ n : Nat, cfg.withDefaults.windowSize = n + 1 :=
    ⟨(cfg.withDefaults.windowSize - 1).toNat, by have := windowSize_pos cfg; omega⟩
  obtain ⟨hs, hw⟩ := @after_failures cfg n (by omega)
  have hT := tracks_after cfg (List.replicate n (0, .recordFailure))
  rw [opening, show cfg.withDefaults.windowSize.toNat = n + 1 by omega, List.replicate_succ',
    after_snoc, closed_opens (hT.closed hs) hs, hw, hT.config, List.length_replicate,
    ← List.replicate_succ', List.count_replicate_self, hn]
  refine ⟨rfl, rfl, h.trans_eq ?_⟩
  push_cast
  exact (div_self (by exact_mod_cast Nat.succ_ne_zero n)).symm

/-- Two requests enter, and for each one that succeeds another enters. -/
def overrun (cfg : BreakerConfig) : Nat → List (Int × BreakerCall)
  | 0 => [(cfg.withDefaults.openDuration, .allow), (cfg.withDefaults.openDuration, .allow)]
  | n + 1 => overrun cfg n ++ [(cfg.withDefaults.openDuration, .recordSuccess)] ++
    [(cfg.withDefaults.openDuration, .allow)]

theorem outcomes_overrun (cfg : BreakerConfig) (n : Nat) : outcomes (overrun cfg n) = n := by
  induction n with
  | zero => rfl
  | succ n ih => rw [overrun, outcomes_snoc, outcomes_snoc, ih]; rfl

theorem allows_overrun (cfg : BreakerConfig) (n : Nat) : allows (overrun cfg n) = n + 2 := by
  induction n with
  | zero => rfl
  | succ n ih => rw [overrun, allows_snoc, allows_snoc, ih]; rfl

theorem stay_overrun (h : cfg.withDefaults.errorThreshold ≤ 1) {n : Nat}
    (hn : (n : Int) < cfg.withDefaults.halfOpenMax) : Stay cfg (opening cfg) (overrun cfg n) := by
  have hopen := after_opening h
  have hat : (after cfg (opening cfg)).openedAt = 0 :=
    openedAt_zero fun o ho => by rw [(List.mem_replicate.mp ho).2]
  induction n with
  | zero =>
    refine (Stay.single hopen ?_).allow cfg.withDefaults.openDuration
    have hcfg := (tracks_after cfg (opening cfg)).config
    rw [after_snoc]
    simp [call, CircuitBreaker.allow, hopen, rested, hat, hcfg, halfOpened]
  | succ n ih =>
    refine ((ih (by push_cast at hn; omega)).success ?_ _).allow _
    rw [outcomes_overrun]
    exact_mod_cast hn

theorem inFlight_opening (cfg : BreakerConfig) (n : Nat) :
    inFlight cfg (List.replicate n (0, .recordFailure)) = 0 := by
  induction n with
  | zero => rfl
  | succ n ih =>
    rw [List.replicate_succ', inFlight_snoc, ih]
    rfl

theorem pending_allow (cb : CircuitBreaker) (n : Nat) (now : Int) :
    cb.pending n (now, .allow) ≤ n + 1 := by
  unfold pending
  split
  · exact le_rfl
  · exact Nat.le_succ n

/-- Never more than two of the requests are in flight, and one of them after each success. -/
theorem inFlight_overrun (cfg : BreakerConfig) (n : Nat) :
    InFlightAtMost cfg 2 (opening cfg ++ overrun cfg n) := by
  have hopening : InFlightAtMost cfg 0 (opening cfg) := by
    intro pre hpre
    rw [opening, List.prefix_replicate_iff] at hpre
    rw [hpre.2, inFlight_opening]
  have hstep {k calls o} (h : InFlightAtMost cfg 2 calls)
      (ho : inFlight cfg (calls ++ [o]) ≤ k) (hk : k ≤ 2) :
      InFlightAtMost cfg 2 (calls ++ [o]) := by
    intro pre hpre
    rcases List.prefix_concat_iff.mp hpre with rfl | hpre
    · exact ho.trans hk
    · exact h pre hpre
  induction n with
  | zero =>
    have h₁ : inFlight cfg (opening cfg ++ [(cfg.withDefaults.openDuration, .allow)]) ≤ 1 := by
      rw [inFlight_snoc]
      exact (pending_allow ..).trans (Nat.succ_le_succ (hopening _ (List.prefix_refl _)))
    have hfirst := hstep (fun pre hpre => (hopening pre hpre).trans (Nat.zero_le 2)) h₁ (by decide)
    have := hstep (o := (cfg.withDefaults.openDuration, .allow)) hfirst (k := 2) (by
      rw [inFlight_snoc]
      exact (pending_allow ..).trans (Nat.succ_le_succ h₁)) le_rfl
    simpa [overrun] using this
  | succ n ih =>
    have h₁ : inFlight cfg (opening cfg ++ overrun cfg n ++
        [(cfg.withDefaults.openDuration, .recordSuccess)]) ≤ 1 := by
      have := ih _ (List.prefix_refl _)
      rw [inFlight_snoc]
      exact Nat.sub_le_of_le_add this
    have hfirst := hstep ih h₁ (by decide)
    have := hstep (o := (cfg.withDefaults.openDuration, .allow)) hfirst (k := 2) (by
      rw [inFlight_snoc]
      exact (pending_allow ..).trans (Nat.succ_le_succ h₁)) le_rfl
    simpa [overrun] using this

end Overrun

theorem closed_of_threshold (h : 1 < cfg.withDefaults.errorThreshold)
    (calls : List (Int × BreakerCall)) : (after cfg calls).state = .closed := by
  induction calls using List.reverseRecOn with
  | nil => rfl
  | append_singleton calls o ih =>
    have hT := tracks_after cfg calls
    rw [after_snoc]
    cases hs : ((after cfg calls).call o).state with
    | closed => rfl
    | halfOpen => exact (closed_not_halfOpen ih hs).elim
    | «open» =>
      -- The failures of a window are at most all of it.
      obtain ⟨-, hw, hrate⟩ := (closed_opens (hT.closed ih) ih).mp hs
      rw [hT.config] at hw hrate
      have hcount := List.count_le_length (a := BreakerCall.recordFailure)
        (l := window cfg calls ++ [o.2])
      rw [List.length_append, List.length_singleton] at hcount
      have hle : ((window cfg calls ++ [o.2]).count .recordFailure : Rat) ≤
          cfg.withDefaults.windowSize := by
        rw [← hw]
        exact_mod_cast hcount
      have hpos : (0 : Rat) < cfg.withDefaults.windowSize := by exact_mod_cast windowSize_pos cfg
      exact absurd (hrate.trans ((div_le_one hpos).mpr hle)) (not_le.mpr h)

/-- Half-open admission is limited for all callers with at most `k` requests in flight exactly when
`k` is at most one, or the breaker never opens. -/
theorem half_open_limited_iff (cfg : BreakerConfig) (k : Nat) :
    (∀ calls, InFlightAtMost cfg k calls → ProbesLimited cfg calls) ↔
      k ≤ 1 ∨ 1 < cfg.withDefaults.errorThreshold := by
  constructor
  · intro h
    by_contra hn
    rw [not_or, not_le, not_lt] at hn
    obtain ⟨n, hmax⟩ : ∃ n : Nat, cfg.withDefaults.halfOpenMax = n + 1 :=
      ⟨(cfg.withDefaults.halfOpenMax - 1).toNat, by have := halfOpenMax_pos cfg; omega⟩
    have hstay : Stay cfg (opening cfg) (overrun cfg n) := stay_overrun hn.2 (by omega)
    have hflight : InFlightAtMost cfg k (opening cfg ++ overrun cfg n) :=
      fun pre hpre => (inFlight_overrun cfg n pre hpre).trans hn.1
    have hle := h _ hflight _ _ (List.prefix_refl _) hstay
    rw [hstay.admissions_eq, allows_overrun] at hle
    omega
  · rintro (hk | ht) calls hflight pre stay hpre hstay
    · have hle := admissions_le_inFlight cfg pre stay
      have hone := (hflight _ hpre).trans hk
      have hlt := hstay.outcomes_lt
      omega
    · cases (closed_of_threshold ht pre).symm.trans hstay.before

/-- A window of one failure opens the breaker; it admits two requests where one is configured. -/
theorem half_open_admits_two : ∃ cfg calls, cfg.halfOpenMax = 1 ∧ ¬ ProbesLimited cfg calls := by
  refine ⟨⟨1 / 2, 10, 1, 1⟩, [(0, .recordFailure), (10, .allow), (10, .allow)], rfl, ?_⟩
  intro h
  have hstay : Stay ⟨1 / 2, 10, 1, 1⟩ [(0, .recordFailure)] ([(10, .allow)] ++ [(10, .allow)]) :=
    (Stay.single (by decide +kernel) (by decide +kernel)).allow 10
  have hlimit := h _ _ (List.prefix_refl _) hstay
  rw [hstay.admissions_eq] at hlimit
  exact absurd hlimit (by decide)

end Pgmux.CircuitBreaker
