import Mathlib.Data.Rat.Lemmas
import Mathlib.Logic.Function.Basic
import Pgmux.Bytes
import Pgmux.TokenBucket

namespace Pgmux

/-- A limiter; times in seconds, rates in tokens per second, as exact numbers. -/
structure RateLimiter where
  rate : Rat
  burst : Int
  tokens : Rat
  lastTime : Rat

namespace RateLimiter

def new (rate : Rat) (burst : Int) (now : Rat) : RateLimiter where
  rate := rate
  burst := burst
  tokens := burst
  lastTime := now

def allow (now : Rat) (rl : RateLimiter) : Bool × RateLimiter :=
  let elapsed := now - rl.lastTime
  -- the clock may have been set back
  let elapsed := if elapsed < 0 then 0 else elapsed
  let tokens := rl.tokens + elapsed * rl.rate
  let tokens := if (rl.burst : Rat) < tokens then (rl.burst : Rat) else tokens
  if 1 ≤ tokens then (true, { rl with tokens := tokens - 1, lastTime := now })
  else (false, { rl with tokens := tokens, lastTime := now })

end RateLimiter

structure Override where
  rate : Rat
  burst : Int

structure LimiterEntry where
  limiter : RateLimiter
  lastAccess : Rat

structure RegistryConfig where
  defaultRate : Rat
  defaultBurst : Int
  overrides : Bytes → Option Override
  cleanupTTL : Rat

structure RateLimiterRegistry where
  limiters : Bytes → Option LimiterEntry
  defaultRate : Rat
  defaultBurst : Int
  overrides : Bytes → Option Override
  cleanupTTL : Rat

inductive RegistryCall where
  | allow (key : Bytes)
  | evict

namespace RateLimiterRegistry

def new (cfg : RegistryConfig) : RateLimiterRegistry where
  limiters _ := none
  defaultRate := cfg.defaultRate
  defaultBurst := cfg.defaultBurst
  overrides := cfg.overrides
  cleanupTTL := if cfg.cleanupTTL = 0 then 10 * 60 else cfg.cleanupTTL

def limit (r : RateLimiterRegistry) (key : Bytes) : Override :=
  (r.overrides key).getD ⟨r.defaultRate, r.defaultBurst⟩

def limiterFor (now : Rat) (key : Bytes) (r : RateLimiterRegistry) : RateLimiter :=
  match r.limiters key with
  | some e => e.limiter
  | none => .new (r.limit key).rate (r.limit key).burst now

def allow (now : Rat) (key : Bytes) (r : RateLimiterRegistry) : Bool × RateLimiterRegistry :=
  let answer := (r.limiterFor now key).allow now
  (answer.1, { r with limiters := Function.update r.limiters key (some ⟨answer.2, now⟩) })

def evict (now : Rat) (r : RateLimiterRegistry) : RateLimiterRegistry :=
  let cutoff := now - r.cleanupTTL
  { r with limiters := fun key => (r.limiters key).filter fun e => ¬ e.lastAccess < cutoff }

def call (r : RateLimiterRegistry) : Rat × RegistryCall → RateLimiterRegistry
  | (now, .allow key) => (r.allow now key).2
  | (now, .evict) => r.evict now

def admits (r : RateLimiterRegistry) (key : Bytes) : Rat × RegistryCall → Bool
  | (now, .allow k) => k = key && (r.allow now k).1
  | (_, .evict) => false

def admitted (key : Bytes) (r : RateLimiterRegistry) : List (Rat × RegistryCall) → List Rat
  | [] => []
  | c :: cs => (if r.admits key c then [c.1] else []) ++ admitted key (r.call c) cs

end RateLimiterRegistry

def InOrder (calls : List (Rat × RegistryCall)) : Prop := (calls.map Prod.fst).Pairwise (· ≤ ·)

def unevicted (calls : List (Rat × RegistryCall)) : List (Rat × RegistryCall) :=
  calls.filter fun c => match c.2 with
    | .allow _ => true
    | .evict => false

def requestTimes (key : Bytes) (calls : List (Rat × RegistryCall)) : List Rat :=
  (calls.filter fun c => match c.2 with
    | .allow k => decide (k = key)
    | .evict => false).map Prod.fst

section Runs

variable {key : Bytes} {calls : List (Rat × RegistryCall)}

theorem requestTimes_unevicted (key : Bytes) (calls : List (Rat × RegistryCall)) :
    requestTimes key (unevicted calls) = requestTimes key calls := by
  unfold requestTimes unevicted
  rw [List.filter_filter]
  congr 2
  funext c
  obtain ⟨t, k | _⟩ := c <;> simp

theorem InOrder.unevicted (h : InOrder calls) : InOrder (unevicted calls) :=
  List.Pairwise.sublist (List.filter_sublist.map _) h

theorem evict_not_mem_unevicted : (t, .evict) ∉ unevicted calls := by
  simp [Pgmux.unevicted]

theorem InOrder.requestTimes (h : InOrder calls) : (requestTimes key calls).Pairwise (· ≤ ·) :=
  List.Pairwise.sublist (List.filter_sublist.map _) h

theorem mem_requestTimes (h : t ∈ requestTimes key calls) : (t, .allow key) ∈ calls := by
  obtain ⟨⟨u, k | _⟩, hmem, rfl⟩ := List.mem_map.mp h
  · obtain ⟨hmem, hk⟩ := List.mem_filter.mp hmem
    rw [of_decide_eq_true hk] at hmem
    exact hmem
  · cases (List.mem_filter.mp hmem).2

theorem InOrder.start (h : InOrder calls) : ∃ s : Rat, ∀ c ∈ calls, s ≤ c.1 := by
  cases calls with
  | nil => exact ⟨0, by simp⟩
  | cons c calls =>
    refine ⟨c.1, ?_⟩
    intro c' hc'
    rcases List.mem_cons.mp hc' with rfl | hc'
    · exact le_refl _
    · exact (List.pairwise_cons.mp h).1 c'.1 (List.mem_map_of_mem hc')

end Runs

namespace RateLimiterRegistry

variable {r : RateLimiterRegistry} {key : Bytes} {b : TokenBucket Rat} {level since now t : Rat}
  {calls : List (Rat × RegistryCall)} {c : Rat × RegistryCall}

/-- The limiter of a key has the level that the bucket has, or there is none and the bucket is full
by now. -/
structure Follows (b : TokenBucket Rat) (r : RateLimiterRegistry) (key : Bytes)
    (level since now : Rat) : Prop where
  rate : (r.limit key).rate = b.rate
  burst : ((r.limit key).burst : Rat) = b.burst
  nonneg : 0 ≤ level
  past : since ≤ now
  held : ∀ e, r.limiters key = some e → e.limiter.rate = b.rate ∧
    (e.limiter.burst : Rat) = b.burst ∧ e.limiter.tokens = level ∧ e.limiter.lastTime = since ∧
    e.lastAccess = since
  absent : r.limiters key = none → b.refill level (now - since) = b.burst

theorem limiter_allow {rl : RateLimiter} (hrate : rl.rate = b.rate)
    (hburst : (rl.burst : Rat) = b.burst) (ht : rl.lastTime ≤ t) :
    rl.allow t =
      (decide (1 ≤ b.refill rl.tokens (t - rl.lastTime)),
        { rl with
          tokens := b.refill rl.tokens (t - rl.lastTime) -
            if 1 ≤ b.refill rl.tokens (t - rl.lastTime) then 1 else 0
          lastTime := t }) := by
  have hclock : (if t - rl.lastTime < 0 then 0 else t - rl.lastTime) = t - rl.lastTime :=
    if_neg (not_lt.mpr (sub_nonneg.mpr ht))
  have hcap : (if (rl.burst : Rat) < rl.tokens + (t - rl.lastTime) * rl.rate then (rl.burst : Rat)
      else rl.tokens + (t - rl.lastTime) * rl.rate) = b.refill rl.tokens (t - rl.lastTime) := by
    rw [hrate, hburst, TokenBucket.refill, min_def]
    split_ifs <;> linarith
  unfold RateLimiter.allow
  dsimp only
  rw [hclock, hcap]
  split
  · rename_i hone
    rw [decide_eq_true hone]
  · rename_i hone
    rw [decide_eq_false hone, sub_zero]

theorem limiters_allow_self (r : RateLimiterRegistry) (t : Rat) (key : Bytes) :
    (r.allow t key).2.limiters key = some ⟨((r.limiterFor t key).allow t).2, t⟩ :=
  Function.update_self ..

theorem limiters_allow_other (r : RateLimiterRegistry) (t : Rat) (h : key ≠ k) :
    (r.allow t k).2.limiters key = r.limiters key :=
  Function.update_of_ne h ..

theorem Follows.absent_later (h : Follows b r key level since now) (ht : now ≤ t)
    (hnone : r.limiters key = none) : b.refill level (t - since) = b.burst := by
  have hsum : t - since = (now - since) + (t - now) := by ring
  rw [hsum, ← b.refill_refill _ _ (sub_nonneg.mpr ht), h.absent hnone,
    b.refill_burst (sub_nonneg.mpr ht)]

theorem Follows.limiterFor (h : Follows b r key level since now) (ht : now ≤ t) :
    (r.limiterFor t key).rate = b.rate ∧ ((r.limiterFor t key).burst : Rat) = b.burst ∧
      (r.limiterFor t key).lastTime ≤ t ∧
      b.refill (r.limiterFor t key).tokens (t - (r.limiterFor t key).lastTime) =
        b.refill level (t - since) := by
  unfold RateLimiterRegistry.limiterFor
  cases he : r.limiters key with
  | some e =>
    obtain ⟨hrate, hburst, htokens, hlast, -⟩ := h.held e he
    dsimp only
    rw [htokens, hlast]
    exact ⟨hrate, hburst, le_trans h.past ht, rfl⟩
  | none =>
    refine ⟨h.rate, h.burst, le_refl t, ?_⟩
    rw [h.absent_later ht he]
    show b.refill ((r.limit key).burst : Rat) (t - t) = b.burst
    rw [h.burst, sub_self, b.refill_burst (le_refl 0)]

theorem Follows.request (h : Follows b r key level since now) (ht : now ≤ t) :
    (r.allow t key).1 = decide (1 ≤ b.refill level (t - since)) ∧
      Follows b (r.allow t key).2 key
        (b.refill level (t - since) - if 1 ≤ b.refill level (t - since) then 1 else 0) t t := by
  obtain ⟨hrate, hburst, hpast, hrefill⟩ := h.limiterFor ht
  have hanswer := limiter_allow hrate hburst hpast
  rw [hrefill] at hanswer
  have hself := limiters_allow_self r t key
  rw [hanswer] at hself
  refine ⟨congrArg Prod.fst hanswer, h.rate, h.burst, ?_, le_refl t, ?_, ?_⟩
  · split
    · rename_i hone
      exact sub_nonneg.mpr hone
    · rw [sub_zero]
      exact b.refill_nonneg h.nonneg (sub_nonneg.mpr (le_trans h.past ht))
  · intro e he
    cases hself.symm.trans he
    exact ⟨hrate, hburst, rfl, rfl, rfl⟩
  · intro hnone
    cases hself.symm.trans hnone

theorem Follows.other (h : Follows b r key level since now) (ht : now ≤ t) (hk : key ≠ k) :
    Follows b (r.allow t k).2 key level since t where
  rate := h.rate
  burst := h.burst
  nonneg := h.nonneg
  past := le_trans h.past ht
  held := by
    intro e he
    rw [limiters_allow_other r t hk] at he
    exact h.held e he
  absent := by
    intro hnone
    rw [limiters_allow_other r t hk] at hnone
    exact h.absent_later ht hnone

/-- A cleanup removes a limiter only if its bucket has become full, provided that the time to live
is long enough. -/
theorem Follows.cleanup (h : Follows b r key level since now) (ht : now ≤ t)
    (hcond : b.burst = 0 ∨ b.burst ≤ b.rate * r.cleanupTTL) :
    Follows b (r.evict t) key level since t where
  rate := h.rate
  burst := h.burst
  nonneg := h.nonneg
  past := le_trans h.past ht
  held := by
    intro e he
    exact h.held e (Option.mem_filter_iff.mp he).1
  absent := by
    intro hnone
    cases he : r.limiters key with
    | none => exact h.absent_later ht he
    | some e =>
      have hidle : e.lastAccess < t - r.cleanupTTL := by
        by_contra hbusy
        have hstays : (r.evict t).limiters key = some e := by
          simp only [evict, he]
          exact Option.filter_some_pos (decide_eq_true hbusy)
        cases hstays.symm.trans hnone
      rw [(h.held e he).2.2.2.2] at hidle
      apply b.refill_full h.nonneg
      rcases hcond with hzero | hlong
      · rw [hzero]
        exact mul_nonneg (sub_nonneg.mpr (le_trans h.past ht)) b.rate_nonneg
      · have hmul := mul_le_mul_of_nonneg_right (le_of_lt (lt_sub_comm.mp hidle)) b.rate_nonneg
        linarith

theorem cleanupTTL_call (r : RateLimiterRegistry) (c : Rat × RegistryCall) :
    (r.call c).cleanupTTL = r.cleanupTTL := by
  obtain ⟨t, k | _⟩ := c <;> rfl

theorem Follows.admitted_eq (h : Follows b r key level since now) (htimed : InOrder calls)
    (hfrom : ∀ c ∈ calls, now ≤ c.1)
    (hcond : (∃ t, (t, .evict) ∈ calls) → b.burst = 0 ∨ b.burst ≤ b.rate * r.cleanupTTL) :
    admitted key r calls = b.admitted level since (requestTimes key calls) := by
  induction calls generalizing r level since now with
  | nil => rfl
  | cons c calls ih =>
    obtain ⟨hafter, hrest⟩ := List.pairwise_cons.mp htimed
    have hlater : ∀ c' ∈ calls, c.1 ≤ c'.1 := fun c' hc' =>
      hafter c'.1 (List.mem_map_of_mem hc')
    have hcond' : (∃ t, (t, .evict) ∈ calls) →
        b.burst = 0 ∨ b.burst ≤ b.rate * (r.call c).cleanupTTL := by
      rw [cleanupTTL_call]
      exact fun h => h.elim fun t ht => hcond ⟨t, List.mem_cons_of_mem c ht⟩
    have ht := hfrom c (.head _)
    rw [admitted]
    obtain ⟨t, k | _⟩ := c
    · change now ≤ t at ht
      by_cases hk : key = k
      · subst hk
        obtain ⟨hanswer, hnext⟩ := h.request ht
        have hreq : requestTimes key ((t, .allow key) :: calls) = t :: requestTimes key calls := by
          simp [requestTimes]
        have hih := ih hnext hrest hlater hcond'
        rw [hreq, TokenBucket.admitted]
        by_cases hone : 1 ≤ b.refill level (t - since)
        · have hadmits : r.admits key (t, .allow key) := by
            simp [admits, hanswer, hone]
          rw [if_pos hone] at hih
          rw [hadmits, if_pos rfl, if_pos hone]
          exact congrArg (t :: ·) hih
        · have hadmits : r.admits key (t, .allow key) = false := by
            simp [admits, hanswer, hone]
          rw [if_neg hone, sub_zero] at hih
          rw [hadmits, if_neg hone]
          exact hih
      · have hreq : requestTimes key ((t, .allow k) :: calls) = requestTimes key calls := by
          simp [requestTimes, Ne.symm hk]
        have hadmits : r.admits key (t, .allow k) = false := by
          simp [admits, Ne.symm hk]
        rw [hreq, hadmits]
        exact ih (h.other ht hk) hrest hlater hcond'
    · have hreq : requestTimes key ((t, .evict) :: calls) = requestTimes key calls := by
        simp [requestTimes]
      rw [hreq]
      exact ih (h.cleanup ht (hcond ⟨t, .head _⟩)) hrest hlater hcond'

theorem Follows.full (hrate : (r.limit key).rate = b.rate)
    (hburst : ((r.limit key).burst : Rat) = b.burst) (hnone : r.limiters key = none) (now : Rat) :
    Follows b r key b.burst now now where
  rate := hrate
  burst := hburst
  nonneg := b.burst_nonneg
  past := le_refl now
  held := by
    intro e he
    cases hnone.symm.trans he
  absent := fun _ => by rw [sub_self, b.refill_burst (le_refl 0)]

/-- The requests for a key that are admitted in an interval are at most the burst and what the rate
brings in its time. -/
structure Limited (cfg : RegistryConfig) (key : Bytes) (calls : List (Rat × RegistryCall)) :
    Prop where
  bounded : ∀ t₁ t₂, t₁ ≤ t₂ → (TokenBucket.within t₁ t₂ (admitted key (new cfg) calls) : Rat) ≤
    ((new cfg).limit key).burst + ((new cfg).limit key).rate * (t₂ - t₁)
  neutral : (admitted key (new cfg) calls).length ≤
    (admitted key (new cfg) (unevicted calls)).length

theorem limited_of_long_ttl (hburst : 0 ≤ ((new cfg).limit key).burst)
    (hrate : 0 ≤ ((new cfg).limit key).rate)
    (hcond : ((new cfg).limit key).burst = 0 ∨
      (((new cfg).limit key).burst : Rat) ≤ ((new cfg).limit key).rate * (new cfg).cleanupTTL)
    (htimed : InOrder calls) : Limited cfg key calls := by
  let b : TokenBucket Rat :=
    ⟨((new cfg).limit key).rate, ((new cfg).limit key).burst, hrate, by exact_mod_cast hburst⟩
  have hlong : b.burst = 0 ∨ b.burst ≤ b.rate * (new cfg).cleanupTTL :=
    hcond.imp (fun hzero => by show ((_ : Int) : Rat) = 0; rw [hzero]; rfl) id
  obtain ⟨s, hs⟩ := htimed.start
  have hfull : Follows b (new cfg) key b.burst s s := .full rfl rfl rfl s
  have heq := hfull.admitted_eq htimed hs fun _ => hlong
  have hkept : admitted key (new cfg) (unevicted calls) = admitted key (new cfg) calls := by
    rw [heq, hfull.admitted_eq htimed.unevicted (fun c hc => hs c (List.mem_of_mem_filter hc))
      (fun h => h.elim fun _ ht => (evict_not_mem_unevicted ht).elim), requestTimes_unevicted]
  refine ⟨?_, le_of_eq (by rw [hkept])⟩
  intro t₁ t₂ h
  rw [heq]
  exact b.within_le_burst b.burst_nonneg h htimed.requestTimes fun t ht =>
    hs _ (mem_requestTimes ht)

def after (r : RateLimiterRegistry) (calls : List (Rat × RegistryCall)) : RateLimiterRegistry :=
  calls.foldl call r

theorem admitted_append (key : Bytes) (r : RateLimiterRegistry)
    (first rest : List (Rat × RegistryCall)) :
    admitted key r (first ++ rest) = admitted key r first ++ admitted key (r.after first) rest := by
  induction first generalizing r with
  | nil => rfl
  | cons c first ih =>
    rw [List.cons_append, admitted, admitted, ih, List.append_assoc]
    rfl

def drain (key : Bytes) (n : Nat) (t : Rat) : List (Rat × RegistryCall) :=
  List.replicate n (t, .allow key)

theorem limit_after (r : RateLimiterRegistry) (calls : List (Rat × RegistryCall)) (key : Bytes) :
    (r.after calls).limit key = r.limit key := by
  induction calls generalizing r with
  | nil => rfl
  | cons c calls ih =>
    rw [after, List.foldl_cons, ← after, ih]
    obtain ⟨t, k | _⟩ := c <;> rfl

theorem cleanupTTL_after (r : RateLimiterRegistry) (calls : List (Rat × RegistryCall)) :
    (r.after calls).cleanupTTL = r.cleanupTTL := by
  induction calls generalizing r with
  | nil => rfl
  | cons c calls ih => rw [after, List.foldl_cons, ← after, ih, cleanupTTL_call]

theorem drain_lastAccess (h : ∀ e, r.limiters key = some e → e.lastAccess = t) (n : Nat) :
    ∀ e, (r.after (drain key n t)).limiters key = some e → e.lastAccess = t := by
  induction n generalizing r with
  | zero => exact h
  | succ n ih =>
    apply ih (r := (r.allow t key).2)
    intro e he
    cases (limiters_allow_self r t key).symm.trans he
    rfl

theorem bucket_drain {n : Nat} (hn : (n : Rat) ≤ level) (hl : level ≤ b.burst) :
    b.admitted level t (List.replicate n t) = List.replicate n t := by
  induction n generalizing level with
  | zero => rfl
  | succ n ih =>
    have hsame : b.refill level (t - t) = level := by
      rw [sub_self, TokenBucket.refill, zero_mul, add_zero, min_eq_right hl]
    push_cast at hn
    have hnn : (0 : Rat) ≤ n := Nat.cast_nonneg n
    rw [List.replicate_succ, TokenBucket.admitted, hsame, if_pos (by linarith),
      ih (by linarith) (by linarith)]

theorem admitted_drain {n : Nat} (hrate : 0 ≤ (r.limit key).rate)
    (hburst : (r.limit key).burst = (n : Int))
    (hnone : r.limiters key = none) (t : Rat) :
    admitted key r (drain key n t) = List.replicate n t := by
  let b : TokenBucket Rat := ⟨(r.limit key).rate, n, hrate, Nat.cast_nonneg n⟩
  have hfull : Follows b r key b.burst t t :=
    .full rfl (by rw [hburst]; rfl) hnone t
  have htimed : InOrder (drain key n t) := by
    unfold InOrder drain
    rw [List.map_replicate]
    exact List.pairwise_replicate.mpr (.inr (le_refl t))
  have hreq : requestTimes key (drain key n t) = List.replicate n t := by
    simp [requestTimes, drain]
  rw [hfull.admitted_eq htimed (fun c hc => by rw [List.eq_of_mem_replicate hc])
    (fun h => h.elim fun _ hu => by cases List.eq_of_mem_replicate hu), hreq]
  exact bucket_drain (le_refl _) (le_refl _)

def drainTwice (key : Bytes) (n : Nat) (t : Rat) : List (Rat × RegistryCall) :=
  drain key n 0 ++ ((t, .evict) :: drain key n t)

theorem admitted_drainTwice {n : Nat} (hrate : 0 ≤ ((new cfg).limit key).rate)
    (hburst : ((new cfg).limit key).burst = (n : Int)) (ht : (new cfg).cleanupTTL < t) :
    admitted key (new cfg) (drainTwice key n t) = List.replicate n 0 ++ List.replicate n t := by
  have hlimit := limit_after (new cfg) (drain key n 0) key
  have hgone : (((new cfg).after (drain key n 0)).evict t).limiters key = none := by
    have hfirst (e : LimiterEntry) (he : (new cfg).limiters key = some e) : e.lastAccess = 0 := by
      cases he
    have hlast := drain_lastAccess hfirst n
    apply Option.filter_eq_none_iff.mpr
    intro e he
    rw [decide_eq_true_eq, not_not, hlast e he, cleanupTTL_after]
    exact sub_pos.mpr ht
  rw [drainTwice, admitted_append, admitted_drain hrate hburst rfl]
  rw [← hlimit] at hrate hburst
  exact congrArg _ (admitted_drain (r := ((new cfg).after (drain key n 0)).evict t) hrate hburst
    hgone t)

theorem within_replicate {t₁ t₂ : Rat} (h₁ : t₁ ≤ t) (h₂ : t ≤ t₂) :
    TokenBucket.within t₁ t₂ (List.replicate n t) = n := by
  unfold TokenBucket.within
  rw [List.countP_replicate, if_pos (decide_eq_true ⟨h₁, h₂⟩)]

theorem timed_drainTwice (key : Bytes) (n : Nat) (ht : 0 ≤ t) : InOrder (drainTwice key n t) := by
  unfold InOrder drainTwice drain
  rw [List.map_append, List.map_cons, List.map_replicate, List.map_replicate]
  refine List.pairwise_append.mpr ⟨List.pairwise_replicate.mpr (.inr (le_refl 0)), ?_, ?_⟩
  · refine List.pairwise_cons.mpr ⟨?_, List.pairwise_replicate.mpr (.inr (le_refl t))⟩
    intro u hu
    rw [List.eq_of_mem_replicate hu]
  · intro u hu v hv
    rw [List.eq_of_mem_replicate hu]
    rcases List.mem_cons.mp hv with rfl | hv
    · exact ht
    · rw [List.eq_of_mem_replicate hv]
      exact ht

theorem exists_short {rate burst ttl : Rat} (hrate : 0 ≤ rate) (hburst : 0 < burst)
    (h : rate * ttl < burst) : ∃ t, 0 ≤ t ∧ ttl < t ∧ rate * t < burst := by
  by_cases httl : ttl < 0
  · exact ⟨0, le_refl 0, httl, by rwa [mul_zero]⟩
  · rw [not_lt] at httl
    have hden : 0 < rate + 1 := by linarith
    have hd : 0 < (burst - rate * ttl) / (rate + 1) := div_pos (sub_pos.mpr h) hden
    have hmul : (burst - rate * ttl) / (rate + 1) * (rate + 1) = burst - rate * ttl :=
      div_mul_cancel₀ _ (ne_of_gt hden)
    refine ⟨ttl + (burst - rate * ttl) / (rate + 1), by linarith, by linarith, ?_⟩
    linarith

/-- The limits hold in every run, whatever is evicted, exactly if an idle limiter is kept long
enough for its bucket to fill. -/
theorem eviction_neutral_iff (cfg : RegistryConfig) (key : Bytes) :
    (∀ calls, InOrder calls → Limited cfg key calls) ↔
      0 ≤ ((new cfg).limit key).burst ∧ 0 ≤ ((new cfg).limit key).rate ∧
        (((new cfg).limit key).burst = 0 ∨
          (((new cfg).limit key).burst : Rat) ≤
            ((new cfg).limit key).rate * (new cfg).cleanupTTL) := by
  constructor
  · intro h
    have hempty := (h [] List.Pairwise.nil).bounded
    have hburst : 0 ≤ ((new cfg).limit key).burst := by
      have hzero := hempty 0 0 (le_refl 0)
      rw [sub_self, mul_zero, add_zero] at hzero
      exact_mod_cast hzero
    have hrate : 0 ≤ ((new cfg).limit key).rate := by
      by_contra hneg
      rw [not_le] at hneg
      have hnn : (0 : Rat) ≤ ((new cfg).limit key).burst := by exact_mod_cast hburst
      have hlong := hempty 0 ((((new cfg).limit key).burst + 1) / -((new cfg).limit key).rate)
        (div_nonneg (by linarith) (by linarith))
      have hmul : ((new cfg).limit key).rate *
          ((((new cfg).limit key).burst + 1) / -((new cfg).limit key).rate) =
          -(((new cfg).limit key).burst + 1) := by
        rw [div_neg, mul_neg, mul_div_cancel₀ _ (ne_of_lt hneg)]
      rw [sub_zero, hmul] at hlong
      have hzero : (0 : Rat) ≤ -1 := by
        refine le_trans (Nat.cast_nonneg _) (le_trans hlong (le_of_eq ?_))
        ring
      linarith
    refine ⟨hburst, hrate, ?_⟩
    by_contra hshort
    obtain ⟨hpos, hlt⟩ := not_or.mp hshort
    obtain ⟨n, hn⟩ := Int.eq_ofNat_of_zero_le hburst
    have hn0 : (0 : Rat) < n := by
      have hne : n ≠ 0 := fun hz => hpos (by rw [hn, hz]; rfl)
      exact_mod_cast Nat.pos_of_ne_zero hne
    rw [hn] at hlt
    obtain ⟨t, ht, httl, hfill⟩ := exists_short hrate hn0 (not_le.mp hlt)
    have hbound := (h _ (timed_drainTwice key n ht)).bounded 0 t ht
    rw [admitted_drainTwice hrate hn httl, TokenBucket.within, List.countP_append,
      ← TokenBucket.within, ← TokenBucket.within, within_replicate (le_refl 0) ht,
      within_replicate ht (le_refl t), hn, sub_zero] at hbound
    push_cast at hbound
    linarith
  · rintro ⟨hburst, hrate, hcond⟩ calls htimed
    exact limited_of_long_ttl hburst hrate hcond htimed

/-- Two requests in ten seconds more than allowed: the limiter is evicted after ten seconds, when
its bucket has one token of two. -/
theorem evicted_limiter_restarts_full : ∃ cfg key calls, InOrder calls ∧
    (new cfg).limit key = ⟨1 / 10, 2⟩ ∧ ¬ Limited cfg key calls := by
  have hadmitted : admitted [] (new ⟨1 / 10, 2, fun _ => none, 10⟩) (drainTwice [] 2 11) =
      List.replicate 2 0 ++ List.replicate 2 11 :=
    admitted_drainTwice (by decide +kernel) rfl (by decide +kernel)
  refine ⟨⟨1 / 10, 2, fun _ => none, 10⟩, [], drainTwice [] 2 11,
    timed_drainTwice [] 2 (by decide +kernel), rfl, ?_⟩
  intro h
  have hbound := h.bounded 0 11 (by decide +kernel)
  rw [hadmitted] at hbound
  exact absurd hbound (by decide +kernel)

end RateLimiterRegistry

end Pgmux
