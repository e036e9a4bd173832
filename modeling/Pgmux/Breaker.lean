import Mathlib.Data.Rat.Lemmas
import Pgmux.History

namespace Pgmux

inductive BreakerState where
  | closed
  | open
  | halfOpen
  deriving DecidableEq

/-- The configuration of a breaker; durations in nanoseconds, the threshold as a rational. -/
structure BreakerConfig where
  errorThreshold : Rat
  openDuration : Int
  halfOpenMax : Int
  windowSize : Int
  deriving DecidableEq

/-- The values that `NewCircuitBreaker` puts in place of those that are not positive. -/
def BreakerConfig.withDefaults (cfg : BreakerConfig) : BreakerConfig where
  windowSize := if cfg.windowSize ≤ 0 then 10 else cfg.windowSize
  halfOpenMax := if cfg.halfOpenMax ≤ 0 then 3 else cfg.halfOpenMax
  openDuration := if cfg.openDuration ≤ 0 then 10 * 1000000000 else cfg.openDuration
  errorThreshold := if cfg.errorThreshold ≤ 0 then 1 / 2 else cfg.errorThreshold

structure CircuitBreaker where
  cfg : BreakerConfig
  state : BreakerState
  successes : Nat
  failures : Nat
  total : Nat
  openedAt : Int
  halfOpenOK : Nat
  deriving DecidableEq

namespace CircuitBreaker

def new (cfg : BreakerConfig) : CircuitBreaker where
  cfg := cfg.withDefaults
  state := .closed
  successes := 0
  failures := 0
  total := 0
  openedAt := 0
  halfOpenOK := 0

def rested (now : Int) (cb : CircuitBreaker) : Bool := cb.cfg.openDuration ≤ now - cb.openedAt

def halfOpened (cb : CircuitBreaker) : CircuitBreaker :=
  { cb with state := .halfOpen, halfOpenOK := 0 }

def allow (now : Int) (cb : CircuitBreaker) : Bool × CircuitBreaker :=
  match cb.state with
  | .closed => (true, cb)
  | .open => if cb.rested now then (true, cb.halfOpened) else (false, cb)
  | .halfOpen => (true, cb)

def resetCounters (cb : CircuitBreaker) : CircuitBreaker :=
  { cb with successes := 0, failures := 0, total := 0 }

def evaluateWindow (now : Int) (cb : CircuitBreaker) : CircuitBreaker :=
  if cb.total < cb.cfg.windowSize then cb
  else
    let errorRate : Rat := cb.failures / cb.total
    let cb := if cb.cfg.errorThreshold ≤ errorRate then { cb with state := .open, openedAt := now }
      else cb
    cb.resetCounters

def recordSuccess (now : Int) (cb : CircuitBreaker) : CircuitBreaker :=
  match cb.state with
  | .closed =>
    evaluateWindow now { cb with successes := cb.successes + 1, total := cb.total + 1 }
  | .open => cb
  | .halfOpen =>
    let cb := { cb with halfOpenOK := cb.halfOpenOK + 1 }
    if cb.cfg.halfOpenMax ≤ cb.halfOpenOK then { cb with state := .closed }.resetCounters else cb

def recordFailure (now : Int) (cb : CircuitBreaker) : CircuitBreaker :=
  match cb.state with
  | .closed => evaluateWindow now { cb with failures := cb.failures + 1, total := cb.total + 1 }
  | .open => cb
  | .halfOpen => { cb with state := .open, openedAt := now }

/-- `State`, which lets an open breaker become half-open as `Allow` does. -/
def readState (now : Int) (cb : CircuitBreaker) : BreakerState × CircuitBreaker :=
  let cb := if cb.state = .open && cb.rested now then cb.halfOpened else cb
  (cb.state, cb)

end CircuitBreaker

inductive BreakerCall where
  | allow
  | recordSuccess
  | recordFailure
  | state
  deriving DecidableEq

namespace CircuitBreaker

def call (cb : CircuitBreaker) : Int × BreakerCall → CircuitBreaker
  | (now, .allow) => (cb.allow now).2
  | (now, .recordSuccess) => cb.recordSuccess now
  | (now, .recordFailure) => cb.recordFailure now
  | (now, .state) => (cb.readState now).2

def after (cfg : BreakerConfig) (calls : List (Int × BreakerCall)) : CircuitBreaker :=
  calls.foldl call (new cfg)

theorem after_snoc (cfg : BreakerConfig) (calls : List (Int × BreakerCall))
    (o : Int × BreakerCall) : after cfg (calls ++ [o]) = (after cfg calls).call o := by
  unfold after
  rw [List.foldl_append]
  rfl

def isOutcome : BreakerCall → Bool
  | .recordSuccess | .recordFailure => true
  | _ => false

/-- The call makes the breaker reset its counters: it completes a window, or it closes the
breaker. -/
def resets (cb : CircuitBreaker) (o : Int × BreakerCall) : Bool :=
  match cb.state with
  | .closed => isOutcome o.2 && cb.cfg.windowSize ≤ cb.total + 1
  | .open => false
  | .halfOpen => o.2 = .recordSuccess && cb.cfg.halfOpenMax ≤ cb.halfOpenOK + 1

def window (cfg : BreakerConfig) (calls : List (Int × BreakerCall)) : List BreakerCall :=
  ((History.since (fun pre o => (after cfg pre).resets o) calls).map Prod.snd).filter isOutcome

def sinceHalfOpen (cfg : BreakerConfig) (calls : List (Int × BreakerCall)) : List BreakerCall :=
  (History.since (fun pre o =>
    (after cfg pre).state = .open && ((after cfg pre).call o).state = .halfOpen) calls).map Prod.snd

variable {cb : CircuitBreaker} {cfg : BreakerConfig} {o : Int × BreakerCall}

theorem windowSize_pos (cfg : BreakerConfig) : 0 < cfg.withDefaults.windowSize := by
  simp only [BreakerConfig.withDefaults]
  split <;> omega

theorem halfOpenMax_pos (cfg : BreakerConfig) : 0 < cfg.withDefaults.halfOpenMax := by
  simp only [BreakerConfig.withDefaults]
  split <;> omega

theorem window_snoc (cfg : BreakerConfig) (calls : List (Int × BreakerCall))
    (o : Int × BreakerCall) :
    window cfg (calls ++ [o]) =
      if (after cfg calls).resets o then []
      else window cfg calls ++ if isOutcome o.2 then [o.2] else [] := by
  unfold window
  rw [History.since_snoc]
  split
  · rfl
  · rw [List.map_append, List.filter_append]
    cases h : isOutcome o.2 <;> simp [h]

theorem sinceHalfOpen_snoc (cfg : BreakerConfig) (calls : List (Int × BreakerCall))
    (o : Int × BreakerCall) :
    sinceHalfOpen cfg (calls ++ [o]) =
      if (after cfg calls).state = .open ∧ ((after cfg calls).call o).state = .halfOpen then []
      else sinceHalfOpen cfg calls ++ [o.2] := by
  unfold sinceHalfOpen
  rw [History.since_snoc]
  simp only [Bool.and_eq_true, decide_eq_true_eq]
  split <;> simp

def counted (cb : CircuitBreaker) (o : BreakerCall) : CircuitBreaker :=
  { cb with
    successes := cb.successes + if o = .recordSuccess then 1 else 0
    failures := cb.failures + if o = .recordFailure then 1 else 0
    total := cb.total + 1 }

theorem call_outcome (hs : cb.state = .closed) (ho : isOutcome o.2) :
    cb.call o = evaluateWindow o.1 (cb.counted o.2) := by
  obtain ⟨now, o⟩ := o
  cases o with
  | recordSuccess => simp [call, recordSuccess, hs, counted]
  | recordFailure => simp [call, recordFailure, hs, counted]
  | allow => cases ho
  | state => cases ho

theorem call_other (hs : cb.state = .closed ∨ cb.state = .halfOpen) (ho : isOutcome o.2 = false) :
    cb.call o = cb := by
  obtain ⟨now, o⟩ := o
  cases o with
  | allow => rcases hs with hs | hs <;> simp [call, allow, hs]
  | state => rcases hs with hs | hs <;> simp [call, readState, hs]
  | recordSuccess => cases ho
  | recordFailure => cases ho

theorem call_open (hs : cb.state = .open) :
    cb.call o = cb ∨ cb.call o = cb.halfOpened := by
  obtain ⟨now, o⟩ := o
  cases o with
  | allow =>
    simp only [call, allow, hs]
    split
    · exact .inr rfl
    · exact .inl rfl
  | state =>
    simp only [call, readState, hs]
    split
    · exact .inr rfl
    · exact .inl rfl
  | recordSuccess => simp [call, recordSuccess, hs]
  | recordFailure => simp [call, recordFailure, hs]

structure Counts (cb : CircuitBreaker) (window : List BreakerCall) : Prop where
  successes : cb.successes = window.count .recordSuccess
  failures : cb.failures = window.count .recordFailure
  total : cb.total = window.length
  bounded : (cb.total : Int) < cb.cfg.windowSize

structure Testing (cb : CircuitBreaker) (calls : List BreakerCall) : Prop where
  halfOpenOK : cb.halfOpenOK = calls.count .recordSuccess
  noFailure : .recordFailure ∉ calls
  bounded : (cb.halfOpenOK : Int) < cb.cfg.halfOpenMax

structure Tracks (cfg : BreakerConfig) (calls : List (Int × BreakerCall)) (cb : CircuitBreaker) :
    Prop where
  config : cb.cfg = cfg.withDefaults
  closed : cb.state = .closed → cb.Counts (window cfg calls)
  halfOpen : cb.state = .halfOpen → cb.Testing (sinceHalfOpen cfg calls)

theorem Tracks.of_closed (hc : cb.cfg = cfg.withDefaults) (hs : cb.state = .closed)
    (h : cb.Counts (window cfg calls)) : Tracks cfg calls cb where
  config := hc
  closed := fun _ => h
  halfOpen := fun hh => by cases hs.symm.trans hh

theorem Tracks.of_open (hc : cb.cfg = cfg.withDefaults) (hs : cb.state = .open) :
    Tracks cfg calls cb where
  config := hc
  closed := fun hh => by cases hs.symm.trans hh
  halfOpen := fun hh => by cases hs.symm.trans hh

theorem Tracks.of_halfOpen (hc : cb.cfg = cfg.withDefaults) (hs : cb.state = .halfOpen)
    (h : cb.Testing (sinceHalfOpen cfg calls)) : Tracks cfg calls cb where
  config := hc
  closed := fun hh => by cases hs.symm.trans hh
  halfOpen := fun _ => h

theorem counts_resetCounters (hc : cb.cfg = cfg.withDefaults) : cb.resetCounters.Counts [] where
  successes := rfl
  failures := rfl
  total := rfl
  bounded := by
    show 0 < cb.cfg.windowSize
    rw [hc]
    exact windowSize_pos cfg

theorem Counts.counted {o : BreakerCall} (h : cb.Counts w)
    (hl : (cb.total : Int) + 1 < cb.cfg.windowSize) :
    (cb.counted o).Counts (w ++ [o]) where
  successes := by
    rw [List.count_append, ← h.successes, List.count_singleton]
    simp [CircuitBreaker.counted]
  failures := by
    rw [List.count_append, ← h.failures, List.count_singleton]
    simp [CircuitBreaker.counted]
  total := by
    rw [List.length_append, ← h.total]
    rfl
  bounded := by
    simp only [CircuitBreaker.counted]
    omega

theorem Tracks.closed_call (h : Tracks cfg calls (after cfg calls))
    (hs : (after cfg calls).state = .closed) :
    Tracks cfg (calls ++ [o]) ((after cfg calls).call o) := by
  have hw := window_snoc cfg calls o
  have hk := h.closed hs
  cases ho : isOutcome o.2 with
  | false =>
    have hr : (after cfg calls).resets o = false := by simp [resets, hs, ho]
    rw [hr, ho, if_neg Bool.false_ne_true, if_neg Bool.false_ne_true, List.append_nil] at hw
    rw [call_other (.inl hs) ho]
    exact .of_closed h.config hs (hw ▸ hk)
  | true =>
    have hr : (after cfg calls).resets o =
        decide ((after cfg calls).cfg.windowSize ≤ (after cfg calls).total + 1) := by
      simp [resets, hs, ho]
    rw [call_outcome hs ho, evaluateWindow]
    by_cases hl : ((after cfg calls).total : Int) + 1 < (after cfg calls).cfg.windowSize
    · rw [hr, decide_eq_false (by omega), if_neg Bool.false_ne_true, if_pos ho] at hw
      rw [if_pos (by exact_mod_cast hl)]
      exact .of_closed h.config hs (hw ▸ hk.counted hl)
    · rw [hr, decide_eq_true (by omega), if_pos rfl] at hw
      rw [if_neg (by exact_mod_cast hl)]
      dsimp only
      split
      · exact .of_open h.config rfl
      · exact .of_closed h.config hs (hw ▸ counts_resetCounters h.config)

theorem Tracks.open_call (h : Tracks cfg calls (after cfg calls))
    (hs : (after cfg calls).state = .open) :
    Tracks cfg (calls ++ [o]) ((after cfg calls).call o) := by
  have hsince := sinceHalfOpen_snoc cfg calls o
  rcases call_open (o := o) hs with hc | hc
  · rw [hc]
    exact .of_open h.config hs
  · rw [hc] at hsince ⊢
    rw [if_pos ⟨hs, rfl⟩] at hsince
    have ht : (after cfg calls).halfOpened.Testing [] := by
      refine ⟨rfl, List.not_mem_nil, ?_⟩
      show 0 < (after cfg calls).cfg.halfOpenMax
      rw [h.config]
      exact halfOpenMax_pos cfg
    rw [← hsince] at ht
    exact ⟨h.config, fun hh => (by cases hh), fun _ => ht⟩

theorem Tracks.halfOpen_call (h : Tracks cfg calls (after cfg calls))
    (hs : (after cfg calls).state = .halfOpen) :
    Tracks cfg (calls ++ [o]) ((after cfg calls).call o) := by
  have hsince := sinceHalfOpen_snoc cfg calls o
  rw [if_neg (by simp [hs])] at hsince
  have hw := window_snoc cfg calls o
  have ht := h.halfOpen hs
  have hother (ho : isOutcome o.2 = false) :
      Tracks cfg (calls ++ [o]) ((after cfg calls).call o) := by
    rw [call_other (.inr hs) ho]
    apply Tracks.of_halfOpen h.config hs
    rw [hsince]
    refine ⟨?_, ?_, ht.bounded⟩
    · rw [List.count_append, ← ht.halfOpenOK, List.count_singleton]
      cases hc : o.2 <;> simp [hc, isOutcome] at ho ⊢
    · rw [List.mem_append, not_or, List.mem_singleton]
      refine ⟨ht.noFailure, ?_⟩
      intro hf
      rw [← hf] at ho
      cases ho
  obtain ⟨now, o⟩ := o
  cases o with
  | allow => exact hother rfl
  | state => exact hother rfl
  | recordFailure =>
    simp only [CircuitBreaker.call, recordFailure, hs]
    exact .of_open h.config rfl
  | recordSuccess =>
    simp only [CircuitBreaker.call, recordSuccess, hs]
    split
    · rename_i hm
      have hr : (after cfg calls).resets (now, .recordSuccess) := by
        simp only [resets, hs]
        exact_mod_cast (by simpa using hm)
      rw [hr, if_pos rfl] at hw
      exact .of_closed h.config rfl (hw ▸ counts_resetCounters h.config)
    · rename_i hm
      refine ⟨h.config, fun hh => (by cases hh), fun _ => ?_⟩
      rw [hsince]
      refine ⟨?_, ?_, ?_⟩
      · rw [List.count_append, ← ht.halfOpenOK]
        rfl
      · rw [List.mem_append, not_or]
        exact ⟨ht.noFailure, by simp⟩
      · exact not_le.mp hm

theorem tracks_after (cfg : BreakerConfig) (calls : List (Int × BreakerCall)) :
    Tracks cfg calls (after cfg calls) := by
  induction calls using List.reverseRecOn with
  | nil => exact .of_closed rfl rfl ⟨rfl, rfl, rfl, windowSize_pos cfg⟩
  | append_singleton calls o ih =>
    rw [after_snoc]
    cases hs : (after cfg calls).state with
    | closed => exact ih.closed_call hs
    | «open» => exact ih.open_call hs
    | halfOpen => exact ih.halfOpen_call hs

theorem closed_opens (h : cb.Counts w) (hs : cb.state = .closed) :
    (cb.call o).state = .open ↔ isOutcome o.2 ∧ (w.length : Int) + 1 = cb.cfg.windowSize ∧
      cb.cfg.errorThreshold ≤ ((w ++ [o.2]).count .recordFailure : Rat) / cb.cfg.windowSize := by
  have hb := h.bounded
  have ht := h.total
  cases ho : isOutcome o.2 with
  | false => simp [call_other (.inl hs) ho, hs]
  | true =>
    rw [call_outcome hs ho, evaluateWindow]
    by_cases hl : ((cb.counted o.2).total : Int) < (cb.counted o.2).cfg.windowSize
    · rw [if_pos hl]
      simp only [counted] at hl ⊢
      rw [hs]
      constructor
      · intro hc
        cases hc
      · rintro ⟨-, hc, -⟩
        omega
    · rw [if_neg hl]
      have hlen : (w.length : Int) + 1 = cb.cfg.windowSize := by
        simp only [counted] at hl
        omega
      have hrate : ((cb.counted o.2).failures / (cb.counted o.2).total : Rat) =
          ((w ++ [o.2]).count .recordFailure : Rat) / cb.cfg.windowSize := by
        have hf : (cb.counted o.2).failures = (w ++ [o.2]).count .recordFailure := by
          rw [List.count_append, ← h.failures, List.count_singleton]
          simp [counted]
        have htot : ((cb.counted o.2).total : Int) = cb.cfg.windowSize := by
          simp only [counted]
          omega
        rw [hf, ← htot]
        rfl
      rw [hrate]
      have hcfg : (cb.counted o.2).cfg = cb.cfg := rfl
      dsimp only
      rw [hcfg]
      split
      · rename_i hr
        exact ⟨fun _ => ⟨rfl, hlen, hr⟩, fun _ => rfl⟩
      · rename_i hr
        constructor
        · intro hc
          cases hs.symm.trans hc
        · rintro ⟨-, -, hc⟩
          exact (hr hc).elim

theorem closed_not_halfOpen (hs : cb.state = .closed) : (cb.call o).state ≠ .halfOpen := by
  cases ho : isOutcome o.2 with
  | false => simp [call_other (.inl hs) ho, hs]
  | true =>
    rw [call_outcome hs ho, evaluateWindow]
    split
    · simp [counted, hs]
    · dsimp only
      split <;> simp [resetCounters, counted, hs]

theorem halfOpen_closes (h : cb.Testing l) (hs : cb.state = .halfOpen) :
    (cb.call o).state = .closed ↔ o.2 = .recordSuccess ∧
      (l.count .recordSuccess : Int) + 1 = cb.cfg.halfOpenMax ∧ .recordFailure ∉ l := by
  have hb := h.bounded
  have hok := h.halfOpenOK
  obtain ⟨now, o⟩ := o
  cases o with
  | allow => simp [call_other (o := (now, .allow)) (.inr hs) rfl, hs]
  | state => simp [call_other (o := (now, .state)) (.inr hs) rfl, hs]
  | recordFailure => simp [call, recordFailure, hs]
  | recordSuccess =>
    simp only [call, recordSuccess, hs]
    split
    · rename_i hm
      refine ⟨fun _ => ⟨trivial, ?_, h.noFailure⟩, fun _ => rfl⟩
      push_cast at hm
      omega
    · rename_i hm
      constructor
      · intro hc
        cases hc
      · rintro ⟨-, hc, -⟩
        push_cast at hm
        omega

theorem halfOpen_opens (hs : cb.state = .halfOpen) :
    (cb.call o).state = .open ↔ o.2 = .recordFailure := by
  obtain ⟨now, o⟩ := o
  cases o with
  | allow => simp [call_other (o := (now, .allow)) (.inr hs) rfl, hs]
  | state => simp [call_other (o := (now, .state)) (.inr hs) rfl, hs]
  | recordFailure => simp [call, recordFailure, hs]
  | recordSuccess =>
    simp only [call, recordSuccess, hs]
    split <;> simp [resetCounters]

theorem open_refuses (hs : cb.state = .open) (hn : now < cb.openedAt + cb.cfg.openDuration) :
    cb.allow now = (false, cb) := by
  have hr : cb.rested now = false := decide_eq_false (by omega)
  simp [allow, hs, hr]

theorem length_outcomes {l : List BreakerCall} (h : ∀ o ∈ l, isOutcome o) :
    l.length = l.count .recordSuccess + l.count .recordFailure := by
  induction l with
  | nil => rfl
  | cons o l ih =>
    have hl := ih fun o' ho' => h o' (List.mem_cons_of_mem o ho')
    have ho := h o (.head _)
    rw [List.length_cons, List.count_cons, List.count_cons, hl]
    cases o with
    | recordSuccess =>
      simp
      omega
    | recordFailure =>
      simp
      omega
    | allow => cases ho
    | state => cases ho

/-- The state machine of the breaker, after any calls at any times. -/
theorem breaker_state_machine (cfg : BreakerConfig) (calls : List (Int × BreakerCall)) :
    let cb := after cfg calls
    (cb.state = .closed →
      cb.total = cb.successes + cb.failures ∧ (cb.total : Int) < cfg.withDefaults.windowSize ∧
      ∀ o, (cb.call o).state ≠ .halfOpen ∧
        ((cb.call o).state = .open ↔ isOutcome o.2 = true ∧
          ((window cfg calls).length : Int) + 1 = cfg.withDefaults.windowSize ∧
          cfg.withDefaults.errorThreshold ≤
            ((window cfg calls ++ [o.2]).count .recordFailure : Rat) /
              cfg.withDefaults.windowSize)) ∧
    (cb.state = .open →
      (∀ now, now < cb.openedAt + cfg.withDefaults.openDuration → cb.allow now = (false, cb)) ∧
      ∀ now, cb.recordSuccess now = cb ∧ cb.recordFailure now = cb) ∧
    (cb.state = .halfOpen → ∀ o,
      ((cb.call o).state = .closed ↔ o.2 = .recordSuccess ∧
        ((sinceHalfOpen cfg calls).count .recordSuccess : Int) + 1 =
          cfg.withDefaults.halfOpenMax ∧
        .recordFailure ∉ sinceHalfOpen cfg calls) ∧
      ((cb.call o).state = .open ↔ o.2 = .recordFailure)) := by
  have h := tracks_after cfg calls
  rw [← h.config]
  refine ⟨?_, ?_, ?_⟩
  · intro hs
    have hk := h.closed hs
    refine ⟨?_, hk.bounded, fun o => ⟨closed_not_halfOpen hs, closed_opens hk hs⟩⟩
    rw [hk.total, hk.successes, hk.failures]
    exact length_outcomes fun o ho => (List.mem_filter.mp ho).2
  · intro hs
    refine ⟨fun now hn => open_refuses hs hn, fun now => ?_⟩
    simp [recordSuccess, recordFailure, hs]
  · intro hs o
    exact ⟨halfOpen_closes (h.halfOpen hs) hs, halfOpen_opens hs⟩

/-- Two failures open a breaker with a window of two. -/
theorem breaker_state_machine_trips :
    (after ⟨1 / 2, 10, 1, 2⟩ [(0, .recordFailure)]).state = .closed ∧
      ((after ⟨1 / 2, 10, 1, 2⟩ [(0, .recordFailure)]).call (1, .recordFailure)).state = .open := by
  have hs : (after ⟨1 / 2, 10, 1, 2⟩ [(0, .recordFailure)]).state = .closed := by decide +kernel
  refine ⟨hs, ?_⟩
  apply (((breaker_state_machine ⟨1 / 2, 10, 1, 2⟩ [(0, .recordFailure)]).1 hs).2.2
    (1, .recordFailure)).2.mpr
  decide +kernel

end CircuitBreaker

end Pgmux
