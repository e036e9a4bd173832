import Pgmux.PoolAccounting

namespace Pgmux

open Interleaving

@[simp] def Thread.waits : Thread → Nat
  | .selecting => 1
  | .waiting => 1
  | _ => 0

@[simp] def Thread.wakes : Thread → Nat
  | .acquire => 1
  | .signalling => 1
  | _ => 0

def Pool.available (cfg : PoolConfig) (p : Pool) : Int :=
  p.idle.length + (cfg.maxConnections - p.numOpen)

/-- A section after which capacity is there and no token is sent. -/
def Thread.Silent : Thread → Prop
  | .failed _ => True
  | .dialed (.warm _) _ => True
  | .dialed .check _ => True
  | _ => False

/-- Silent sections are done only when no `Acquire` waits. -/
def Unwaited (s : PoolState) (t : Thread) : Prop :=
  t.Silent → ∀ u ∈ s.threads, u ≠ .selecting ∧ u ≠ .waiting

theorem unwaited (h : ¬ t.Silent) : Unwaited s t := fun ht => absurd ht h

/-- While `Acquire`s wait in an open pool, a token or a thread is on its way for all that is
available. -/
def Awake (cfg : PoolConfig) (p : Pool) (a b : Nat) : Prop :=
  p.closed = false → 0 < a → p.available cfg ≤ p.waitCh + b

theorem Trimmed.available (h : Trimmed p q) : q.available cfg = p.available cfg := by
  have hn := h.numOpen
  unfold Pool.available
  omega

theorem available_le (h : Accounts cfg p a b) : p.available cfg ≤ cfg.maxConnections := by
  have hc := h.count
  unfold Pool.available
  omega

theorem Awake.signal (h : Awake cfg p a (b + 1)) (hle : p.available cfg ≤ cfg.maxConnections) :
    Awake cfg (p.signal cfg) a b := by
  unfold Pool.signal
  split
  · intro hp ha
    have h := h hp ha
    simp only [Pool.available] at h ⊢
    push_cast at h ⊢
    omega
  · intro hp ha
    omega

theorem Awake.acquire (h : Awake cfg p a (1 + b)) :
    Awake cfg (p.acquire cfg now).1 ((p.acquire cfg now).2.elim 0 Thread.waits + a)
      ((p.acquire cfg now).2.elim 0 Thread.wakes + b) := by
  cases hp : p.closed with
  | true => simp [acquire_closed p hp, Awake, hp]
  | false =>
    have ha := acquires cfg now p hp
    generalize p.acquire cfg now = r at ha ⊢
    cases ha with
    | take hid ht =>
      intro hq hw
      have hav : _ = p.available cfg := ht.available
      have h := h hp (by simpa using hw)
      have hch := ht.waitCh
      simp only [Pool.available, List.length_cons] at hav h hch ⊢
      simp only [Option.elim_some, Thread.wakes]
      omega
    | reserve ht hn =>
      intro hq hw
      have hav : _ = p.available cfg := ht.available
      have h := h hp (by simpa using hw)
      have hch := ht.waitCh
      simp only [Pool.available] at hav h ⊢
      simp only [Option.elim_some, Thread.wakes]
      omega
    | block ht hi hn =>
      intro hq hw
      simp only [Pool.available, hi, List.length_nil, Option.elim_some, Thread.wakes]
      omega

theorem Awake.of_closed {p : Pool} (hp : p.closed) : Awake cfg p a b := by
  intro hq
  rw [hp] at hq
  cases hq

theorem Awake.of_none (ha : a = 0) : Awake cfg p a b := by
  intro _ hw
  omega

theorem Awake.trim {p q : Pool} (h : Awake cfg p a b) (ht : Trimmed p q) : Awake cfg q a b := by
  intro hq ha
  rw [ht.available, ht.waitCh]
  exact h (ht.closed ▸ hq) ha

theorem Awake.reserve (h : Awake cfg p a b) :
    Awake cfg { p with numOpen := p.numOpen + 1 } a b := by
  intro hp ha
  have h := h hp ha
  simp only [Pool.available] at h ⊢
  omega

theorem Awake.forget (h : Awake cfg p a b) : Awake cfg p.forget a (1 + b) := by
  intro hp ha
  rw [forget_closed] at hp
  have h := h hp ha
  unfold Pool.forget
  split
  all_goals
    simp only [Pool.available] at h ⊢
    omega

theorem Awake.leave (h : Awake cfg p (1 + a) b) : Awake cfg p a b :=
  fun hp _ => h hp (by omega)

theorem Awake.token (h : Awake cfg p (1 + a) b) (hk : p.waitCh = k + 1) :
    Awake cfg { p with waitCh := k } a (1 + b) := by
  intro hp ha
  have h := h hp (by omega)
  simp only [Pool.available] at h ⊢
  omega

theorem Awake.release (h : Awake cfg p a b) (hacc : Accounts cfg p (1 + k) l) :
    Awake cfg (p.release cfg now c) a b := by
  cases hp : p.closed with
  | true =>
    rw [release_closed p hp]
    exact .of_closed ((forget_closed p).trans hp)
  | false =>
    simp only [Pool.release, hp, Bool.false_eq_true, if_false]
    apply Awake.signal
    · intro _ ha
      have h := h hp ha
      simp only [Pool.available, List.length_cons] at h ⊢
      omega
    · have hput := available_le (hacc.put (c := { c with lastUsedAt := now }) hp)
      rw [hp] at hput
      exact hput

theorem Awake.replenish (h : Awake cfg p a b) :
    Awake cfg (p.replenish cfg).1 ((p.replenish cfg).2.elim 0 Thread.waits + a)
      ((p.replenish cfg).2.elim 0 Thread.wakes + b) := by
  unfold Pool.replenish
  split
  · simpa using h.reserve
  · simpa using h

/-- One section leaves enough on the way, unless it is silent and threads wait. -/
theorem Awake.act (h : Awake cfg x.pool (t.waits + a) (t.wakes + b))
    (hacc : Accounts cfg x.pool (t.slots + k) l) (hok : t.Silent → a = 0)
    (hact : PoolAct cfg x t x' r) :
    Awake cfg x'.pool (r.elim 0 Thread.waits + a) (r.elim 0 Thread.wakes + b) := by
  cases hact with
  | acquire now => exact Awake.acquire (by simpa using h)
  | dialOk now => simpa using h
  | dialError => simpa using h
  | dialed =>
    rename_i p n d c
    cases hp : p.closed with
    | true =>
      rw [dialed_closed p hp]
      exact .of_closed hp
    | false =>
      cases d with
      | acquire => simpa [Pool.dialed, hp] using h
      | warm i =>
        apply Awake.of_none
        simpa [Pool.dialed, hp] using hok trivial
      | check =>
        have hz : a = 0 := hok trivial
        simp only [Pool.dialed, hp, Bool.false_eq_true, if_false]
        exact Awake.replenish (.of_none hz)
  | dialFailed =>
    rename_i p n d
    apply Awake.of_none
    rw [hok trivial]
    cases d with
    | acquire => rfl
    | warm i => rfl
    | check => rfl
  | selectToken hk => simpa using Awake.token (by simpa using h) hk
  | selectDone => simpa using Awake.leave (by simpa using h)
  | selectDefault _ => simpa using h
  | waitToken hk => simpa using Awake.token (by simpa using h) hk
  | waitEnd => simpa using Awake.leave (by simpa using h)
  | release now => simpa using Awake.release (by simpa using h) (by simpa using hacc)
  | discard => simpa using h
  | forget => simpa using Awake.forget (by simpa using h)
  | signal =>
    simp only [Thread.wakes, Nat.add_comm 1 b] at h
    simpa using Awake.signal (by simpa using h) (available_le hacc)
  | closeConn => simpa using h
  | warmStop => simpa using h
  | warmGo => simpa using h
  | warm =>
    simp only [Pool.warm]
    split
    · simpa using h
    · simpa using Awake.reserve (by simpa using h)
  | healthCheck now =>
    rename_i p n
    cases hp : p.closed with
    | true => simpa [healthCheck_closed p hp] using h
    | false =>
      obtain ⟨q, ht, he⟩ := healthCheck_open cfg now p hp
      rw [he]
      exact Awake.replenish (.trim (by simpa using h) ht)
  | close =>
    apply Awake.of_closed
    simp only [Pool.close]
    split
    · assumption
    · rfl

/-- No operation is in progress other than `Acquire` calls that are blocked; connections may be
lent. -/
def Quiescent (s : PoolState) : Prop :=
  ∀ t ∈ s.threads, t = .waiting ∨ ∃ c, t = .holding c

theorem unwaited_total (h : Unwaited ⟨x, t ::ₘ ts⟩ t) (ht : t.Silent) :
    total Thread.waits ts = 0 := by
  apply total_eq_zero
  intro u hu
  obtain ⟨h₁, h₂⟩ := h ht u (Multiset.mem_cons_of_mem hu)
  cases u with
  | selecting => exact absurd rfl h₁
  | waiting => exact absurd rfl h₂
  | _ => rfl

theorem awake_of_reach (hcfg : cfg.minConnections ≤ cfg.maxConnections)
    (h : Reach (poolSystem cfg) Unwaited newPool s) :
    Awake cfg s.shared.pool (total Thread.waits s.threads) (total Thread.wakes s.threads) := by
  induction h with
  | refl => exact .of_none rfl
  | tail hr hs ih =>
    have hb := balanced_of_reach hcfg hr
    cases hs with
    | call hc =>
      cases hc with
      | acquire =>
        intro hp ha
        have ih := ih hp (by simpa using ha)
        simp only [total_cons, Thread.wakes] at ih ⊢
        omega
      | warm => simpa using ih
      | healthCheck => simpa using ih
      | close => simpa using ih
    | act hact hok =>
      simp only [Balanced, total_cons] at hb
      simp only [total_cons, total_next] at ih ⊢
      exact ih.act hb (unwaited_total hok) hact

/-- When nothing else is in progress, an `Acquire` waits only if there is nothing to have or a token
is there, as long as silent sections are done only when nobody waits. -/
theorem no_lost_wakeup (hcfg : cfg.minConnections ≤ cfg.maxConnections)
    (h : Reach (poolSystem cfg) Unwaited newPool s) (hq : Quiescent s)
    (hw : Thread.waiting ∈ s.threads) (ho : s.shared.pool.closed = false) :
    (s.shared.pool.idle = [] ∧ s.shared.pool.numOpen = cfg.maxConnections) ∨
      0 < s.shared.pool.waitCh := by
  have hb := (balanced_of_reach hcfg h).bound
  have hc := (balanced_of_reach hcfg h).count
  have hwaits : 0 < total Thread.waits s.threads := by
    obtain ⟨ts, hts⟩ := Multiset.exists_cons_of_mem hw
    rw [hts, total_cons, Thread.waits]
    omega
  have hwakes : total Thread.wakes s.threads = 0 := by
    apply total_eq_zero
    intro t ht
    rcases hq t ht with rfl | ⟨c, rfl⟩
    · rfl
    · rfl
  have ha := awake_of_reach hcfg h ho hwaits
  rw [hwakes, Pool.available] at ha
  by_cases hch : 0 < s.shared.pool.waitCh
  · exact .inr hch
  · refine .inl ⟨List.eq_nil_of_length_eq_zero ?_, ?_⟩
    · omega
    · omega

/-- The first caller has the connection, the second waits, and the first one releases. -/
theorem no_lost_wakeup_released :
    Reach (poolSystem singlePool) Unwaited newPool ⟨⟨⟨[⟨0, 0, 0⟩], 1, 1, false⟩, 1⟩, {.waiting}⟩ ∧
      0 < (⟨[⟨0, 0, 0⟩], 1, 1, false⟩ : Pool).waitCh := by
  have h : Reach (poolSystem singlePool) Unwaited newPool
      ⟨⟨⟨[⟨0, 0, 0⟩], 1, 1, false⟩, 1⟩, {.waiting}⟩ := by
    refine Reach.call Thread.acquire PoolCall.acquire ?_
    refine Reach.act Thread.acquire 0 (PoolAct.acquire 0) (unwaited id) ?_
    refine Reach.act (Thread.dialing .acquire) 0 (PoolAct.dialOk 0) (unwaited id) ?_
    refine Reach.act (Thread.dialed .acquire _) 0 PoolAct.dialed (unwaited id) ?_
    refine Reach.call Thread.acquire PoolCall.acquire ?_
    refine Reach.act Thread.acquire _ (PoolAct.acquire 0) (unwaited id) ?_
    change Reach (poolSystem singlePool) Unwaited
      ⟨⟨⟨[], 1, 0, false⟩, 1⟩, .selecting ::ₘ {.holding ⟨0, 0, 0⟩}⟩ _
    refine Reach.act Thread.selecting _ (PoolAct.selectDefault rfl) (unwaited id) ?_
    change Reach (poolSystem singlePool) Unwaited
      ⟨⟨⟨[], 1, 0, false⟩, 1⟩, {.waiting, .holding ⟨0, 0, 0⟩}⟩ _
    rw [Multiset.pair_comm]
    refine Reach.act (Thread.holding ⟨0, 0, 0⟩) _ (PoolAct.release 0) (unwaited id) ?_
    exact .refl
  refine ⟨h, (no_lost_wakeup (by decide) h ?_ ?_ rfl).resolve_left ?_⟩
  · intro t ht
    exact .inl (Multiset.mem_singleton.mp ht)
  · exact Multiset.mem_singleton_self _
  · exact fun he => by cases he.1

/-- A dial fails while another caller waits: the slot is free, and nobody wakes the caller up. -/
theorem failed_dial_unnoticed : ∃ s, PoolRun singlePool newPool s ∧ Quiescent s ∧
    Thread.waiting ∈ s.threads ∧ s.shared.pool.closed = false ∧
      s.shared.pool.numOpen = 0 ∧ s.shared.pool.waitCh = 0 := by
  refine ⟨⟨⟨.new, 0⟩, {.waiting}⟩, ?_, ?_, Multiset.mem_singleton_self _, rfl, rfl, rfl⟩
  · refine Reach.call Thread.acquire PoolCall.acquire ?_
    refine Reach.act Thread.acquire 0 (PoolAct.acquire 0) trivial ?_
    refine Reach.call Thread.acquire PoolCall.acquire ?_
    refine Reach.act Thread.acquire _ (PoolAct.acquire 0) trivial ?_
    change PoolRun singlePool ⟨⟨⟨[], 1, 0, false⟩, 0⟩, .selecting ::ₘ {.dialing .acquire}⟩ _
    refine Reach.act Thread.selecting _ (PoolAct.selectDefault rfl) trivial ?_
    change PoolRun singlePool ⟨⟨⟨[], 1, 0, false⟩, 0⟩, {.waiting, .dialing .acquire}⟩ _
    rw [Multiset.pair_comm]
    refine Reach.act (Thread.dialing .acquire) _ PoolAct.dialError trivial ?_
    change PoolRun singlePool ⟨⟨⟨[], 1, 0, false⟩, 0⟩, .failed .acquire ::ₘ {.waiting}⟩ _
    refine Reach.act (Thread.failed .acquire) _ PoolAct.dialFailed trivial ?_
    exact .refl
  · intro t ht
    exact .inl (Multiset.mem_singleton.mp ht)

end Pgmux
