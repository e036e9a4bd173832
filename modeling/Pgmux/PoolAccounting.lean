import Mathlib.Algebra.Order.Group.Nat
import Pgmux.PoolSteps

namespace Pgmux

open Interleaving

/-- A caller that has a connection, until `Discard` has taken it off the books. -/
@[simp] def Thread.borrowed : Thread → Nat
  | .holding _ => 1
  | .discarding _ => 1
  | _ => 0

/-- A dial in progress, until the section that ends it. -/
@[simp] def Thread.dials : Thread → Nat
  | .dialing _ => 1
  | .dialed _ _ => 1
  | .failed _ => 1
  | _ => 0

@[simp] def Thread.closes : Thread → Nat
  | .closing _ => 1
  | _ => 0

/-- A thread with a socket that may be open, one that is being dialed included. -/
@[simp] def Thread.sockets : Thread → Nat
  | .dialing _ => 1
  | .dialed _ _ => 1
  | .holding _ => 1
  | .closing _ => 1
  | _ => 0

@[simp] def Thread.conns : Thread → Multiset Nat
  | .dialed _ c => {c.id}
  | .holding c => {c.id}
  | .discarding c => {c.id}
  | .closing c => {c.id}
  | _ => 0

@[simp] def Thread.loan : Thread → Multiset Nat
  | .holding c => {c.id}
  | .discarding c => {c.id}
  | _ => 0

def Pool.idleIds (p : Pool) : Multiset Nat := p.idle.map PoolConn.id

@[simp] def Thread.slots (t : Thread) : Nat := t.borrowed + t.dials

/-- The accounts of a pool with `a` slots reserved for threads and `b` connections that are still to
be closed. -/
structure Accounts (cfg : PoolConfig) (p : Pool) (a b : Nat) : Prop where
  count : p.numOpen = p.idle.length + a
  bound : p.idle.length + a + b ≤ cfg.maxConnections
  unclosed : p.closed = false → b = 0
  empty : p.closed = true → p.idle = []

theorem Accounts.trim {p q : Pool} (h : Accounts cfg p a b) (ht : Trimmed p q) :
    Accounts cfg q a b := by
  have hn := ht.numOpen
  have hl := ht.idle.length_le
  have hc := h.count
  have hb := h.bound
  refine ⟨by omega, by omega, fun hq => h.unclosed (ht.closed ▸ hq), fun hq => ?_⟩
  have hp := h.empty (ht.closed ▸ hq)
  rw [hp] at hl
  exact List.eq_nil_of_length_eq_zero (Nat.le_zero.mp hl)

theorem Accounts.reserve (h : Accounts cfg p a b) (hp : p.closed = false)
    (hn : p.numOpen < cfg.maxConnections) :
    Accounts cfg { p with numOpen := p.numOpen + 1 } (1 + a) b := by
  have hc := h.count
  have hb := h.unclosed hp
  constructor
  · simp only
    omega
  · simp only
    omega
  · exact h.unclosed
  · exact h.empty

theorem Accounts.unreserve (h : Accounts cfg p (1 + a) b) (hk : k ≤ 1)
    (hp : p.closed = false → k = 0) :
    Accounts cfg { p with numOpen := p.numOpen - 1 } a (k + b) := by
  have hc := h.count
  have hb := h.bound
  constructor
  · simp only
    omega
  · simp only
    omega
  · intro hq
    rw [hp hq, h.unclosed hq]
  · exact h.empty

theorem Accounts.forget (h : Accounts cfg p (1 + a) b) : Accounts cfg p.forget a b := by
  have hc := h.count
  have hn : 0 < p.numOpen := by omega
  rw [Pool.forget, if_pos hn]
  simpa using h.unreserve (Nat.zero_le 1) (fun _ => rfl)

theorem Accounts.put (h : Accounts cfg p (1 + a) b) (hp : p.closed = false) :
    Accounts cfg { p with idle := c :: p.idle } a b := by
  have hc := h.count
  have hb := h.bound
  constructor
  · simp only [List.length_cons]
    omega
  · simp only [List.length_cons]
    omega
  · exact h.unclosed
  · simp [hp]

theorem Accounts.take (h : Accounts cfg { p with idle := c :: p.idle } a b) :
    Accounts cfg p (1 + a) b := by
  have hc := h.count
  have hb := h.bound
  simp only [List.length_cons] at hc hb
  refine ⟨by omega, by omega, h.unclosed, fun hp => ?_⟩
  cases h.empty hp

theorem Accounts.token (h : Accounts cfg p a b) : Accounts cfg { p with waitCh := k } a b :=
  ⟨h.count, h.bound, h.unclosed, h.empty⟩

theorem Accounts.signal (h : Accounts cfg p a b) : Accounts cfg (p.signal cfg) a b := by
  unfold Pool.signal
  split
  · exact h.token
  · exact h

theorem Accounts.replenish (h : Accounts cfg p a b) (hp : p.closed = false)
    (hcfg : cfg.minConnections ≤ cfg.maxConnections) :
    Accounts cfg (p.replenish cfg).1 ((p.replenish cfg).2.elim 0 Thread.slots + a)
      ((p.replenish cfg).2.elim 0 Thread.closes + b) := by
  unfold Pool.replenish
  split
  · simpa using h.reserve hp (by omega)
  · simpa using h

theorem Accounts.acquire (h : Accounts cfg p a b) :
    Accounts cfg (p.acquire cfg now).1 ((p.acquire cfg now).2.elim 0 Thread.slots + a)
      ((p.acquire cfg now).2.elim 0 Thread.closes + b) := by
  cases hp : p.closed with
  | true => simpa [acquire_closed p hp] using h
  | false =>
    have ha := acquires cfg now p hp
    generalize p.acquire cfg now = r at ha ⊢
    cases ha with
    | take hid ht => simpa using (h.trim ht).take
    | reserve ht hn => simpa using (h.trim ht).reserve (ht.closed.trans hp) hn
    | block ht hi hn => simpa using h.trim ht

theorem Accounts.dialed (h : Accounts cfg p (1 + a) b)
    (hcfg : cfg.minConnections ≤ cfg.maxConnections) :
    Accounts cfg (p.dialed cfg c d).1 ((p.dialed cfg c d).2.elim 0 Thread.slots + a)
      ((p.dialed cfg c d).2.elim 0 Thread.closes + b) := by
  unfold Pool.dialed
  split
  · rename_i hp
    simpa using h.unreserve (Nat.le_refl 1) (fun hq => by simp [hp] at hq)
  · rename_i hp
    have hp := Bool.eq_false_of_not_eq_true hp
    cases d with
    | acquire => simpa using h
    | warm i => simpa using h.put hp
    | check => exact (h.put hp).replenish hp hcfg

theorem Accounts.dialFailed (h : Accounts cfg p (1 + a) b) (d : Dialer) :
    Accounts cfg (p.dialFailed d).1 ((p.dialFailed d).2.elim 0 Thread.slots + a)
      ((p.dialFailed d).2.elim 0 Thread.closes + b) := by
  have h' := h.unreserve (Nat.zero_le 1) (fun _ => rfl)
  cases d with
  | acquire => simpa [Pool.dialFailed] using h'
  | warm i => simpa [Pool.dialFailed] using h'
  | check => simpa [Pool.dialFailed] using h'

theorem Accounts.release (h : Accounts cfg p (1 + a) b) :
    Accounts cfg (p.release cfg now c) a b := by
  unfold Pool.release
  split
  · exact h.forget
  · rename_i hp
    exact (h.put (Bool.eq_false_of_not_eq_true hp)).signal

theorem Accounts.warm (h : Accounts cfg p a b) (hcfg : cfg.minConnections ≤ cfg.maxConnections) :
    Accounts cfg (p.warm cfg i).1 ((p.warm cfg i).2.elim 0 Thread.slots + a)
      ((p.warm cfg i).2.elim 0 Thread.closes + b) := by
  unfold Pool.warm
  split
  · simpa using h
  · rename_i hp
    simp only [Bool.or_eq_true, decide_eq_true_eq, not_or] at hp
    simpa using h.reserve (Bool.eq_false_of_not_eq_true hp.1) (by omega)

theorem Accounts.healthCheck (h : Accounts cfg p a b)
    (hcfg : cfg.minConnections ≤ cfg.maxConnections) :
    Accounts cfg (p.healthCheck cfg now).1 ((p.healthCheck cfg now).2.elim 0 Thread.slots + a)
      ((p.healthCheck cfg now).2.elim 0 Thread.closes + b) := by
  cases hp : p.closed with
  | true => simpa [healthCheck_closed p hp] using h
  | false =>
    obtain ⟨q, ht, he⟩ := healthCheck_open cfg now p hp
    rw [he]
    exact (h.trim ht).replenish (ht.closed.trans hp) hcfg

theorem Accounts.close (h : Accounts cfg p a b) : Accounts cfg p.close a b := by
  unfold Pool.close
  split
  · exact h
  · have hc := h.count
    have hb := h.bound
    constructor
    · simp only [List.length_nil]
      omega
    · simp only [List.length_nil]
      omega
    · exact fun hq => by cases hq
    · exact fun _ => rfl

theorem Accounts.act (h : Accounts cfg x.pool (t.slots + a) (t.closes + b))
    (hcfg : cfg.minConnections ≤ cfg.maxConnections) (hact : PoolAct cfg x t x' r) :
    Accounts cfg x'.pool (r.elim 0 Thread.slots + a) (r.elim 0 Thread.closes + b) := by
  cases hact with
  | acquire now => exact Accounts.acquire (by simpa using h)
  | dialOk now => simpa using h
  | dialError => simpa using h
  | dialed => exact Accounts.dialed (by simpa using h) hcfg
  | dialFailed => exact Accounts.dialFailed (by simpa using h) _
  | selectToken _ => simpa using h.token
  | selectDone => simpa using h
  | selectDefault _ => simpa using h
  | waitToken _ => simpa using h.token
  | waitEnd => simpa using h
  | release now => simpa using Accounts.release (by simpa using h)
  | discard => simpa using h
  | forget => simpa using Accounts.forget (by simpa using h)
  | signal => simpa using h.signal
  | closeConn =>
    have hb := h.bound
    refine ⟨by simpa using h.count, ?_, fun hp => ?_, h.empty⟩
    · simp at hb ⊢
      omega
    · have hu := h.unclosed hp
      simp at hu
  | warmStop => simpa using h
  | warmGo => simpa using h
  | warm => exact Accounts.warm (by simpa using h) hcfg
  | healthCheck now => exact Accounts.healthCheck (by simpa using h) hcfg
  | close => simpa using Accounts.close (by simpa using h)

def Balanced (cfg : PoolConfig) (s : PoolState) : Prop :=
  Accounts cfg s.shared.pool (total Thread.slots s.threads) (total Thread.closes s.threads)

theorem Balanced.step (h : Balanced cfg s) (hcfg : cfg.minConnections ≤ cfg.maxConnections)
    (hs : Step (poolSystem cfg) ok s s') : Balanced cfg s' := by
  unfold Balanced at h ⊢
  cases hs with
  | call hc => cases hc <;> simpa using h
  | act hact _ =>
    simp only [total_cons, total_next] at h ⊢
    exact h.act hcfg hact

theorem balanced_of_reach (hcfg : cfg.minConnections ≤ cfg.maxConnections)
    (h : Reach (poolSystem cfg) ok newPool s) : Balanced cfg s := by
  apply h.invariant
  · exact ⟨rfl, Nat.zero_le _, fun _ => rfl, fun _ => rfl⟩
  · exact fun s s' hb hs => hb.step hcfg hs

theorem Trimmed.idleIds (h : Trimmed p q) : q.idleIds ≤ p.idleIds :=
  Multiset.coe_le.mpr (h.idle.map PoolConn.id).subperm

theorem idleIds_put (p : Pool) (c : PoolConn) :
    Pool.idleIds { p with idle := c :: p.idle } = p.idleIds + {c.id} := by
  rw [add_comm, Multiset.singleton_add]
  rfl

theorem idleIds_signal (p : Pool) : (p.signal cfg).idleIds = p.idleIds := by
  unfold Pool.signal
  split <;> rfl

theorem idleIds_forget (p : Pool) : p.forget.idleIds = p.idleIds := by
  unfold Pool.forget
  split <;> rfl

theorem replenish_conns (p : Pool) :
    (p.replenish cfg).1.idleIds + (p.replenish cfg).2.elim 0 Thread.conns = p.idleIds := by
  unfold Pool.replenish
  split
  · exact add_zero p.idleIds
  · exact add_zero p.idleIds

theorem acquire_conns (p : Pool) :
    (p.acquire cfg now).1.idleIds + (p.acquire cfg now).2.elim 0 Thread.conns ≤ p.idleIds := by
  cases hp : p.closed with
  | true => simp [acquire_closed p hp]
  | false =>
    have ha := acquires cfg now p hp
    generalize p.acquire cfg now = r at ha ⊢
    cases ha with
    | take hid ht =>
      have hle := ht.idleIds
      rw [idleIds_put, hid] at hle
      exact hle
    | reserve ht hn => exact (add_zero (Pool.idleIds _)).trans_le ht.idleIds
    | block ht hi hn => exact (add_zero (Pool.idleIds _)).trans_le ht.idleIds

theorem healthCheck_conns (p : Pool) :
    (p.healthCheck cfg now).1.idleIds + (p.healthCheck cfg now).2.elim 0 Thread.conns ≤
      p.idleIds := by
  cases hp : p.closed with
  | true => simp [healthCheck_closed p hp]
  | false =>
    obtain ⟨q, ht, he⟩ := healthCheck_open cfg now p hp
    rw [he, replenish_conns]
    exact ht.idleIds

theorem dialed_conns (p : Pool) :
    (p.dialed cfg c d).1.idleIds + (p.dialed cfg c d).2.elim 0 Thread.conns =
      p.idleIds + {c.id} := by
  unfold Pool.dialed
  split
  · rfl
  · cases d with
    | acquire => rfl
    | warm i => exact (add_zero _).trans (idleIds_put p c)
    | check => exact (replenish_conns _).trans (idleIds_put p c)

theorem release_conns (p : Pool) : (p.release cfg now c).idleIds ≤ p.idleIds + {c.id} := by
  unfold Pool.release
  split
  · rw [idleIds_forget]
    exact Multiset.le_add_right _ _
  · rw [idleIds_signal]
    exact (idleIds_put p { c with lastUsedAt := now }).le

/-- A section moves connections between the stack and its thread, or closes them; only a dial makes
a new one. -/
theorem PoolAct.conns (h : PoolAct cfg x t x' r) :
    x'.pool.idleIds + r.elim 0 Thread.conns ≤ x.pool.idleIds + t.conns ∧ x'.made = x.made ∨
      x'.pool.idleIds + r.elim 0 Thread.conns = x.made ::ₘ (x.pool.idleIds + t.conns) ∧
        x'.made = x.made + 1 := by
  cases h with
  | acquire now => exact .inl ⟨(acquire_conns _).trans_eq (add_zero _).symm, rfl⟩
  | dialOk now => exact .inr ⟨by simp [← Multiset.singleton_add, add_comm], rfl⟩
  | dialError => exact .inl ⟨le_rfl, rfl⟩
  | dialed => exact .inl ⟨(dialed_conns _).le, rfl⟩
  | dialFailed =>
    rename_i p n d
    cases d with
    | acquire => exact .inl ⟨le_rfl, rfl⟩
    | warm i => exact .inl ⟨le_rfl, rfl⟩
    | check => exact .inl ⟨le_rfl, rfl⟩
  | selectToken _ => exact .inl ⟨le_rfl, rfl⟩
  | selectDone => exact .inl ⟨le_rfl, rfl⟩
  | selectDefault _ => exact .inl ⟨le_rfl, rfl⟩
  | waitToken _ => exact .inl ⟨le_rfl, rfl⟩
  | waitEnd => exact .inl ⟨le_rfl, rfl⟩
  | release now => exact .inl ⟨(add_zero _).trans_le (release_conns _), rfl⟩
  | discard => exact .inl ⟨le_rfl, rfl⟩
  | forget => exact .inl ⟨by simp [idleIds_forget], rfl⟩
  | signal => exact .inl ⟨by simp [idleIds_signal], rfl⟩
  | closeConn => exact .inl ⟨by simp, rfl⟩
  | warmStop => exact .inl ⟨le_rfl, rfl⟩
  | warmGo => exact .inl ⟨le_rfl, rfl⟩
  | warm =>
    rename_i p n i
    refine .inl ⟨?_, rfl⟩
    unfold Pool.warm
    split <;> exact le_rfl
  | healthCheck now => exact .inl ⟨(healthCheck_conns _).trans_eq (add_zero _).symm, rfl⟩
  | close =>
    rename_i p n
    refine .inl ⟨?_, rfl⟩
    unfold Pool.close
    split
    · exact le_rfl
    · exact Multiset.zero_le _

structure Distinct (s : PoolState) : Prop where
  nodup : (s.shared.pool.idleIds + total Thread.conns s.threads).Nodup
  made : ∀ i ∈ s.shared.pool.idleIds + total Thread.conns s.threads, i < s.shared.made

theorem Distinct.step (h : Distinct s) (hs : Step (poolSystem cfg) ok s s') : Distinct s' := by
  obtain ⟨hn, hm⟩ := h
  cases hs with
  | call hc => cases hc <;> exact ⟨by simpa using hn, by simpa using hm⟩
  | act hact _ =>
    simp only [total_cons] at hn hm
    rw [← add_assoc] at hn hm
    constructor
    all_goals
      simp only [total_next]
      rw [← add_assoc]
    · rcases PoolAct.conns hact with ⟨hle, he⟩ | ⟨heq, he⟩
      · exact Multiset.nodup_of_le (add_le_add_left hle _) hn
      · rw [heq, Multiset.cons_add, Multiset.nodup_cons]
        exact ⟨fun hi => Nat.lt_irrefl _ (hm _ hi), hn⟩
    · intro i hi
      rcases PoolAct.conns hact with ⟨hle, he⟩ | ⟨heq, he⟩
      · rw [he]
        exact hm i (Multiset.mem_of_le (add_le_add_left hle _) hi)
      · rw [he]
        rw [heq, Multiset.cons_add, Multiset.mem_cons] at hi
        rcases hi with rfl | hi
        · exact Nat.lt_succ_self _
        · exact Nat.lt_succ_of_lt (hm i hi)

theorem distinct_of_reach (h : Reach (poolSystem cfg) ok newPool s) : Distinct s := by
  apply h.invariant
  · exact ⟨Multiset.nodup_zero, fun i hi => absurd hi (Multiset.notMem_zero i)⟩
  · exact fun s s' hd hs => hd.step hs

theorem signal_closed (p : Pool) : (p.signal cfg).closed = p.closed := by
  unfold Pool.signal
  split <;> rfl

theorem forget_closed (p : Pool) : p.forget.closed = p.closed := by
  unfold Pool.forget
  split <;> rfl

theorem PoolAct.closed (h : PoolAct cfg x t x' r) (hx : x.pool.closed) :
    x'.pool.closed ∧ r.elim 0 Thread.loan ≤ t.loan := by
  cases h with
  | acquire now => simpa [acquire_closed _ hx] using hx
  | dialOk now => exact ⟨hx, le_rfl⟩
  | dialError => exact ⟨hx, le_rfl⟩
  | dialed => simpa [dialed_closed _ hx] using hx
  | dialFailed =>
    rename_i p n d
    cases d with
    | acquire => exact ⟨hx, le_rfl⟩
    | warm i => exact ⟨hx, le_rfl⟩
    | check => exact ⟨hx, le_rfl⟩
  | selectToken _ => exact ⟨hx, le_rfl⟩
  | selectDone => exact ⟨hx, le_rfl⟩
  | selectDefault _ => exact ⟨hx, le_rfl⟩
  | waitToken _ => exact ⟨hx, le_rfl⟩
  | waitEnd => exact ⟨hx, le_rfl⟩
  | release now =>
    rw [release_closed _ hx]
    exact ⟨(forget_closed _).trans hx, Multiset.zero_le _⟩
  | discard => exact ⟨hx, le_rfl⟩
  | forget => exact ⟨(forget_closed _).trans hx, Multiset.zero_le _⟩
  | signal => exact ⟨(signal_closed _).trans hx, le_rfl⟩
  | closeConn => exact ⟨hx, le_rfl⟩
  | warmStop => exact ⟨hx, le_rfl⟩
  | warmGo _ _ => exact ⟨hx, le_rfl⟩
  | warm => simpa [warm_closed _ hx] using hx
  | healthCheck now => simpa [healthCheck_closed _ hx] using hx
  | close => simpa [close_closed _ hx] using hx

theorem closed_of_reach (h : Reach (poolSystem cfg) ok s s') (hs : s.shared.pool.closed) :
    s'.shared.pool.closed ∧
      total Thread.loan s'.threads ≤ total Thread.loan s.threads := by
  induction h with
  | refl => exact ⟨hs, le_rfl⟩
  | tail _ hstep ih =>
    obtain ⟨hc, hle⟩ := ih
    cases hstep with
    | call hcall => cases hcall <;> exact ⟨hc, by simpa using hle⟩
    | act hact _ =>
      obtain ⟨hc', hle'⟩ := PoolAct.closed hact hc
      rw [total_cons] at hle
      rw [total_next]
      exact ⟨hc', (add_le_add_left hle' _).trans hle⟩

theorem loan_le_conns (t : Thread) : t.loan ≤ t.conns := by
  cases t <;> simp

theorem sockets_le (t : Thread) : t.sockets ≤ t.slots + t.closes := by
  cases t <;> simp

/-- In every interleaving of calls the accounts are right, no connection is lent twice or both idle
and lent, at most `MaxConnections` are open, and after `Close` nothing is idle and nothing is handed
out. -/
theorem pool_accounting (hcfg : cfg.minConnections ≤ cfg.maxConnections)
    (h : PoolRun cfg newPool s) :
    s.shared.pool.numOpen = s.shared.pool.idle.length + total Thread.borrowed s.threads +
        total Thread.dials s.threads ∧
      s.shared.pool.numOpen ≤ cfg.maxConnections ∧
      (s.shared.pool.idleIds + total Thread.loan s.threads).Nodup ∧
      s.shared.pool.idle.length + total Thread.sockets s.threads ≤ cfg.maxConnections ∧
      (s.shared.pool.closed = true → ∀ s', PoolRun cfg s s' →
        s'.shared.pool.idle = [] ∧
          total Thread.loan s'.threads ≤ total Thread.loan s.threads) := by
  have hb := balanced_of_reach hcfg h
  have hslots : total Thread.slots s.threads =
      total Thread.borrowed s.threads + total Thread.dials s.threads := total_add _ _ _
  have hcount := hb.count
  have hbound := hb.bound
  have hsockets := (total_le sockets_le s.threads).trans_eq (total_add _ _ _)
  refine ⟨by omega, by omega, ?_, by omega, ?_⟩
  · exact Multiset.nodup_of_le (add_le_add_right (total_le loan_le_conns s.threads) _)
      (distinct_of_reach h).nodup
  · intro hc s' h'
    have hc' := closed_of_reach h' hc
    exact ⟨(balanced_of_reach hcfg (h.trans h')).empty hc'.1, hc'.2⟩

def singlePool : PoolConfig := ⟨0, 1, 0, 0⟩

/-- The pool is closed while its only connection is lent. -/
theorem pool_accounting_lent :
    PoolRun singlePool newPool ⟨⟨⟨[], 1, 0, true⟩, 1⟩, {.holding ⟨0, 0, 0⟩}⟩ ∧
      total Thread.loan (Thread.acquire ::ₘ {.holding ⟨0, 0, 0⟩}) ≤ {0} := by
  have h : PoolRun singlePool newPool ⟨⟨⟨[], 1, 0, true⟩, 1⟩, {.holding ⟨0, 0, 0⟩}⟩ := by
    refine Reach.call Thread.acquire PoolCall.acquire ?_
    refine Reach.act Thread.acquire 0 (PoolAct.acquire 0) trivial ?_
    refine Reach.act (Thread.dialing .acquire) 0 (PoolAct.dialOk 0) trivial ?_
    refine Reach.act (Thread.dialed .acquire _) 0 PoolAct.dialed trivial ?_
    refine Reach.call Thread.close PoolCall.close ?_
    refine Reach.act Thread.close _ PoolAct.close trivial ?_
    exact .refl
  have hclosed := (pool_accounting (by decide) h).2.2.2.2 rfl
  exact ⟨h, (hclosed _ (Reach.call Thread.acquire PoolCall.acquire .refl)).2⟩

end Pgmux
