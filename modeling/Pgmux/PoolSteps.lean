import Pgmux.Interleaving
import Pgmux.Pool

namespace Pgmux

open Interleaving

/-- The pool, and the number of connections that were dialed, which names the next one. -/
structure Shared where
  pool : Pool
  made : Nat

/-- The calls: a caller that gets a connection is followed by its thread. -/
inductive PoolCall : Thread → Prop
  | acquire : PoolCall .acquire
  | warm : PoolCall (.warm 0)
  | healthCheck : PoolCall .check
  | close : PoolCall .close

/-- What a thread does next. The time is any time, a dial succeeds or fails, and contexts and
timers end when they will. -/
inductive PoolAct (cfg : PoolConfig) : Shared → Thread → Shared → Option Thread → Prop
  | acquire (now : Int) :
    PoolAct cfg ⟨p, n⟩ .acquire ⟨(p.acquire cfg now).1, n⟩ (p.acquire cfg now).2
  | dialOk (now : Int) : PoolAct cfg ⟨p, n⟩ (.dialing d) ⟨p, n + 1⟩ (some (.dialed d ⟨n, now, now⟩))
  | dialError : PoolAct cfg ⟨p, n⟩ (.dialing d) ⟨p, n⟩ (some (.failed d))
  | dialed : PoolAct cfg ⟨p, n⟩ (.dialed d c) ⟨(p.dialed cfg c d).1, n⟩ (p.dialed cfg c d).2
  | dialFailed : PoolAct cfg ⟨p, n⟩ (.failed d) ⟨(p.dialFailed d).1, n⟩ (p.dialFailed d).2
  | selectToken : p.waitCh = k + 1 →
    PoolAct cfg ⟨p, n⟩ .selecting ⟨{ p with waitCh := k }, n⟩ (some .acquire)
  | selectDone : PoolAct cfg x .selecting x none
  | selectDefault : p.waitCh = 0 → PoolAct cfg ⟨p, n⟩ .selecting ⟨p, n⟩ (some .waiting)
  | waitToken : p.waitCh = k + 1 →
    PoolAct cfg ⟨p, n⟩ .waiting ⟨{ p with waitCh := k }, n⟩ (some .acquire)
  | waitEnd : PoolAct cfg x .waiting x none
  | release (now : Int) : PoolAct cfg ⟨p, n⟩ (.holding c) ⟨p.release cfg now c, n⟩ none
  | discard : PoolAct cfg x (.holding c) x (some (.discarding c))
  | forget : PoolAct cfg ⟨p, n⟩ (.discarding c) ⟨p.forget, n⟩ (some .signalling)
  | signal : PoolAct cfg ⟨p, n⟩ .signalling ⟨p.signal cfg, n⟩ none
  | closeConn : PoolAct cfg x (.closing c) x none
  | warmStop : PoolAct cfg x (.warm i) x none
  | warmGo : i < cfg.minConnections → x.pool.closed = false →
    PoolAct cfg x (.warm i) x (some (.warming i))
  | warm : PoolAct cfg ⟨p, n⟩ (.warming i) ⟨(p.warm cfg i).1, n⟩ (p.warm cfg i).2
  | healthCheck (now : Int) :
    PoolAct cfg ⟨p, n⟩ .check ⟨(p.healthCheck cfg now).1, n⟩ (p.healthCheck cfg now).2
  | close : PoolAct cfg ⟨p, n⟩ .close ⟨p.close, n⟩ none

def poolSystem (cfg : PoolConfig) : System Shared Thread := ⟨PoolCall, PoolAct cfg⟩

abbrev PoolState := State Shared Thread

def newPool : PoolState := ⟨⟨.new, 0⟩, 0⟩

abbrev PoolRun (cfg : PoolConfig) : PoolState → PoolState → Prop :=
  Reach (poolSystem cfg) fun _ _ => True

structure Trimmed (p q : Pool) : Prop where
  idle : q.idle.Sublist p.idle
  numOpen : q.numOpen - q.idle.length = p.numOpen - p.idle.length
  waitCh : q.waitCh = p.waitCh
  closed : q.closed = p.closed

theorem takeIdle_some {p q : Pool} (h : p.takeIdle cfg now idle = (some c, q)) :
    ∃ conn, conn.id = c.id ∧ Trimmed { p with idle := idle } { q with idle := conn :: q.idle } := by
  induction idle generalizing p with
  | nil => cases h
  | cons conn idle ih =>
    rw [Pool.takeIdle] at h
    split at h
    · obtain ⟨conn', hid, ht⟩ := ih h
      refine ⟨conn', hid, ht.idle.trans (List.sublist_cons_self _ _), ?_, ht.waitCh, ht.closed⟩
      have hn := ht.numOpen
      simp only [List.length_cons] at hn ⊢
      omega
    · cases h
      exact ⟨conn, rfl, .refl _, rfl, rfl, rfl⟩

theorem takeIdle_none {p q : Pool} (h : p.takeIdle cfg now idle = (none, q)) :
    q.idle = [] ∧ Trimmed { p with idle := idle } q := by
  induction idle generalizing p with
  | nil =>
    cases h
    exact ⟨rfl, .refl _, rfl, rfl, rfl⟩
  | cons conn idle ih =>
    rw [Pool.takeIdle] at h
    split at h
    · obtain ⟨hq, ht⟩ := ih h
      refine ⟨hq, ht.idle.trans (List.sublist_cons_self _ _), ?_, ht.waitCh, ht.closed⟩
      have hn := ht.numOpen
      simp only [List.length_cons] at hn ⊢
      omega
    · cases h

inductive Acquires (cfg : PoolConfig) (p : Pool) : Pool × Option Thread → Prop
  | take : conn.id = c.id → Trimmed p { q with idle := conn :: q.idle } →
    Acquires cfg p (q, some (.holding c))
  | reserve : Trimmed p q → q.numOpen < cfg.maxConnections →
    Acquires cfg p ({ q with numOpen := q.numOpen + 1 }, some (.dialing .acquire))
  | block : Trimmed p q → q.idle = [] → cfg.maxConnections ≤ q.numOpen →
    Acquires cfg p (q, some .selecting)

theorem acquires (cfg : PoolConfig) (now : Int) (p : Pool) (hp : p.closed = false) :
    Acquires cfg p (p.acquire cfg now) := by
  unfold Pool.acquire
  rw [hp]
  cases ht : p.takeIdle cfg now p.idle with
  | mk o q =>
    cases o with
    | some c =>
      obtain ⟨conn, hid, hq⟩ := takeIdle_some ht
      exact .take hid hq
    | none =>
      obtain ⟨hq, ht⟩ := takeIdle_none ht
      simp only [Bool.false_eq_true, if_false]
      split
      · rename_i hn
        exact .reserve ht hn
      · rename_i hn
        exact .block ht hq (Int.not_lt.mp hn)

theorem acquire_closed (p : Pool) (hp : p.closed) : p.acquire cfg now = (p, none) := by
  simp [Pool.acquire, hp]

theorem healthCheck_open (cfg : PoolConfig) (now : Int) (p : Pool) (hp : p.closed = false) :
    ∃ q, Trimmed p q ∧ p.healthCheck cfg now = q.replenish cfg := by
  simp only [Pool.healthCheck, hp, Bool.false_eq_true, if_false]
  refine ⟨_, ?_, rfl⟩
  have hle := List.length_filter_le (fun c => !cfg.stale now c) p.idle
  refine ⟨List.filter_sublist, ?_, rfl, hp.symm⟩
  simp only
  omega

theorem healthCheck_closed (p : Pool) (hp : p.closed) :
    p.healthCheck cfg now = (p, none) := by
  simp [Pool.healthCheck, hp]

theorem dialed_closed (p : Pool) (hp : p.closed) :
    p.dialed cfg c d = ({ p with numOpen := p.numOpen - 1 }, some (.closing c)) := by
  simp [Pool.dialed, hp]

theorem release_closed (p : Pool) (hp : p.closed) : p.release cfg now c = p.forget := by
  simp [Pool.release, hp]

theorem warm_closed (p : Pool) (hp : p.closed) : p.warm cfg i = (p, none) := by
  simp [Pool.warm, hp]

theorem close_closed (p : Pool) (hp : p.closed) : p.close = p := by
  simp [Pool.close, hp]

end Pgmux
