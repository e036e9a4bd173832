import Mathlib.Data.List.Basic

namespace Pgmux

/-- A connection of a pool; `id` stands for the pointer. -/
structure PoolConn where
  id : Nat
  createdAt : Int
  lastUsedAt : Int
  deriving DecidableEq

def PoolConn.expired (c : PoolConn) (maxLifetime now : Int) : Bool :=
  0 < maxLifetime && maxLifetime < now - c.createdAt

def PoolConn.idle (c : PoolConn) (idleTimeout now : Int) : Bool :=
  0 < idleTimeout && idleTimeout < now - c.lastUsedAt

structure PoolConfig where
  minConnections : Nat
  maxConnections : Nat
  idleTimeout : Int
  maxLifetime : Int

def PoolConfig.stale (cfg : PoolConfig) (now : Int) (c : PoolConn) : Bool :=
  c.expired cfg.maxLifetime now || c.idle cfg.idleTimeout now

/-- The fields that the mutex protects, with the number of tokens in the channel. The idle
connections are a stack, its top first. -/
structure Pool where
  idle : List PoolConn
  numOpen : Int
  waitCh : Nat
  closed : Bool
  deriving DecidableEq

def Pool.new : Pool := ⟨[], 0, 0, false⟩

inductive Dialer where
  | acquire
  | warm (i : Nat)
  | check
  deriving DecidableEq

/-- Where a call is between its sections, or the caller that holds a connection. -/
inductive Thread where
  /-- `Acquire` at the head of its loop. -/
  | acquire
  /-- `newConn` was called for a reserved slot. -/
  | dialing (d : Dialer)
  /-- `newConn` returned a connection. -/
  | dialed (d : Dialer) (c : PoolConn)
  /-- `newConn` returned an error. -/
  | failed (d : Dialer)
  /-- `Acquire` before its first select, the one that does not block. -/
  | selecting
  /-- `Acquire` in its second select. -/
  | waiting
  /-- A caller to whom `Acquire` has returned a connection, before it is given back. -/
  | holding (c : PoolConn)
  /-- `Discard` after it has closed the connection. -/
  | discarding (c : PoolConn)
  /-- `Discard` before its select. -/
  | signalling
  /-- A call that found the pool closed after its dial, before it closes the connection. -/
  | closing (c : PoolConn)
  /-- `Warm` at the head of its loop. -/
  | warm (i : Nat)
  /-- `Warm` before it reserves a slot. -/
  | warming (i : Nat)
  /-- `healthCheck` at its beginning. -/
  | check
  /-- `Close` at its beginning. -/
  | close
  deriving DecidableEq

/-- The send that does not block, on a channel of `MaxConnections` places. -/
def Pool.signal (cfg : PoolConfig) (p : Pool) : Pool :=
  if p.waitCh < cfg.maxConnections then { p with waitCh := p.waitCh + 1 } else p

/-- Pop idle connections until one is not stale; the stale ones are closed. -/
def Pool.takeIdle (cfg : PoolConfig) (now : Int) (p : Pool) :
    List PoolConn → Option PoolConn × Pool
  | [] => (none, { p with idle := [] })
  | conn :: idle =>
    if cfg.stale now conn then takeIdle cfg now { p with numOpen := p.numOpen - 1 } idle
    else (some { conn with lastUsedAt := now }, { p with idle := idle })

def Pool.acquire (cfg : PoolConfig) (now : Int) (p : Pool) : Pool × Option Thread :=
  if p.closed then (p, none)
  else match p.takeIdle cfg now p.idle with
    | (some conn, p) => (p, some (.holding conn))
    | (none, p) =>
      if p.numOpen < cfg.maxConnections then
        ({ p with numOpen := p.numOpen + 1 }, some (.dialing .acquire))
      else (p, some .selecting)

def Pool.warm (cfg : PoolConfig) (i : Nat) (p : Pool) : Pool × Option Thread :=
  if p.closed || cfg.minConnections ≤ p.numOpen then (p, none)
  else ({ p with numOpen := p.numOpen + 1 }, some (.dialing (.warm i)))

def Pool.replenish (cfg : PoolConfig) (p : Pool) : Pool × Option Thread :=
  if p.numOpen < cfg.minConnections then
    ({ p with numOpen := p.numOpen + 1 }, some (.dialing .check))
  else (p, none)

def Pool.healthCheck (cfg : PoolConfig) (now : Int) (p : Pool) : Pool × Option Thread :=
  if p.closed then (p, none)
  else
    let alive := p.idle.filter fun c => !cfg.stale now c
    replenish cfg { p with
      idle := alive
      numOpen := p.numOpen - (p.idle.length - alive.length : Nat) }

/-- The section after a dial that failed: the slot is given back, and nobody is told. -/
def Pool.dialFailed (p : Pool) (d : Dialer) : Pool × Option Thread :=
  ({ p with numOpen := p.numOpen - 1 },
    match d with
    | .acquire => none
    | .warm i => some (.warm (i + 1))
    | .check => none)

/-- The section after a dial, which looks again whether the pool is closed. -/
def Pool.dialed (cfg : PoolConfig) (p : Pool) (c : PoolConn) (d : Dialer) : Pool × Option Thread :=
  if p.closed then ({ p with numOpen := p.numOpen - 1 }, some (.closing c))
  else match d with
    | .acquire => (p, some (.holding c))
    | .warm i => ({ p with idle := c :: p.idle }, some (.warm (i + 1)))
    | .check => replenish cfg { p with idle := c :: p.idle }

def Pool.forget (p : Pool) : Pool :=
  if 0 < p.numOpen then { p with numOpen := p.numOpen - 1 } else p

def Pool.release (cfg : PoolConfig) (now : Int) (p : Pool) (c : PoolConn) : Pool :=
  if p.closed then p.forget
  else signal cfg { p with idle := { c with lastUsedAt := now } :: p.idle }

def Pool.close (p : Pool) : Pool :=
  if p.closed then p
  else { p with closed := true, idle := [], numOpen := p.numOpen - p.idle.length }

end Pgmux
