import Mathlib.Data.List.AList
import Pgmux.Balancer
import Pgmux.Breaker

namespace Pgmux

/-- The balancer with a new list of readers; those that stay keep their state. -/
def RoundRobin.updateBackends (addrs : List Addr) (r : RoundRobin) : RoundRobin :=
  { r with
    backends := addrs.map fun addr =>
      (r.backends.reverse.find? fun b => b.addr = addr).getD ⟨addr, true⟩ }

structure Endpoint where
  host : Bytes
  port : Int

def Endpoint.addr (e : Endpoint) : Addr := e.host ++ ascii ":" ++ ascii (toString e.port)

structure Credentials where
  user : Bytes
  password : Bytes
  database : Bytes
  deriving DecidableEq

structure DatabaseConfig where
  writer : Endpoint
  readers : List Endpoint
  backend : Credentials

def DatabaseConfig.readerAddrs (cfg : DatabaseConfig) : List Addr := cfg.readers.map Endpoint.addr

structure BreakerSettings where
  enabled : Bool
  breaker : BreakerConfig

abbrev PoolMap := AList fun _ : Addr => Nat
abbrev BreakerMap := AList fun _ : Addr => CircuitBreaker

/-- A group of a database. Its pools are pointers. -/
structure DatabaseGroup where
  writerAddr : Addr
  writerPool : Option Nat
  readerPools : PoolMap
  balancer : RoundRobin
  writerCB : Option CircuitBreaker
  readerCBs : Option BreakerMap
  backendCfg : Credentials

/-- The pools made so far are those below `next`. -/
structure PoolHeap where
  next : Nat
  closed : Nat → Bool

namespace PoolHeap

def close (p : Nat) (h : PoolHeap) : PoolHeap :=
  { h with closed := Function.update h.closed p true }

def alloc (h : PoolHeap) : PoolHeap := { h with next := h.next + 1 }

def closeAll (ps : List Nat) (h : PoolHeap) : PoolHeap := ps.foldl (fun h p => h.close p) h

theorem closeAll_closed (ps : List Nat) (h : PoolHeap) (p : Nat) :
    (h.closeAll ps).closed p = (h.closed p || decide (p ∈ ps)) := by
  unfold closeAll
  induction ps generalizing h with
  | nil => simp
  | cons q ps ih =>
    rw [List.foldl_cons, ih, close]
    by_cases hp : p = q
    · subst hp
      simp
    · simp [hp]

theorem closeAll_next (ps : List Nat) (h : PoolHeap) : (h.closeAll ps).next = h.next := by
  unfold closeAll
  induction ps generalizing h with
  | nil => rfl
  | cons q ps ih =>
    rw [List.foldl_cons, ih]
    rfl

end PoolHeap

namespace DatabaseGroup

/-- The pool of a reader address that `Reload` puts into the new map. -/
def poolFor (g : DatabaseGroup) (credsChanged : Bool) (addr : Addr) (h : PoolHeap) :
    Nat × PoolHeap :=
  match if credsChanged then none else g.readerPools.lookup addr with
  | some p => (p, h)
  | none => (h.next, h.alloc)

def newPools (g : DatabaseGroup) (credsChanged : Bool) :
    List Addr → PoolMap × PoolHeap → PoolMap × PoolHeap
  | [], r => r
  | addr :: addrs, (pools, h) =>
    let (p, h) := g.poolFor credsChanged addr h
    newPools g credsChanged addrs (pools.insert addr p, h)

def dropped (g : DatabaseGroup) (pools : PoolMap) : List Nat :=
  (g.readerPools.entries.filter fun e => e.1 ∉ pools).map fun e => e.2

def newBreakers (old : BreakerMap) (cfg : BreakerConfig) (addrs : List Addr) : BreakerMap :=
  addrs.foldl (fun m addr => m.insert addr ((old.lookup addr).getD (.new cfg))) ∅

/-- The writer part of `Reload`. `pool.New` never fails. -/
def reloadWriter (g : DatabaseGroup) (credsChanged : Bool) (addr : Addr) (h : PoolHeap) :
    DatabaseGroup × PoolHeap :=
  if credsChanged || addr ≠ g.writerAddr then
    let h := h.closeAll g.writerPool.toList
    ({ g with writerPool := some h.next, writerAddr := addr }, h.alloc)
  else (g, h)

def credsChanged (g : DatabaseGroup) (cfg : DatabaseConfig) : Bool := g.backendCfg ≠ cfg.backend

def reload (cfg : DatabaseConfig) (cb : BreakerSettings) (g : DatabaseGroup) (h : PoolHeap) :
    DatabaseGroup × PoolHeap :=
  let creds := g.credsChanged cfg
  let (g, h) := g.reloadWriter creds cfg.writer.addr h
  let (pools, h) := g.newPools creds cfg.readerAddrs (∅, h)
  let h := h.closeAll (g.dropped pools)
  let g := { g with
    readerPools := pools
    balancer := g.balancer.updateBackends cfg.readerAddrs
    backendCfg := cfg.backend }
  if cb.enabled then
    ({ g with
      writerCB := some (g.writerCB.getD (.new cb.breaker))
      readerCBs := some (newBreakers (g.readerCBs.getD ∅) cb.breaker cfg.readerAddrs) }, h)
  else ({ g with writerCB := none, readerCBs := none }, h)

/-- The group that `newDatabaseGroup` makes before its reader pools. -/
def bare (cfg : DatabaseConfig) (cb : BreakerSettings) (writerPool : Nat) : DatabaseGroup where
  writerAddr := cfg.writer.addr
  writerPool := some writerPool
  readerPools := ∅
  balancer := .new cfg.readerAddrs
  writerCB := if cb.enabled then some (.new cb.breaker) else none
  readerCBs := if cb.enabled then some (newBreakers ∅ cb.breaker cfg.readerAddrs) else none
  backendCfg := cfg.backend

def new (cfg : DatabaseConfig) (cb : BreakerSettings) (h : PoolHeap) : DatabaseGroup × PoolHeap :=
  let g := bare cfg cb h.next
  let (pools, h) := g.newPools true cfg.readerAddrs (∅, h.alloc)
  ({ g with readerPools := pools }, h)

def Has (g : DatabaseGroup) (p : Nat) : Prop :=
  g.writerPool = some p ∨ ∃ addr, g.readerPools.lookup addr = some p

structure Distinct (g : DatabaseGroup) (h : PoolHeap) : Prop where
  readers : ∀ a a' p, g.readerPools.lookup a = some p → g.readerPools.lookup a' = some p → a = a'
  writer : ∀ a p, g.writerPool = some p → g.readerPools.lookup a ≠ some p
  below : ∀ p, g.Has p → p < h.next
  unmade : ∀ p, h.next ≤ p → h.closed p = false

variable {g : DatabaseGroup} {h h₀ : PoolHeap}

theorem mem_dropped : p ∈ g.dropped pools ↔ ∃ a, g.readerPools.lookup a = some p ∧ a ∉ pools := by
  unfold dropped
  rw [List.mem_map]
  constructor
  · rintro ⟨⟨a, q⟩, he, rfl⟩
    obtain ⟨he, ha⟩ := List.mem_filter.mp he
    exact ⟨a, AList.mem_lookup_iff.mpr he, by simpa using ha⟩
  · rintro ⟨a, hl, ha⟩
    exact ⟨⟨a, p⟩, List.mem_filter.mpr ⟨AList.mem_lookup_iff.mp hl, by simpa using ha⟩, rfl⟩

structure Fills (g : DatabaseGroup) (creds : Bool) (h₀ : PoolHeap) (done : List Addr)
    (r : PoolMap × PoolHeap) : Prop where
  keys : ∀ a, a ∈ r.1 ↔ a ∈ done
  source : ∀ a p, r.1.lookup a = some p → (creds = false ∧ g.readerPools.lookup a = some p) ∨
    (h₀.next ≤ p ∧ p < r.2.next ∧ (creds = true ∨ g.readerPools.lookup a = none))
  once : ∀ a a' p, r.1.lookup a = some p → r.1.lookup a' = some p → h₀.next ≤ p → a = a'
  grows : h₀.next ≤ r.2.next
  closed : r.2.closed = h₀.closed

theorem Fills.insert (hf : Fills g creds h₀ done (pools, h))
    (hb : ∀ a p, g.readerPools.lookup a = some p → p < h₀.next) (addr : Addr) :
    Fills g creds h₀ (done ++ [addr])
      (pools.insert addr (g.poolFor creds addr h).1, (g.poolFor creds addr h).2) := by
  have hkeys (q : Nat) : ∀ a, a ∈ pools.insert addr q ↔ a ∈ done ++ [addr] := by
    intro a
    rw [AList.mem_insert, List.mem_append, List.mem_singleton, hf.keys]
    exact or_comm
  unfold poolFor
  split
  · rename_i p hp
    have hk : creds = false ∧ g.readerPools.lookup addr = some p := by
      cases creds with
      | true => simp at hp
      | false => exact ⟨rfl, by simpa using hp⟩
    refine ⟨hkeys p, ?_, ?_, hf.grows, hf.closed⟩
    · intro a q hq
      by_cases ha : a = addr
      · subst ha
        rw [AList.lookup_insert, Option.some.injEq] at hq
        subst hq
        exact .inl hk
      · rw [AList.lookup_insert_ne ha] at hq
        exact hf.source a q hq
    · intro a a' q hq hq' hle
      have hlt := hb addr p hk.2
      by_cases ha : a = addr
      · subst ha
        rw [AList.lookup_insert, Option.some.injEq] at hq
        omega
      · by_cases ha' : a' = addr
        · subst ha'
          rw [AList.lookup_insert, Option.some.injEq] at hq'
          omega
        · rw [AList.lookup_insert_ne ha] at hq
          rw [AList.lookup_insert_ne ha'] at hq'
          exact hf.once a a' q hq hq' hle
  · rename_i hp
    have hk : creds = true ∨ g.readerPools.lookup addr = none := by
      cases creds with
      | true => exact .inl rfl
      | false => exact .inr (by simpa using hp)
    have hnew : ∀ a q, pools.lookup a = some q → q < h.next := by
      intro a q hq
      have hg := hf.grows
      rcases hf.source a q hq with ⟨-, hold⟩ | ⟨-, hlt, -⟩
      · have hlt := hb a q hold
        dsimp only at hg
        omega
      · exact hlt
    have hg : h₀.next ≤ h.next := hf.grows
    refine ⟨hkeys h.next, ?_, ?_, ?_, hf.closed⟩
    · intro a q hq
      by_cases ha : a = addr
      · subst ha
        rw [AList.lookup_insert, Option.some.injEq] at hq
        subst hq
        exact .inr ⟨hg, Nat.lt_succ_self _, hk⟩
      · rw [AList.lookup_insert_ne ha] at hq
        rcases hf.source a q hq with hs | ⟨hle, hlt, hs⟩
        · exact .inl hs
        · exact .inr ⟨hle, Nat.lt_succ_of_lt hlt, hs⟩
    · intro a a' q hq hq' hle
      by_cases ha : a = addr
      · by_cases ha' : a' = addr
        · rw [ha, ha']
        · subst ha
          rw [AList.lookup_insert, Option.some.injEq] at hq
          rw [AList.lookup_insert_ne ha'] at hq'
          have hlt := hnew a' q hq'
          omega
      · rw [AList.lookup_insert_ne ha] at hq
        by_cases ha' : a' = addr
        · subst ha'
          rw [AList.lookup_insert, Option.some.injEq] at hq'
          have hlt := hnew a q hq
          omega
        · rw [AList.lookup_insert_ne ha'] at hq'
          exact hf.once a a' q hq hq' hle
    · exact Nat.le_succ_of_le hg

theorem Fills.newPools (hb : ∀ a p, g.readerPools.lookup a = some p → p < h₀.next)
    (hf : Fills g creds h₀ done r) (addrs : List Addr) :
    Fills g creds h₀ (done ++ addrs) (g.newPools creds addrs r) := by
  induction addrs generalizing done r with
  | nil =>
    rw [List.append_nil]
    exact hf
  | cons addr addrs ih =>
    obtain ⟨pools, h⟩ := r
    have hi := ih (hf.insert hb addr)
    rw [List.append_assoc] at hi
    exact hi

theorem fills_nil (g : DatabaseGroup) (creds : Bool) (h : PoolHeap) :
    Fills g creds h [] (∅, h) where
  keys := by simp
  source := by simp
  once := by simp
  grows := Nat.le_refl _
  closed := rfl

def rewrites (g : DatabaseGroup) (cfg : DatabaseConfig) : Bool :=
  g.credsChanged cfg || cfg.writer.addr ≠ g.writerAddr

/-- What `Reload` leaves of the pools, with the heap `h₁` after the writer part. -/
structure Reloads (cfg : DatabaseConfig) (g : DatabaseGroup) (h : PoolHeap) (g' : DatabaseGroup)
    (h' h₁ : PoolHeap) : Prop where
  writerKept : g.rewrites cfg = false → g'.writerPool = g.writerPool ∧ h₁ = h
  writerNew : g.rewrites cfg = true → g'.writerPool = some h.next ∧ h₁.next = h.next + 1 ∧
    ∀ p, h₁.closed p = true ↔ h.closed p = true ∨ g.writerPool = some p
  keys : ∀ a, a ∈ g'.readerPools ↔ a ∈ cfg.readerAddrs
  source : ∀ a p, g'.readerPools.lookup a = some p →
    (g.credsChanged cfg = false ∧ g.readerPools.lookup a = some p) ∨
      (h₁.next ≤ p ∧ p < h'.next ∧
        (g.credsChanged cfg = true ∨ g.readerPools.lookup a = none))
  once : ∀ a a' p, g'.readerPools.lookup a = some p → g'.readerPools.lookup a' = some p →
    h₁.next ≤ p → a = a'
  grows : h₁.next ≤ h'.next
  closed : ∀ p, h'.closed p = true ↔ h₁.closed p = true ∨
    ∃ a, g.readerPools.lookup a = some p ∧ a ∉ g'.readerPools

theorem reloadWriter_kept (hr : g.rewrites cfg = false) :
    g.reloadWriter (g.credsChanged cfg) cfg.writer.addr h = (g, h) := by
  unfold reloadWriter
  unfold rewrites at hr
  rw [hr]
  rfl

theorem reloadWriter_new (hr : g.rewrites cfg) :
    g.reloadWriter (g.credsChanged cfg) cfg.writer.addr h =
      ({ g with writerPool := some h.next, writerAddr := cfg.writer.addr },
        (h.closeAll g.writerPool.toList).alloc) := by
  unfold reloadWriter
  unfold rewrites at hr
  rw [if_pos hr]
  dsimp only
  rw [PoolHeap.closeAll_next]

theorem reload_fills (cfg : DatabaseConfig) (cb : BreakerSettings)
    (hw : g.reloadWriter (g.credsChanged cfg) cfg.writer.addr h = (g₁, h₁))
    (hr : g₁.readerPools = g.readerPools)
    (hb : ∀ a p, g.readerPools.lookup a = some p → p < h₁.next) :
    ∃ h₂, (g.reload cfg cb h).1.writerPool = g₁.writerPool ∧
      Fills g (g.credsChanged cfg) h₁ cfg.readerAddrs ((g.reload cfg cb h).1.readerPools, h₂) ∧
      (g.reload cfg cb h).2 = h₂.closeAll (g.dropped (g.reload cfg cb h).1.readerPools) := by
  have hnp : ∀ addrs r, g₁.newPools (g.credsChanged cfg) addrs r =
      g.newPools (g.credsChanged cfg) addrs r := by
    intro addrs
    induction addrs with
    | nil => intro r; rfl
    | cons addr addrs ih =>
      rintro ⟨pools, x⟩
      simp only [newPools, poolFor, hr]
      exact ih _
  have hf := (fills_nil g (g.credsChanged cfg) h₁).newPools hb cfg.readerAddrs
  rw [List.nil_append] at hf
  have hdrop (pools : PoolMap) : g₁.dropped pools = g.dropped pools := by
    unfold dropped
    rw [hr]
  have hrp : (g.reload cfg cb h).1.readerPools =
      (g.newPools (g.credsChanged cfg) cfg.readerAddrs (∅, h₁)).1 := by
    simp only [reload, hw, hnp]
    split <;> rfl
  refine ⟨(g.newPools (g.credsChanged cfg) cfg.readerAddrs (∅, h₁)).2, ?_, ?_, ?_⟩
  · simp only [reload, hw]
    split <;> rfl
  · rw [hrp]
    exact hf
  · rw [hrp]
    simp only [reload, hw, hnp, hdrop]
    split <;> rfl

theorem reload_reloads (cfg : DatabaseConfig) (cb : BreakerSettings) (hd : g.Distinct h) :
    ∃ h₁, Reloads cfg g h (g.reload cfg cb h).1 (g.reload cfg cb h).2 h₁ := by
  have hb : ∀ a p, g.readerPools.lookup a = some p → p < h.next := fun a p hp =>
    hd.below p (.inr ⟨a, hp⟩)
  cases hr : g.rewrites cfg with
  | false =>
    obtain ⟨h₂, hwp, hf, hh⟩ := reload_fills cfg cb (reloadWriter_kept hr) rfl hb
    refine ⟨h, ⟨?_, ?_, hf.keys, ?_, hf.once, ?_, ?_⟩⟩
    · intro _
      exact ⟨hwp, rfl⟩
    · intro hc
      rw [hr] at hc
      cases hc
    · rw [hh, PoolHeap.closeAll_next]
      exact hf.source
    · rw [hh, PoolHeap.closeAll_next]
      exact hf.grows
    · intro p
      have hc := hf.closed
      dsimp only at hc
      rw [hh, PoolHeap.closeAll_closed, Bool.or_eq_true, decide_eq_true_eq, mem_dropped, hc]
  | true =>
    have hb' : ∀ a p, g.readerPools.lookup a = some p →
        p < (h.closeAll g.writerPool.toList).alloc.next := by
      intro a p hp
      simp only [PoolHeap.alloc, PoolHeap.closeAll_next]
      exact Nat.lt_succ_of_lt (hb a p hp)
    obtain ⟨h₂, hwp, hf, hh⟩ := reload_fills cfg cb (reloadWriter_new hr) rfl hb'
    refine ⟨(h.closeAll g.writerPool.toList).alloc, ⟨?_, ?_, hf.keys, ?_, hf.once, ?_, ?_⟩⟩
    · intro hc
      rw [hr] at hc
      cases hc
    · intro _
      refine ⟨hwp, ?_, ?_⟩
      · simp only [PoolHeap.alloc, PoolHeap.closeAll_next]
      · intro p
        simp only [PoolHeap.alloc, PoolHeap.closeAll_closed]
        simp [Option.mem_toList]
    · rw [hh, PoolHeap.closeAll_next]
      exact hf.source
    · rw [hh, PoolHeap.closeAll_next]
      exact hf.grows
    · intro p
      have hc := hf.closed
      dsimp only at hc
      rw [hh, PoolHeap.closeAll_closed, Bool.or_eq_true, decide_eq_true_eq, mem_dropped, hc]

section Reloads

variable {cfg : DatabaseConfig} {g' : DatabaseGroup} {h' h₁ : PoolHeap}

theorem Reloads.next_le (hr : Reloads cfg g h g' h' h₁) : h.next ≤ h₁.next := by
  cases hw : g.rewrites cfg with
  | false => rw [(hr.writerKept hw).2]
  | true =>
    rw [(hr.writerNew hw).2.1]
    exact Nat.le_succ _

theorem Reloads.keeps_open (hr : Reloads cfg g h g' h' h₁) (hd : g.Distinct h) (hp : g'.Has p)
    (ho : h.closed p = false) : h'.closed p = false := by
  rw [← Bool.not_eq_true, hr.closed]
  have hle := hr.next_le
  have hwriter : ¬ h₁.closed p := by
    intro hc
    cases hw : g.rewrites cfg with
    | false =>
      rw [(hr.writerKept hw).2, ho] at hc
      cases hc
    | true =>
      obtain ⟨hnew, -, hcl⟩ := hr.writerNew hw
      rcases (hcl p).mp hc with hc | hc
      · rw [ho] at hc
        cases hc
      · -- The writer pool is closed; it is neither the new one nor a reader pool.
        have hlt := hd.below p (.inl hc)
        rcases hp with hp | ⟨a, ha⟩
        · rw [hnew, Option.some.injEq] at hp
          omega
        · rcases hr.source a p ha with ⟨-, hold⟩ | ⟨hge, -, -⟩
          · exact hd.writer a p hc hold
          · omega
  rintro (hc | ⟨a, ha, hn⟩)
  · exact hwriter hc
  · have hlt := hd.below p (.inr ⟨a, ha⟩)
    rcases hp with hp | ⟨a', ha'⟩
    · cases hw : g.rewrites cfg with
      | false =>
        rw [(hr.writerKept hw).1] at hp
        exact hd.writer a p hp ha
      | true =>
        rw [(hr.writerNew hw).1, Option.some.injEq] at hp
        omega
    · rcases hr.source a' p ha' with ⟨-, hold⟩ | ⟨hge, -, -⟩
      · rw [hd.readers a a' p ha hold] at hn
        exact hn (AList.lookup_isSome.mp (by rw [ha']; rfl))
      · omega

/-- Under changed credentials some address keeps its place with another pool, and its old one is
open. -/
def Orphans (cfg : DatabaseConfig) (g : DatabaseGroup) (h : PoolHeap) : Prop :=
  g.credsChanged cfg = true ∧ ∃ addr ∈ cfg.readerAddrs, ∃ p,
    g.readerPools.lookup addr = some p ∧ h.closed p = false

/-- All pools that the group lost are closed, unless a reader address stays under changed
credentials. -/
theorem Reloads.closes_iff (hr : Reloads cfg g h g' h' h₁) (hd : g.Distinct h) :
    (∀ p, g.Has p → ¬ g'.Has p → h'.closed p) ↔ ¬ Orphans cfg g h := by
  have hle := hr.next_le
  constructor
  · rintro hall ⟨hc, addr, haddr, p, hp, ho⟩
    have hlt := hd.below p (.inr ⟨addr, hp⟩)
    have hnot : ¬ g'.Has p := by
      rintro (hw | ⟨a, ha⟩)
      · have hrw : g.rewrites cfg := by simp [rewrites, hc]
        rw [(hr.writerNew hrw).1, Option.some.injEq] at hw
        omega
      · rcases hr.source a p ha with ⟨hf, -⟩ | ⟨hge, -, -⟩
        · rw [hc] at hf
          cases hf
        · omega
    rcases (hr.closed p).mp (hall p (.inr ⟨addr, hp⟩) hnot) with hcl | ⟨a, ha, hn⟩
    · have hrw : g.rewrites cfg := by simp [rewrites, hc]
      rcases ((hr.writerNew hrw).2.2 p).mp hcl with hcl | hcl
      · rw [ho] at hcl
        cases hcl
      · exact hd.writer addr p hcl hp
    · rw [hd.readers a addr p ha hp] at hn
      exact hn ((hr.keys addr).mpr haddr)
  · intro hno p hp hnot
    rw [hr.closed]
    rcases hp with hp | ⟨a, ha⟩
    · left
      cases hw : g.rewrites cfg with
      | false => exact (hnot (.inl ((hr.writerKept hw).1.trans hp))).elim
      | true => exact ((hr.writerNew hw).2.2 p).mpr (.inr hp)
    · by_cases hk : a ∈ g'.readerPools
      · left
        have haddr := (hr.keys a).mp hk
        obtain ⟨q, hq⟩ := Option.isSome_iff_exists.mp (AList.lookup_isSome.mpr hk)
        rcases hr.source a q hq with ⟨-, hold⟩ | ⟨-, -, hc⟩
        · rw [ha, Option.some.injEq] at hold
          subst hold
          exact (hnot (.inr ⟨a, hq⟩)).elim
        · rcases hc with hc | hc
          · -- The old pool was closed before, or it would be an orphan.
            have hcl : h.closed p := by
              rw [← Bool.not_eq_false]
              intro ho
              exact hno ⟨hc, a, haddr, p, ha, ho⟩
            have hrw : g.rewrites cfg := by simp [rewrites, hc]
            exact ((hr.writerNew hrw).2.2 p).mpr (.inl hcl)
          · rw [ha] at hc
            cases hc
      · exact .inr ⟨a, ha, hk⟩

theorem Reloads.distinct (hr : Reloads cfg g h g' h' h₁) (hd : g.Distinct h) : g'.Distinct h' where
  readers := by
    intro a a' p ha ha'
    rcases hr.source a p ha with ⟨-, hold⟩ | ⟨hge, -, -⟩
    · rcases hr.source a' p ha' with ⟨-, hold'⟩ | ⟨hge, -, -⟩
      · exact hd.readers a a' p hold hold'
      · exact hr.once a a' p ha ha' hge
    · exact hr.once a a' p ha ha' hge
  writer := by
    intro a p hp ha
    have hle := hr.next_le
    cases hw : g.rewrites cfg with
    | false =>
      rw [(hr.writerKept hw).1] at hp
      have hlt := hd.below p (.inl hp)
      rcases hr.source a p ha with ⟨-, hold⟩ | ⟨hge, -, -⟩
      · exact hd.writer a p hp hold
      · omega
    | true =>
      obtain ⟨hnew, hnext, -⟩ := hr.writerNew hw
      rw [hnew, Option.some.injEq] at hp
      rcases hr.source a p ha with ⟨-, hold⟩ | ⟨hge, -, -⟩
      · have hlt := hd.below p (.inr ⟨a, hold⟩)
        omega
      · omega
  below := by
    intro p hp
    have hle := hr.next_le
    have hg := hr.grows
    rcases hp with hp | ⟨a, ha⟩
    · cases hw : g.rewrites cfg with
      | false =>
        rw [(hr.writerKept hw).1] at hp
        have hlt := hd.below p (.inl hp)
        omega
      | true =>
        obtain ⟨hnew, hnext, -⟩ := hr.writerNew hw
        rw [hnew, Option.some.injEq] at hp
        omega
    · rcases hr.source a p ha with ⟨-, hold⟩ | ⟨-, hlt, -⟩
      · have hlt := hd.below p (.inr ⟨a, hold⟩)
        omega
      · exact hlt
  unmade := by
    intro p hp
    have hle := hr.next_le
    have hg := hr.grows
    rw [← Bool.not_eq_true, hr.closed]
    rintro (hc | ⟨a, ha, -⟩)
    · cases hw : g.rewrites cfg with
      | false =>
        rw [(hr.writerKept hw).2, hd.unmade p (by omega)] at hc
        cases hc
      | true =>
        rcases ((hr.writerNew hw).2.2 p).mp hc with hc | hc
        · rw [hd.unmade p (by omega)] at hc
          cases hc
        · have hlt := hd.below p (.inl hc)
          omega
    · have hlt := hd.below p (.inr ⟨a, ha⟩)
      omega

end Reloads

theorem updateBackends_addrs (addrs : List Addr) (r : RoundRobin) :
    (r.updateBackends addrs).backends.map Backend.addr = addrs := by
  unfold RoundRobin.updateBackends
  dsimp only
  rw [List.map_map]
  conv_rhs => rw [← List.map_id addrs]
  apply List.map_congr_left
  intro addr _
  show ((r.backends.reverse.find? fun b => b.addr = addr).getD ⟨addr, true⟩).addr = addr
  cases hf : r.backends.reverse.find? fun b => decide (b.addr = addr) with
  | none => rfl
  | some b => simpa using List.find?_some hf

theorem mem_newBreakers (old : BreakerMap) (cfg : BreakerConfig) (addrs : List Addr) (a : Addr) :
    a ∈ newBreakers old cfg addrs ↔ a ∈ addrs := by
  unfold newBreakers
  have hgen : ∀ (m : BreakerMap), a ∈ addrs.foldl
      (fun m addr => m.insert addr ((old.lookup addr).getD (.new cfg))) m ↔ a ∈ m ∨ a ∈ addrs := by
    induction addrs with
    | nil => simp
    | cons addr addrs ih =>
      intro m
      rw [List.foldl_cons, ih, AList.mem_insert, List.mem_cons]
      tauto
  rw [hgen]
  simp

theorem reload_balancer (cfg : DatabaseConfig) (cb : BreakerSettings) (g : DatabaseGroup)
    (h : PoolHeap) :
    (g.reload cfg cb h).1.balancer.backends.map Backend.addr = cfg.readerAddrs := by
  simp only [reload]
  split <;> exact updateBackends_addrs _ _

theorem reload_breakers (cfg : DatabaseConfig) (g : DatabaseGroup) (h : PoolHeap)
    (he : cb.enabled) :
    ∃ m, (g.reload cfg cb h).1.readerCBs = some m ∧ ∀ a, a ∈ m ↔ a ∈ cfg.readerAddrs := by
  simp only [reload, he, if_true]
  exact ⟨_, rfl, mem_newBreakers _ _ _⟩

theorem new_distinct (cfg : DatabaseConfig) (cb : BreakerSettings)
    (hu : ∀ p, h.next ≤ p → h.closed p = false) :
    (new cfg cb h).1.Distinct (new cfg cb h).2 := by
  have hb : ∀ a p, (bare cfg cb h.next).readerPools.lookup a = some p → p < h.alloc.next := by
    intro a p hp
    simp [bare] at hp
  have hf := (fills_nil (bare cfg cb h.next) true h.alloc).newPools hb cfg.readerAddrs
  have hfresh : ∀ a p, (new cfg cb h).1.readerPools.lookup a = some p →
      h.next < p ∧ p < (new cfg cb h).2.next := by
    intro a p hp
    rcases hf.source a p hp with ⟨hc, -⟩ | ⟨hge, hlt, -⟩
    · cases hc
    · exact ⟨hge, hlt⟩
  have hg : h.next < (new cfg cb h).2.next := hf.grows
  constructor
  · intro a a' p ha ha'
    exact hf.once a a' p ha ha' (hfresh a p ha).1
  · intro a p hp ha
    have hlt := (hfresh a p ha).1
    have hw : some h.next = some p := hp
    rw [Option.some.injEq] at hw
    omega
  · intro p hp
    rcases hp with hp | ⟨a, ha⟩
    · have hw : some h.next = some p := hp
      rw [Option.some.injEq] at hw
      omega
    · exact (hfresh a p ha).2
  · intro p hp
    have hc : (new cfg cb h).2.closed = h.closed := hf.closed
    rw [hc]
    exact hu p (by omega)

end DatabaseGroup

structure LiveGroup where
  group : DatabaseGroup
  heap : PoolHeap
  distinct : group.Distinct heap

namespace LiveGroup

open DatabaseGroup

def new (cfg : DatabaseConfig) (cb : BreakerSettings) (heap : PoolHeap)
    (hu : ∀ p, heap.next ≤ p → heap.closed p = false) : LiveGroup where
  group := (DatabaseGroup.new cfg cb heap).1
  heap := (DatabaseGroup.new cfg cb heap).2
  distinct := new_distinct cfg cb hu

def reload (cfg : DatabaseConfig) (cb : BreakerSettings) (G : LiveGroup) : LiveGroup where
  group := (G.group.reload cfg cb G.heap).1
  heap := (G.group.reload cfg cb G.heap).2
  distinct := by
    obtain ⟨h₁, hr⟩ := reload_reloads cfg cb G.distinct
    exact hr.distinct G.distinct

/-- The pools that the group lost are closed, those that it has are open, and reader pools, balancer
and breakers are there for the new readers. -/
structure Clean (cfg : DatabaseConfig) (cb : BreakerSettings) (G G' : LiveGroup) : Prop where
  closed : ∀ p, G.group.Has p → ¬ G'.group.Has p → G'.heap.closed p = true
  stays : ∀ p, G'.group.Has p → G.heap.closed p = false → G'.heap.closed p = false
  readers : ∀ addr, addr ∈ G'.group.readerPools ↔ addr ∈ cfg.readerAddrs
  balancer : G'.group.balancer.backends.map Backend.addr = cfg.readerAddrs
  breakers : cb.enabled = true →
    ∃ m, G'.group.readerCBs = some m ∧ ∀ addr, addr ∈ m ↔ addr ∈ cfg.readerAddrs

/-- A reload leaves no pool behind open if and only if no reader address stays under changed
credentials with an open pool. -/
theorem reload_clean_iff (cfg : DatabaseConfig) (cb : BreakerSettings) (G : LiveGroup) :
    Clean cfg cb G (G.reload cfg cb) ↔ ¬ Orphans cfg G.group G.heap := by
  obtain ⟨h₁, hr⟩ := reload_reloads cfg cb G.distinct
  constructor
  · intro hc
    exact (hr.closes_iff G.distinct).mp hc.closed
  · intro hno
    constructor
    · exact (hr.closes_iff G.distinct).mpr hno
    · intro p hp ho
      exact hr.keeps_open G.distinct hp ho
    · exact hr.keys
    · exact reload_balancer cfg cb G.group G.heap
    · exact reload_breakers cfg G.group G.heap

def oneReader (password : Bytes) : DatabaseConfig where
  writer := ⟨ascii "w", 5432⟩
  readers := [⟨ascii "r", 5432⟩]
  backend := ⟨ascii "u", password, ascii "d"⟩

def noBreakers : BreakerSettings := ⟨false, ⟨0, 0, 0, 0⟩⟩

def oneReaderGroup : LiveGroup :=
  new (oneReader (ascii "old")) noBreakers ⟨0, fun _ => false⟩ fun _ _ => rfl

theorem has_iff (g : DatabaseGroup) (p : Nat) :
    g.Has p ↔ p ∈ g.writerPool.toList ++ g.readerPools.entries.map fun e => e.2 := by
  rw [Has, List.mem_append, Option.mem_toList, List.mem_map]
  apply or_congr Iff.rfl
  constructor
  · rintro ⟨a, ha⟩
    exact ⟨⟨a, p⟩, AList.mem_lookup_iff.mp ha, rfl⟩
  · rintro ⟨⟨a, q⟩, he, rfl⟩
    exact ⟨a, AList.mem_lookup_iff.mpr he⟩

/-- The password changes: the pool of the reader is replaced and stays open. -/
theorem reload_leaves_pool_open :
    oneReaderGroup.group.Has 1 ∧
      ¬ (oneReaderGroup.reload (oneReader (ascii "new")) noBreakers).group.Has 1 ∧
      (oneReaderGroup.reload (oneReader (ascii "new")) noBreakers).heap.closed 1 = false := by
  rw [has_iff, has_iff]
  decide +kernel

end LiveGroup

end Pgmux
