import Mathlib.Data.Nat.ModEq
import Pgmux.Interleaving
import Pgmux.Server

namespace Pgmux

open Interleaving

structure Backend where
  addr : Addr
  healthy : Bool
  deriving DecidableEq

structure RoundRobin where
  backends : List Backend
  index : UInt64

def RoundRobin.new (addrs : List Addr) : RoundRobin where
  backends := addrs.map fun addr => ⟨addr, true⟩
  index := 0

namespace RoundRobin

/-- `int(r.index.Add(1)-1) % n`, which is negative for a counter with its top bit set. -/
def position (r : RoundRobin) : Int := r.index.toBitVec.toInt.tmod r.backends.length

def ticked (r : RoundRobin) : RoundRobin := { r with index := r.index + 1 }

def setHealth (r : RoundRobin) (i : Nat) (healthy : Bool) : RoundRobin :=
  { r with backends := r.backends.modify i fun b => { b with healthy := healthy } }

end RoundRobin

/-- Where a call is. `visited` are the positions that a call of `Next` has loaded so far. -/
inductive Probe where
  /-- `Next` at the head of its loop. -/
  | probing (visited : List Nat)
  /-- `Next` between its ticket and the load of the health flag. -/
  | loading (visited : List Nat) (idx : Nat)
  | returned (addr : Addr)
  | panicked
  /-- `MarkUnhealthy` or the health check, about to write a flag. -/
  | storing (i : Nat) (healthy : Bool)
  deriving DecidableEq

inductive Probe.Act (r : RoundRobin) : Probe → RoundRobin → Option Probe → Prop
  | ticket : visited.length < r.backends.length → 0 ≤ r.position →
    Act r (.probing visited) r.ticked (some (.loading visited r.position.toNat))
  | panic : visited.length < r.backends.length → r.position < 0 →
    Act r (.probing visited) r.ticked (some .panicked)
  | exhausted : r.backends.length ≤ visited.length →
    Act r (.probing visited) r (some (.returned []))
  | healthy : r.backends[idx]? = some b → b.healthy = true →
    Act r (.loading visited idx) r (some (.returned b.addr))
  | unhealthy : r.backends[idx]? = some b → b.healthy = false →
    Act r (.loading visited idx) r (some (.probing (visited ++ [idx])))
  | stored : Act r (.storing i healthy) (r.setHealth i healthy) none

inductive Probe.Call : Probe → Prop
  | next : Call (.probing [])
  | store : Call (.storing i healthy)

def balancer : System RoundRobin Probe where
  call := Probe.Call
  act := Probe.Act

def Probe.Spares (k : Nat) (t : Probe) : Prop := ∀ healthy, t = .storing k healthy → healthy = true

/-- A ticket leads a call to a position that the call has not visited yet. -/
def Probe.Fresh (r : RoundRobin) : Probe → Prop
  | .probing visited => r.index.toNat < 2 ^ 63 ∧ r.index.toNat % r.backends.length ∉ visited
  | _ => True

theorem position_eq (h : r.index.toNat < 2 ^ 63) :
    RoundRobin.position r = ((r.index.toNat % r.backends.length : Nat) : Int) := by
  unfold RoundRobin.position
  have hi : r.index.toBitVec.toInt = (r.index.toNat : Int) := by
    rw [BitVec.toInt_eq_toNat_of_lt]
    · rfl
    · show 2 * r.index.toNat < 2 ^ 64
      omega
  rw [hi]
  rfl

theorem length_lt_of_not_mem {l : List Nat} (hd : l.Nodup) (hl : ∀ i ∈ l, i < n) (hk : k < n)
    (hn : k ∉ l) : l.length < n := by
  have hs : (k :: l).Subperm (List.range n) := by
    apply List.Nodup.subperm (List.nodup_cons.mpr ⟨hn, hd⟩)
    intro i hi
    rcases List.mem_cons.mp hi with rfl | hi
    · exact List.mem_range.mpr hk
    · exact List.mem_range.mpr (hl i hi)
  have hle := hs.length_le
  rw [List.length_cons, List.length_range] at hle
  exact hle

def Probe.Sound (addrs : List Addr) (k : Nat) : Probe → Prop
  | .probing visited => visited.Nodup ∧ (∀ i ∈ visited, i < addrs.length) ∧ k ∉ visited
  | .loading visited idx =>
    visited.Nodup ∧ (∀ i ∈ visited, i < addrs.length) ∧ k ∉ visited ∧ idx < addrs.length ∧
      idx ∉ visited
  | .returned addr => addr ∈ addrs
  | .panicked => False
  | .storing _ _ => True

def RoundRobin.Keeps (r : RoundRobin) (addrs : List Addr) (k : Nat) : Prop :=
  r.backends.map Backend.addr = addrs ∧ ∃ b, r.backends[k]? = some b ∧ b.healthy = true

theorem RoundRobin.Keeps.length {r : RoundRobin} (h : r.Keeps addrs k) :
    r.backends.length = addrs.length := by
  rw [← h.1, List.length_map]

theorem RoundRobin.Keeps.setHealth {r : RoundRobin} (h : r.Keeps addrs k)
    (hs : i = k → healthy = true) : (r.setHealth i healthy).Keeps addrs k := by
  obtain ⟨ha, b, hb, hh⟩ := h
  constructor
  · rw [← ha]
    simp only [RoundRobin.setHealth]
    apply List.ext_getElem?
    intro j
    simp only [List.getElem?_map, List.getElem?_modify]
    cases r.backends[j]? with
    | none => rfl
    | some b' =>
      simp only [Option.map_some]
      split <;> rfl
  · simp only [RoundRobin.setHealth, List.getElem?_modify, hb]
    by_cases hi : i = k
    · exact ⟨_, rfl, by simp [hi, hs hi]⟩
    · exact ⟨_, rfl, by simp [hi, hh]⟩

theorem Probe.Act.sound (h : Act r t r' x) (hr : r.Keeps addrs k) (ht : t.Sound addrs k)
    (hsp : t.Spares k) (hf : t.Fresh r) :
    r'.Keeps addrs k ∧ ∀ u, x = some u → u.Sound addrs k := by
  have hlen := hr.length
  cases h with
  | ticket hlt hpos =>
    obtain ⟨hd, hv, hk⟩ := ht
    refine ⟨hr, ?_⟩
    rintro u ⟨⟩
    have hp := position_eq hf.1
    rw [hlen] at hp hlt
    have hn : r.position.toNat = r.index.toNat % addrs.length := by rw [hp]; rfl
    refine ⟨hd, hv, hk, ?_, ?_⟩
    · rw [hn]
      exact Nat.mod_lt _ (by omega)
    · rw [hn, ← hlen]
      exact hf.2
  | panic hlt hneg =>
    rw [position_eq hf.1] at hneg
    omega
  | exhausted hle =>
    obtain ⟨hd, hv, hk⟩ := ht
    obtain ⟨b, hb, -⟩ := hr.2
    have hkn : k < addrs.length := hlen ▸ (List.getElem?_eq_some_iff.mp hb).1
    have hlt := length_lt_of_not_mem hd hv hkn hk
    omega
  | healthy hb hh =>
    refine ⟨hr, ?_⟩
    rintro u ⟨⟩
    show _ ∈ addrs
    rw [← hr.1]
    exact List.mem_map_of_mem (List.mem_of_getElem? hb)
  | @unhealthy idx b visited hb hh =>
    obtain ⟨hd, hv, hk, hi, hn⟩ := ht
    refine ⟨hr, ?_⟩
    rintro u ⟨⟩
    refine ⟨?_, ?_, ?_⟩
    · rw [List.nodup_append]
      refine ⟨hd, List.nodup_singleton _, ?_⟩
      rintro i hi' j hj rfl
      rw [List.mem_singleton.mp hj] at hi'
      exact hn hi'
    · intro i hi'
      rcases List.mem_append.mp hi' with hi' | hi'
      · exact hv i hi'
      · rw [List.mem_singleton.mp hi']
        exact hi
    · rw [List.mem_append, not_or, List.mem_singleton]
      refine ⟨hk, ?_⟩
      rintro rfl
      obtain ⟨b', hb', hh'⟩ := hr.2
      rw [hb, Option.some.injEq] at hb'
      rw [← hb', hh] at hh'
      cases hh'
  | stored =>
    refine ⟨hr.setHealth ?_, ?_⟩
    · rintro rfl
      exact hsp _ rfl
    · rintro u ⟨⟩

def Probe.rank (n : Nat) : Probe → Nat
  | .probing visited => 2 * (n - visited.length) + 1
  | .loading visited _ => 2 * (n - visited.length)
  | _ => 0

theorem Probe.Act.rank_lt (h : Act r t r' (some u)) (ht : t.Sound addrs k)
    (hr : r.Keeps addrs k) : u.rank addrs.length < t.rank addrs.length := by
  have hlen := hr.length
  cases h with
  | ticket hlt => simp only [Probe.rank]; omega
  | panic hlt => simp only [Probe.rank]; omega
  | exhausted hle => simp only [Probe.rank]; omega
  | @healthy idx b visited hb =>
    obtain ⟨hd, hv, hk, hi, hn⟩ := ht
    have hlt := length_lt_of_not_mem hd hv hi hn
    simp only [Probe.rank]
    omega
  | @unhealthy idx b visited hb =>
    obtain ⟨hd, hv, hk, hi, hn⟩ := ht
    have hlt := length_lt_of_not_mem hd hv hi hn
    simp only [Probe.rank, List.length_append, List.length_singleton]
    omega

theorem Probe.act_exists (ht : t.Sound addrs k) (hr : r.Keeps addrs k)
    (hn : ∀ addr, t ≠ .returned addr) : ∃ r' x, Act r t r' x := by
  cases t with
  | probing visited =>
    by_cases hlt : visited.length < r.backends.length
    · by_cases hp : 0 ≤ r.position
      · exact ⟨_, _, .ticket hlt hp⟩
      · exact ⟨_, _, .panic hlt (by omega)⟩
    · exact ⟨_, _, .exhausted (by omega)⟩
  | loading visited idx =>
    have hi : idx < r.backends.length := hr.length ▸ ht.2.2.2.1
    have hb := List.getElem?_eq_getElem hi
    cases hh : r.backends[idx].healthy with
    | true => exact ⟨_, _, .healthy hb hh⟩
    | false => exact ⟨_, _, .unhealthy hb hh⟩
  | returned addr => exact (hn addr rfl).elim
  | panicked => exact ht.elim
  | storing i healthy => exact ⟨_, _, .stored⟩

theorem reach_sound (hr : r.Keeps addrs k)
    (h : Reach balancer (fun s t => t.Spares k ∧ t.Fresh s.shared) ⟨r, 0⟩ s) :
    s.shared.Keeps addrs k ∧ ∀ t ∈ s.threads, t.Sound addrs k := by
  apply h.invariant (I := fun s => s.shared.Keeps addrs k ∧ ∀ t ∈ s.threads, t.Sound addrs k)
  · exact ⟨hr, fun t ht => (Multiset.notMem_zero t ht).elim⟩
  · rintro _ _ ⟨hx, hts⟩ hstep
    cases hstep with
    | call hc =>
      refine ⟨hx, fun u hu => ?_⟩
      rcases Multiset.mem_cons.mp hu with rfl | hu
      · cases hc with
        | next => exact ⟨List.nodup_nil, by simp, by simp⟩
        | store => trivial
      · exact hts u hu
    | @act _ t _ x ts ha hok =>
      obtain ⟨hx', hu'⟩ := ha.sound hx (hts t (Multiset.mem_cons_self t ts)) hok.1 hok.2
      refine ⟨hx', fun u hu => ?_⟩
      rcases Multiset.mem_add.mp hu with hu | hu
      · cases x with
        | none => exact (Multiset.notMem_zero u hu).elim
        | some v =>
          rw [Multiset.mem_singleton.mp hu]
          exact hu' v rfl
      · exact hts u (Multiset.mem_cons_of_mem hu)

theorem fresh_of_alone {r : RoundRobin} (start l : Nat) (hi : r.index.toNat = start + l)
    (hb : r.index.toNat < 2 ^ 63) (hl : l < r.backends.length) :
    (Probe.probing ((List.range l).map fun i => (start + i) % r.backends.length)).Fresh r := by
  refine ⟨hb, ?_⟩
  rw [List.mem_map, hi]
  rintro ⟨i, hm, he⟩
  have hil := List.mem_range.mp hm
  have hmod : (start + i) ≡ (start + l) [MOD r.backends.length] := he
  have hmod' : i ≡ l [MOD r.backends.length] := Nat.ModEq.add_left_cancel' start hmod
  have heq := Nat.ModEq.eq_of_lt_of_lt hmod' (by omega) hl
  omega

/-- In every interleaving whose tickets are fresh no call of `Next` returns an empty address or
panics, and each one returns after finitely many of its own operations. -/
theorem next_finds_healthy (hn : ∀ addr ∈ addrs, addr ≠ []) (hr : r.Keeps addrs k)
    (h : Reach balancer (fun s t => t.Spares k ∧ t.Fresh s.shared) ⟨r, 0⟩ s) :
    ∀ t ∈ s.threads, t ≠ .panicked ∧ (∀ addr, t = .returned addr → addr ≠ []) ∧
      ((∀ addr, t ≠ .returned addr) → ∃ r' x, balancer.act s.shared t r' x) ∧
      ∀ r' u, balancer.act s.shared t r' (some u) →
        u.rank addrs.length < t.rank addrs.length := by
  obtain ⟨hx, hts⟩ := reach_sound hr h
  intro t ht
  have hs := hts t ht
  refine ⟨?_, ?_, ?_, ?_⟩
  · rintro rfl
    exact hs
  · rintro addr rfl
    exact hn addr hs
  · exact Probe.act_exists hs hx
  · intro r' u ha
    exact ha.rank_lt hs hx

def halfHealthy : RoundRobin := ⟨[⟨ascii "a", false⟩, ⟨ascii "b", true⟩], 0⟩

theorem halfHealthy_keeps : halfHealthy.Keeps [ascii "a", ascii "b"] 1 :=
  ⟨rfl, _, rfl, rfl⟩

theorem spares_probing (k : Nat) (visited : List Nat) : (Probe.probing visited).Spares k := by
  intro healthy h
  cases h

theorem spares_loading (k : Nat) (visited : List Nat) (idx : Nat) :
    (Probe.loading visited idx).Spares k := by
  intro healthy h
  cases h

/-- A call takes its ticket while another one loads a flag, and both skip the first reader, which is
marked unhealthy once more in between. -/
theorem next_finds_healthy_second :
    ∃ s, Reach balancer (fun s t => t.Spares 1 ∧ t.Fresh s.shared) ⟨halfHealthy, 0⟩ s ∧
      s.threads = {.returned (ascii "b"), .returned (ascii "b")} ∧
      ∀ addr, .returned addr ∈ s.threads → addr ≠ [] := by
  have h : Reach balancer (fun s t => t.Spares 1 ∧ t.Fresh s.shared) ⟨halfHealthy, 0⟩
      ⟨halfHealthy.ticked.ticked.ticked.ticked,
        {.returned (ascii "b"), .returned (ascii "b")}⟩ := by
    apply Reach.call (Probe.probing []) Probe.Call.next
    apply Reach.act (Probe.probing []) 0 (Probe.Act.ticket (by decide) (by decide))
      ⟨spares_probing 1 _, fresh_of_alone 0 0 rfl (by decide) (by decide)⟩
    apply Reach.act (Probe.loading [] 0) 0 (Probe.Act.unhealthy rfl rfl)
      ⟨spares_loading 1 _ _, trivial⟩
    apply Reach.act (Probe.probing [0]) 0 (Probe.Act.ticket (by decide) (by decide))
      ⟨spares_probing 1 _, fresh_of_alone 0 1 rfl (by decide) (by decide)⟩
    apply Reach.call (Probe.probing []) Probe.Call.next
    apply Reach.act (Probe.probing []) {.loading [0] 1} (Probe.Act.ticket (by decide) (by decide))
      ⟨spares_probing 1 _, fresh_of_alone 2 0 rfl (by decide) (by decide)⟩
    apply Reach.call (Probe.storing 0 false) Probe.Call.store
    apply Reach.act (Probe.storing 0 false) _ Probe.Act.stored
      ⟨fun _ h => (by cases h), trivial⟩
    change Reach balancer _
      ⟨halfHealthy.ticked.ticked.ticked, {.loading [] 0, .loading [0] 1}⟩ _
    rw [Multiset.pair_comm]
    apply Reach.act (Probe.loading [0] 1) {.loading [] 0} (Probe.Act.healthy rfl rfl)
      ⟨spares_loading 1 _ _, trivial⟩
    change Reach balancer _
      ⟨halfHealthy.ticked.ticked.ticked, {.returned (ascii "b"), .loading [] 0}⟩ _
    rw [Multiset.pair_comm]
    apply Reach.act (Probe.loading [] 0) {.returned (ascii "b")} (Probe.Act.unhealthy rfl rfl)
      ⟨spares_loading 1 _ _, trivial⟩
    apply Reach.act (Probe.probing [0]) {.returned (ascii "b")}
      (Probe.Act.ticket (by decide) (by decide))
      ⟨spares_probing 1 _, fresh_of_alone 2 1 rfl (by decide) (by decide)⟩
    apply Reach.act (Probe.loading [0] 1) {.returned (ascii "b")} (Probe.Act.healthy rfl rfl)
      ⟨spares_loading 1 _ _, trivial⟩
    exact .refl
  refine ⟨_, h, rfl, ?_⟩
  intro addr ha
  exact (next_finds_healthy (by decide) halfHealthy_keeps h _ ha).2.1 addr rfl

/-- Two calls that take their tickets in turn: the first is led to the unhealthy reader twice. -/
theorem next_misses_healthy :
    ∃ s, Reach balancer (fun _ t => t.Spares 1) ⟨halfHealthy, 0⟩ s ∧
      Probe.returned [] ∈ s.threads := by
  refine ⟨⟨halfHealthy.ticked.ticked.ticked, Probe.returned [] ::ₘ {.loading [] 1}⟩, ?_,
    by simp⟩
  apply Reach.call (Probe.probing []) Probe.Call.next
  apply Reach.act (Probe.probing []) 0 (Probe.Act.ticket (by decide) (by decide))
    (spares_probing 1 _)
  apply Reach.call (Probe.probing []) Probe.Call.next
  apply Reach.act (Probe.probing []) _ (Probe.Act.ticket (by decide) (by decide))
    (spares_probing 1 _)
  change Reach balancer _
    ⟨halfHealthy.ticked.ticked, {.loading [] 1, .loading [] 0}⟩ _
  rw [Multiset.pair_comm]
  apply Reach.act (Probe.loading [] 0) {.loading [] 1} (Probe.Act.unhealthy rfl rfl)
    (spares_loading 1 _ _)
  apply Reach.act (Probe.probing [0]) {.loading [] 1} (Probe.Act.ticket (by decide) (by decide))
    (spares_probing 1 _)
  apply Reach.act (Probe.loading [0] 0) {.loading [] 1} (Probe.Act.unhealthy rfl rfl)
    (spares_loading 1 _ _)
  apply Reach.act (Probe.probing [0, 0]) {.loading [] 1} (Probe.Act.exhausted (by decide))
    (spares_probing 1 _)
  exact .refl

end Pgmux
