import Mathlib.Data.List.Rotate
import Pgmux.Balancer

namespace Pgmux

/-- A reader of the balancer with its health flag and the WAL position that it has replayed. -/
structure Replica extends Backend where
  replayLSN : UInt64
  /-- A reader is configured as `host:port`. -/
  named : addr ≠ []

structure ReaderBalancer where
  backends : List Replica
  index : UInt64

namespace ReaderBalancer

variable {r : ReaderBalancer} {ok : Replica → Bool}

def toRoundRobin (r : ReaderBalancer) : RoundRobin := ⟨r.backends.map Replica.toBackend, r.index⟩

def ticked (r : ReaderBalancer) : ReaderBalancer := { r with index := r.index + 1 }

/-- The loop of `Next` and `NextWithLSN` with a number of probes left; `none` is an index out of
range. -/
def probe (ok : Replica → Bool) : Nat → ReaderBalancer → Option (Option Nat) × ReaderBalancer
  | 0, r => (some none, r)
  | k + 1, r =>
    let idx := r.toRoundRobin.position
    if idx < 0 then (none, r.ticked)
    else match r.backends[idx.toNat]? with
      | none => (none, r.ticked)
      | some b => if ok b then (some (some idx.toNat), r.ticked) else probe ok k r.ticked

def next (r : ReaderBalancer) : Option (Option Nat) × ReaderBalancer :=
  if r.backends = [] then (some none, r) else probe (fun b => b.healthy) r.backends.length r

def nextWithLSN (minLSN : UInt64) (r : ReaderBalancer) : Option (Option Nat) × ReaderBalancer :=
  if minLSN = 0 then r.next
  else if r.backends = [] then (some none, r)
  else probe (fun b => b.healthy && minLSN ≤ b.replayLSN) r.backends.length r

def address (r : ReaderBalancer) : Option Nat → Addr
  | none => []
  | some i => (r.backends[i]?.map fun b => b.addr).getD []

/-- The backend is healthy and, if a position is asked for, has replayed it. -/
def qualifies (minLSN : UInt64) (b : Replica) : Bool :=
  b.healthy && (minLSN = 0 || minLSN ≤ b.replayLSN)

/-- The first position, in cyclic order from the counter on, at which a backend passes a test. -/
def firstFrom (r : ReaderBalancer) (ok : Replica → Bool) : Option Nat :=
  ((List.range r.backends.length).rotate r.index.toNat).find? fun i => r.backends[i]?.any ok

/-- The counter is below `2^63` in each of the probes that are made. -/
def BelowDuring (ok : Replica → Bool) : Nat → ReaderBalancer → Prop
  | 0, _ => True
  | k + 1, r => r.index.toNat < 2 ^ 63 ∧
      ((r.backends[r.index.toNat % r.backends.length]?.any ok) = false → BelowDuring ok k r.ticked)

/-- The counter stays below `2^63` during a call of `NextWithLSN`. -/
def StaysBelow (minLSN : UInt64) (r : ReaderBalancer) : Prop :=
  BelowDuring (qualifies minLSN) r.backends.length r

theorem ticked_toNat (h : r.index.toNat < 2 ^ 63) : r.ticked.index.toNat = r.index.toNat + 1 := by
  show (r.index + 1).toNat = _
  rw [UInt64.toNat_add]
  exact Nat.mod_eq_of_lt (by simp; omega)

theorem position_toRoundRobin (h : r.index.toNat < 2 ^ 63) :
    r.toRoundRobin.position = ((r.index.toNat % r.backends.length : Nat) : Int) := by
  have hp := position_eq (r := r.toRoundRobin) h
  rwa [toRoundRobin, List.length_map] at hp

def probes (n c k : Nat) : List Nat := (List.range k).map fun d => (c + d) % n

theorem probes_succ (n c k : Nat) : probes n c (k + 1) = c % n :: probes n (c + 1) k := by
  rw [probes, List.range_succ_eq_map, List.map_cons, List.map_map]
  congr 1
  apply List.map_congr_left
  intro d _
  show (c + (d + 1)) % n = (c + 1 + d) % n
  congr 1
  omega

theorem probes_eq_rotate (n c : Nat) : probes n c n = (List.range n).rotate c := by
  apply List.ext_getElem
  · simp [probes]
  · intro d hd hd'
    simp [probes, List.getElem_rotate, Nat.add_comm]

/-- The loop chooses the first of its positions at which a backend passes the test. -/
theorem probe_eq (hn : r.backends ≠ []) (hbelow : BelowDuring ok k r) :
    (probe ok k r).1 = some
      ((probes r.backends.length r.index.toNat k).find? fun i => r.backends[i]?.any ok) := by
  induction k generalizing r with
  | zero => rfl
  | succ k ih =>
    obtain ⟨hlt, hrest⟩ := hbelow
    have hpos := position_toRoundRobin hlt
    have hi : r.index.toNat % r.backends.length < r.backends.length :=
      Nat.mod_lt _ (List.length_pos_iff.mpr hn)
    have hget := List.getElem?_eq_getElem hi
    rw [probes_succ, probe]
    simp only [hpos, Int.toNat_natCast, hget, if_neg (Int.not_lt.mpr (Int.natCast_nonneg _))]
    cases hok : ok (r.backends[r.index.toNat % r.backends.length]) with
    | true =>
      rw [if_pos rfl, List.find?_cons_of_pos]
      rw [hget, Option.any_some, hok]
    | false =>
      have hmiss : r.backends[r.index.toNat % r.backends.length]?.any ok = false := by
        rw [hget, Option.any_some, hok]
      rw [if_neg Bool.false_ne_true,
        List.find?_cons_of_neg (by rw [hmiss]; exact Bool.false_ne_true), ← ticked_toNat hlt]
      exact ih (r := r.ticked) hn (hrest hmiss)

theorem probe_length (hn : r.backends ≠ []) (hbelow : BelowDuring ok r.backends.length r) :
    (probe ok r.backends.length r).1 = some (r.firstFrom ok) := by
  rw [probe_eq hn hbelow, probes_eq_rotate]
  rfl

theorem qualifies_zero : qualifies 0 = fun b => b.healthy := by
  funext b
  simp [qualifies]

theorem qualifies_of_ne_zero (h : minLSN ≠ 0) :
    qualifies minLSN = fun b => b.healthy && minLSN ≤ b.replayLSN := by
  funext b
  simp [qualifies, h]

theorem qualifies_iff {b : Replica} :
    qualifies minLSN b ↔ b.healthy ∧ (0 < minLSN → minLSN ≤ b.replayLSN) := by
  rw [qualifies, Bool.and_eq_true, Bool.or_eq_true, decide_eq_true_iff, decide_eq_true_iff,
    or_iff_not_imp_left, UInt64.pos_iff_ne_zero]

theorem nextWithLSN_eq_probe (hn : r.backends ≠ []) :
    r.nextWithLSN minLSN = probe (qualifies minLSN) r.backends.length r := by
  by_cases h : minLSN = 0
  · rw [nextWithLSN, if_pos h, next, if_neg hn, h, qualifies_zero]
  · rw [nextWithLSN, if_neg h, if_neg hn, qualifies_of_ne_zero h]

theorem firstFrom_eq_none : r.firstFrom ok = none ↔ ∀ b ∈ r.backends, ok b = false := by
  unfold firstFrom
  rw [List.find?_eq_none]
  constructor
  · intro h b hb
    obtain ⟨i, hi, rfl⟩ := List.getElem_of_mem hb
    have hnot := h i (List.mem_rotate.mpr (List.mem_range.mpr hi))
    rw [List.getElem?_eq_getElem hi, Option.any_some] at hnot
    exact Bool.eq_false_iff.mpr hnot
  · intro h i hi
    have hlt := List.mem_range.mp (List.mem_rotate.mp hi)
    rw [List.getElem?_eq_getElem hlt, Option.any_some, h _ (List.getElem_mem hlt)]
    exact Bool.false_ne_true

theorem firstFrom_eq_some (h : r.firstFrom ok = some i) :
    ∃ b, r.backends[i]? = some b ∧ ok b := by
  have hok := List.find?_some h
  cases hb : r.backends[i]? with
  | none => rw [hb] at hok; cases hok
  | some b => exact ⟨b, rfl, by rwa [hb] at hok⟩

theorem address_firstFrom : r.address (r.firstFrom ok) = [] ↔ ∀ b ∈ r.backends, ok b = false := by
  rw [← firstFrom_eq_none]
  cases hi : r.firstFrom ok with
  | none => exact iff_of_true rfl rfl
  | some i =>
    obtain ⟨b, hb, -⟩ := firstFrom_eq_some hi
    apply iff_of_false
    · rw [address, hb]
      exact b.named
    · exact Option.some_ne_none i

def nexts : Nat → ReaderBalancer → List (Option (Option Nat))
  | 0, _ => []
  | m + 1, r => r.next.1 :: nexts m r.next.2

theorem probes_add (n c j m : Nat) : probes n c (j + m) = probes n c j ++ probes n (c + j) m := by
  rw [probes, List.range_add, List.map_append, List.map_map]
  congr 1
  apply List.map_congr_left
  intro d _
  show (c + (j + d)) % n = (c + j + d) % n
  rw [Nat.add_assoc]

theorem probes_wrap (n c m : Nat) : probes n (c + n) m = probes n c m := by
  apply List.map_congr_left
  intro d _
  show (c + n + d) % n = (c + d) % n
  rw [Nat.add_right_comm, Nat.add_mod_right]

theorem count_probes (hi : i < n) (c k : Nat) : (probes n c (k * n)).count i = k := by
  induction k with
  | zero => rw [Nat.zero_mul]; rfl
  | succ k ih =>
    have hblock : (probes n c n).count i = 1 := by
      rw [probes_eq_rotate, (List.rotate_perm _ _).count_eq]
      exact List.count_eq_one_of_mem List.nodup_range (List.mem_range.mpr hi)
    rw [Nat.succ_mul, Nat.add_comm, probes_add, probes_wrap, List.count_append, hblock, ih,
      Nat.add_comm]

theorem next_of_healthy (hn : r.backends ≠ []) (hall : ∀ b ∈ r.backends, b.healthy)
    (hlt : r.index.toNat < 2 ^ 63) :
    r.next = (some (some (r.index.toNat % r.backends.length)), r.ticked) := by
  have hi : r.index.toNat % r.backends.length < r.backends.length :=
    Nat.mod_lt _ (List.length_pos_iff.mpr hn)
  obtain ⟨k, hk⟩ := Nat.exists_eq_succ_of_ne_zero (List.length_pos_iff.mpr hn).ne'
  rw [next, if_neg hn, hk, probe]
  simp only [position_toRoundRobin hlt, Int.toNat_natCast, List.getElem?_eq_getElem hi,
    if_neg (Int.not_lt.mpr (Int.natCast_nonneg _)), hall _ (List.getElem_mem hi), if_true]
  rw [hk]

theorem nexts_of_healthy (hn : r.backends ≠ []) (hall : ∀ b ∈ r.backends, b.healthy)
    (hm : r.index.toNat + m ≤ 2 ^ 63) :
    nexts m r = (probes r.backends.length r.index.toNat m).map fun i => some (some i) := by
  induction m generalizing r with
  | zero => rfl
  | succ m ih =>
    have hlt : r.index.toNat < 2 ^ 63 := by omega
    have htick := ticked_toNat hlt
    rw [nexts, next_of_healthy hn hall hlt, probes_succ, List.map_cons, ← htick]
    congr 1
    apply ih (r := r.ticked) hn hall
    omega

/-- A call returns the first backend in cyclic order that qualifies, the empty address only if there
is none, and healthy backends take turns. -/
theorem selection_exact_and_fair (r : ReaderBalancer) (hn : r.backends ≠ []) :
    (∀ minLSN, StaysBelow minLSN r →
      (r.nextWithLSN minLSN).1 = some (r.firstFrom (qualifies minLSN)) ∧
      (r.address (r.firstFrom (qualifies minLSN)) = [] ↔
        ∀ b ∈ r.backends, ¬ (b.healthy = true ∧ (0 < minLSN → minLSN ≤ b.replayLSN)))) ∧
    (BelowDuring (fun b => b.healthy) r.backends.length r →
      r.next.1 = some (r.firstFrom fun b => b.healthy) ∧
      (r.address (r.firstFrom fun b => b.healthy) = [] ↔
        ∀ b ∈ r.backends, b.healthy = false)) ∧
    ((∀ b ∈ r.backends, b.healthy = true) →
      ∀ k, r.index.toNat + k * r.backends.length ≤ 2 ^ 63 →
      ∀ i < r.backends.length, (nexts (k * r.backends.length) r).count (some (some i)) = k) := by
  refine ⟨fun minLSN hbelow => ⟨?_, ?_⟩, fun hbelow => ⟨?_, address_firstFrom⟩, ?_⟩
  · rw [nextWithLSN_eq_probe hn]
    exact probe_length hn hbelow
  · rw [address_firstFrom]
    simp only [← qualifies_iff, Bool.not_eq_true]
  · rw [next, if_neg hn]
    exact probe_length hn hbelow
  · intro hall k hk i hi
    have hinj : Function.Injective fun i : Nat => some (some i) :=
      (Option.some_injective _).comp (Option.some_injective _)
    rw [nexts_of_healthy hn hall hk]
    exact (List.count_map_of_injective _ _ hinj i).trans (count_probes hi _ k)

def lagging : ReaderBalancer where
  backends := [⟨⟨ascii "a:1", true⟩, 10, by decide⟩, ⟨⟨ascii "b:1", true⟩, 30, by decide⟩]
  index := 0

theorem lagging_passed_over :
    (lagging.nextWithLSN 20).1 = some (some 1) ∧ lagging.next.1 = some (some 0) ∧
      (nexts 4 lagging).count (some (some 0)) = 2 := by
  have hbelow : StaysBelow 20 lagging := ⟨by decide, fun _ => ⟨by decide, fun _ => trivial⟩⟩
  obtain ⟨hlsn, hnext, hfair⟩ := selection_exact_and_fair lagging (List.cons_ne_nil _ _)
  refine ⟨(hlsn 20 hbelow).1, (hnext ⟨by decide, fun _ => ⟨by decide, fun _ => trivial⟩⟩).1, ?_⟩
  exact hfair (by simp [lagging]) 2 (by decide) 0 (by decide)

end ReaderBalancer

end Pgmux
