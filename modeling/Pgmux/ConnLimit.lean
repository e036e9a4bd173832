import Mathlib.Data.List.AList
import Mathlib.Logic.Function.Basic
import Pgmux.Bytes
import Pgmux.Interleaving

namespace Pgmux

open Interleaving

structure LimitsConfig where
  enabled : Bool
  defaultUser : Int
  defaultDB : Int
  users : List (Bytes × Int)
  databases : List (Bytes × Int)

abbrev LimitMap := AList fun _ : Bytes => Int

/-- The limits that are set; those that are not positive stand for the default. -/
def limitMap (l : List (Bytes × Int)) : LimitMap :=
  l.foldl (fun m e => if 0 < e.2 then m.insert e.1 e.2 else m) ∅

structure ConnTracker where
  byUser : Bytes → Nat
  byDB : Bytes → Nat
  userLimits : LimitMap
  dbLimits : LimitMap
  defaultUser : Int
  defaultDB : Int

structure Client where
  user : Bytes
  db : Bytes
  deriving DecidableEq

def incr (m : Bytes → Nat) (k : Bytes) : Bytes → Nat := Function.update m k (m k + 1)

/-- The map after `m[k]--`, which is not done at zero. -/
def decr (m : Bytes → Nat) (k : Bytes) : Bytes → Nat :=
  if 0 < m k then Function.update m k (m k - 1) else m

theorem incr_apply (m : Bytes → Nat) (k x : Bytes) :
    incr m k x = m x + if k = x then 1 else 0 := by
  unfold incr
  by_cases h : k = x
  · subst h
    simp
  · simp [Function.update_of_ne (Ne.symm h), h]

theorem decr_apply (m : Bytes → Nat) (k x : Bytes) :
    decr m k x = m x - if k = x then 1 else 0 := by
  unfold decr
  by_cases h : k = x
  · subst h
    split
    · simp
    · simp
      omega
  · split
    · simp [Function.update_of_ne (Ne.symm h)]
    · simp

inductive LimitReached where
  | user (limit : Int)
  | db (limit : Int)

namespace ConnTracker

def new (cfg : LimitsConfig) : ConnTracker where
  byUser _ := 0
  byDB _ := 0
  userLimits := limitMap cfg.users
  dbLimits := limitMap cfg.databases
  defaultUser := cfg.defaultUser
  defaultDB := cfg.defaultDB

def userLimit (ct : ConnTracker) (user : Bytes) : Int :=
  (ct.userLimits.lookup user).getD ct.defaultUser

def dbLimit (ct : ConnTracker) (db : Bytes) : Int := (ct.dbLimits.lookup db).getD ct.defaultDB

def tryAcquire (c : Client) (ct : ConnTracker) : Option LimitReached × ConnTracker :=
  if 0 < ct.userLimit c.user ∧ ct.userLimit c.user ≤ ct.byUser c.user then
    (some (.user (ct.userLimit c.user)), ct)
  else if 0 < ct.dbLimit c.db ∧ ct.dbLimit c.db ≤ ct.byDB c.db then
    (some (.db (ct.dbLimit c.db)), ct)
  else (none, { ct with byUser := incr ct.byUser c.user, byDB := incr ct.byDB c.db })

def release (c : Client) (ct : ConnTracker) : ConnTracker :=
  { ct with byUser := decr ct.byUser c.user, byDB := decr ct.byDB c.db }

def updateLimits (cfg : LimitsConfig) (ct : ConnTracker) : ConnTracker :=
  { ct with
    defaultUser := cfg.defaultUser
    defaultDB := cfg.defaultDB
    userLimits := limitMap cfg.users
    dbLimits := limitMap cfg.databases }

end ConnTracker

/-- The trackers made so far and the atomic pointer to the one in force, if limits are enabled. -/
structure ConnServer where
  trackers : List ConnTracker
  pointer : Option Nat
  cfg : LimitsConfig

namespace ConnServer

def new (cfg : LimitsConfig) : ConnServer :=
  if cfg.enabled then ⟨[.new cfg], some 0, cfg⟩ else ⟨[], none, cfg⟩

/-- What `Reload` does with the tracker. Reloads exclude each other and nothing else stores the
pointer, so this is one section. -/
def reload (cfg : LimitsConfig) (s : ConnServer) : ConnServer :=
  if cfg.enabled then
    match s.pointer with
    | some i => ⟨s.trackers.modify i (·.updateLimits cfg), some i, cfg⟩
    | none => ⟨s.trackers ++ [.new cfg], some s.trackers.length, cfg⟩
  else ⟨s.trackers, none, cfg⟩

end ConnServer

inductive ConnThread where
  /-- Before the pointer is loaded. -/
  | connecting (c : Client)
  /-- With a tracker, before `TryAcquire`. -/
  | loaded (i : Nat) (c : Client)
  /-- The session runs; `admitted` by `TryAcquire`, or let in without limits. -/
  | live (c : Client) (admitted : Bool)
  /-- In the deferred function, before the pointer is loaded again. -/
  | leaving (c : Client)
  /-- With a tracker, before `Release`. -/
  | releasing (i : Nat) (c : Client)
  | reloading (cfg : LimitsConfig)

inductive ConnAct (s : ConnServer) : ConnThread → ConnServer → Option ConnThread → Prop
  | loadNil : s.pointer = none → ConnAct s (.connecting c) s (some (.live c false))
  | load : s.pointer = some i → ConnAct s (.connecting c) s (some (.loaded i c))
  | accept : s.trackers[i]? = some ct → ct.tryAcquire c = (none, ct') →
    ConnAct s (.loaded i c) { s with trackers := s.trackers.set i ct' } (some (.live c true))
  | reject : s.trackers[i]? = some ct → ct.tryAcquire c = (some r, ct') →
    ConnAct s (.loaded i c) { s with trackers := s.trackers.set i ct' } none
  | leave : ConnAct s (.live c true) s (some (.leaving c))
  | leaveFree : ConnAct s (.live c false) s none
  | unloadNil : s.pointer = none → ConnAct s (.leaving c) s none
  | unload : s.pointer = some i → ConnAct s (.leaving c) s (some (.releasing i c))
  | release : s.trackers[i]? = some ct →
    ConnAct s (.releasing i c) { s with trackers := s.trackers.set i (ct.release c) } none
  | reload : ConnAct s (.reloading cfg) (s.reload cfg) none

inductive ConnCall : ConnThread → Prop
  | connect : ConnCall (.connecting c)
  | reload : ConnCall (.reloading cfg)

def connSystem : System ConnServer ConnThread where
  call := ConnCall
  act := ConnAct

def ConnThread.session (p : Client → Bool) : ConnThread → Nat
  | .live c _ => if p c then 1 else 0
  | .leaving c => if p c then 1 else 0
  | .releasing _ c => if p c then 1 else 0
  | _ => 0

def ConnThread.admitted (p : Client → Bool) : ConnThread → Nat
  | .live c true => if p c then 1 else 0
  | .leaving c => if p c then 1 else 0
  | .releasing _ c => if p c then 1 else 0
  | _ => 0

def ConnThread.Outside : ConnThread → Prop
  | .connecting _ => True
  | .reloading _ => True
  | _ => False

def QuietEnable (s : State ConnServer ConnThread) (t : ConnThread) : Prop :=
  ∀ cfg, t = .reloading cfg → cfg.enabled = true → s.shared.pointer = none →
    ∀ u ∈ s.threads, u.Outside

def ConnThread.Uses (i : Nat) : ConnThread → Prop
  | .loaded j _ => j = i
  | .releasing j _ => j = i
  | .live _ admitted => admitted = true
  | _ => True

def ConnTracker.Enforces (ct : ConnTracker) (cfg : LimitsConfig) : Prop :=
  ct.userLimits = limitMap cfg.users ∧ ct.dbLimits = limitMap cfg.databases ∧
    ct.defaultUser = cfg.defaultUser ∧ ct.defaultDB = cfg.defaultDB

def ConnTracker.Counts (ct : ConnTracker) (ts : Multiset ConnThread) : Prop :=
  (∀ u, ct.byUser u = total (ConnThread.session fun c => c.user = u) ts) ∧
    ∀ d, ct.byDB d = total (ConnThread.session fun c => c.db = d) ts

def ConnInv (s : State ConnServer ConnThread) : Prop :=
  (s.shared.pointer.isSome = s.shared.cfg.enabled) ∧
  ∀ i, s.shared.pointer = some i → ∃ ct, s.shared.trackers[i]? = some ct ∧
    ct.Enforces s.shared.cfg ∧ ct.Counts s.threads ∧ ∀ t ∈ s.threads, t.Uses i

theorem tryAcquire_none {ct ct' : ConnTracker} (h : ct.tryAcquire c = (none, ct')) :
    (0 < ct.userLimit c.user → (ct.byUser c.user : Int) < ct.userLimit c.user) ∧
      (0 < ct.dbLimit c.db → (ct.byDB c.db : Int) < ct.dbLimit c.db) ∧
      ct' = { ct with byUser := incr ct.byUser c.user, byDB := incr ct.byDB c.db } := by
  unfold ConnTracker.tryAcquire at h
  split at h
  · cases h
  · rename_i hu
    split at h
    · cases h
    · rename_i hd
      cases h
      refine ⟨?_, ?_, rfl⟩
      · intro hp
        omega
      · intro hp
        omega

theorem tryAcquire_some {ct ct' : ConnTracker} (h : ct.tryAcquire c = (some r, ct')) :
    ct' = ct := by
  unfold ConnTracker.tryAcquire at h
  split at h
  · cases h
    rfl
  · split at h
    · cases h
      rfl
    · cases h

section Steps

variable {ct : ConnTracker} {ts : Multiset ConnThread}

theorem Counts.replace (h : ct.Counts (t ::ₘ ts))
    (hw : ∀ p, (r.elim 0 (ConnThread.session p)) = t.session p) : ct.Counts (next r + ts) := by
  obtain ⟨hu, hd⟩ := h
  constructor
  · intro u
    rw [hu, total_cons, total_next, hw]
  · intro d
    rw [hd, total_cons, total_next, hw]

theorem Counts.accept (h : ct.Counts (.loaded i c ::ₘ ts)) :
    ConnTracker.Counts { ct with byUser := incr ct.byUser c.user, byDB := incr ct.byDB c.db }
      (next (some (.live c true)) + ts) := by
  obtain ⟨hu, hd⟩ := h
  constructor
  · intro u
    dsimp only
    rw [total_next, incr_apply, hu, total_cons]
    simp [ConnThread.session, Nat.add_comm]
  · intro d
    dsimp only
    rw [total_next, incr_apply, hd, total_cons]
    simp [ConnThread.session, Nat.add_comm]

theorem Counts.release (h : ct.Counts (.releasing i c ::ₘ ts)) :
    (ct.release c).Counts (next none + ts) := by
  obtain ⟨hu, hd⟩ := h
  constructor
  · intro u
    dsimp only [ConnTracker.release]
    rw [total_next, decr_apply, hu, total_cons]
    simp [ConnThread.session]
  · intro d
    dsimp only [ConnTracker.release]
    rw [total_next, decr_apply, hd, total_cons]
    simp [ConnThread.session]

end Steps

theorem uses_of_mem {ts : Multiset ConnThread} (h : ∀ u ∈ t ::ₘ ts, u.Uses i)
    (hr : ∀ v, r = some v → v.Uses i) : ∀ u ∈ next r + ts, u.Uses i := by
  intro u hu
  rcases Multiset.mem_add.mp hu with hu | hu
  · cases r with
    | none => exact (Multiset.notMem_zero u hu).elim
    | some v =>
      rw [Multiset.mem_singleton.mp hu]
      exact hr v rfl
  · exact h u (Multiset.mem_cons_of_mem hu)

theorem ConnInv.idle (h : ConnInv ⟨x, t ::ₘ ts⟩)
    (hw : ∀ p, (r.elim 0 (ConnThread.session p)) = t.session p)
    (hr : ∀ i v, x.pointer = some i → r = some v → v.Uses i) : ConnInv ⟨x, next r + ts⟩ := by
  refine ⟨h.1, ?_⟩
  intro i hi
  obtain ⟨ct, hct, he, hc, hu⟩ := h.2 i hi
  exact ⟨ct, hct, he, Counts.replace hc hw, uses_of_mem hu fun v hv => hr i v hi hv⟩

theorem ConnInv.tracker (h : ConnInv ⟨x, t ::ₘ ts⟩) (hj : x.trackers[j]? = some ct)
    (ht : ∀ i, t.Uses i → j = i)
    (he : ct.Enforces x.cfg → ct'.Enforces x.cfg)
    (hc : ct.Counts (t ::ₘ ts) → ct'.Counts (next r + ts))
    (hr : ∀ i v, r = some v → v.Uses i) :
    ConnInv ⟨{ x with trackers := x.trackers.set j ct' }, next r + ts⟩ := by
  refine ⟨h.1, ?_⟩
  intro i hi
  obtain ⟨ct₀, hct, he₀, hc₀, hu⟩ := h.2 i hi
  have hji := ht i (hu t (Multiset.mem_cons_self t ts))
  subst hji
  dsimp only at hct
  rw [hj, Option.some.injEq] at hct
  subst hct
  refine ⟨ct', ?_, he he₀, hc hc₀, uses_of_mem hu fun v hv => hr j v hv⟩
  have hlt := (List.getElem?_eq_some_iff.mp hj).1
  simp [hlt]

theorem Counts.outside {ct : ConnTracker} (hu : ∀ u, ct.byUser u = 0) (hd : ∀ d, ct.byDB d = 0)
    (h : ∀ t ∈ ts, t.Outside) : ct.Counts ts := by
  have hz (p : Client → Bool) : total (ConnThread.session p) ts = 0 := by
    apply total_eq_zero
    intro t ht
    have ho := h t ht
    cases t with
    | connecting c => rfl
    | reloading cfg => rfl
    | loaded i c => exact ho.elim
    | live c a => exact ho.elim
    | leaving c => exact ho.elim
    | releasing i c => exact ho.elim
  constructor
  · intro u
    rw [hu, hz]
  · intro d
    rw [hd, hz]

theorem ConnInv.reload (h : ConnInv ⟨x, .reloading cfg ::ₘ ts⟩)
    (hq : QuietEnable ⟨x, .reloading cfg ::ₘ ts⟩ (.reloading cfg)) :
    ConnInv ⟨x.reload cfg, next none + ts⟩ := by
  have hts : next (none : Option ConnThread) + ts = ts := zero_add ts
  rw [hts]
  unfold ConnServer.reload
  cases hen : cfg.enabled with
  | false =>
    refine ⟨?_, ?_⟩
    · simp [hen]
    · intro i hi
      cases hi
  | true =>
    cases hp : x.pointer with
    | some i =>
      obtain ⟨ct, hct, -, hc, hu⟩ := h.2 i hp
      refine ⟨?_, ?_⟩
      · simp [hen]
      · rintro j ⟨⟩
        have hct' : (x.trackers.modify i (·.updateLimits cfg))[i]? =
            some (ct.updateLimits cfg) := by
          dsimp only at hct
          simp [hct]
        refine ⟨ct.updateLimits cfg, hct', ⟨rfl, rfl, rfl, rfl⟩, ?_, ?_⟩
        · have hr := Counts.replace (r := none) hc fun p => rfl
          rw [hts] at hr
          exact hr
        · intro u hm
          exact hu u (Multiset.mem_cons_of_mem hm)
    | none =>
      have hout : ∀ u ∈ ts, u.Outside := fun u hm =>
        hq cfg rfl hen hp u (Multiset.mem_cons_of_mem hm)
      refine ⟨?_, ?_⟩
      · simp [hen]
      · rintro j ⟨⟩
        refine ⟨.new cfg, by simp, ⟨rfl, rfl, rfl, rfl⟩, Counts.outside (fun u => rfl)
          (fun d => rfl) hout, ?_⟩
        intro u hm
        have ho := hout u hm
        cases u with
        | connecting c => trivial
        | reloading cfg => trivial
        | loaded i c => exact ho.elim
        | live c a => exact ho.elim
        | leaving c => exact ho.elim
        | releasing i c => exact ho.elim

theorem ConnInv.act (h : ConnInv ⟨x, t ::ₘ ts⟩) (ha : ConnAct x t x' r)
    (hq : QuietEnable ⟨x, t ::ₘ ts⟩ t) : ConnInv ⟨x', next r + ts⟩ := by
  cases ha with
  | loadNil hp =>
    refine ⟨h.1, ?_⟩
    intro i hi
    dsimp only at hi
    rw [hp] at hi
    cases hi
  | load hp =>
    apply h.idle (fun p => rfl)
    rintro i v hi ⟨⟩
    rw [hp, Option.some.injEq] at hi
    exact hi
  | accept hct hacq =>
    obtain ⟨-, -, rfl⟩ := tryAcquire_none hacq
    exact h.tracker hct (fun i hi => hi) id Counts.accept (by rintro i v ⟨⟩; rfl)
  | reject hct hacq =>
    have he := tryAcquire_some hacq
    subst he
    exact h.tracker hct (fun i hi => hi) id (fun hc => Counts.replace hc fun p => rfl)
      (by rintro i v ⟨⟩)
  | leave => exact h.idle (fun p => rfl) (by rintro i v hi ⟨⟩; trivial)
  | leaveFree =>
    refine ⟨h.1, ?_⟩
    intro i hi
    obtain ⟨ct, hct, he, hc, hu⟩ := h.2 i hi
    have hf := hu _ (Multiset.mem_cons_self _ ts)
    cases hf
  | unloadNil hp =>
    refine ⟨h.1, ?_⟩
    intro i hi
    dsimp only at hi
    rw [hp] at hi
    cases hi
  | unload hp =>
    apply h.idle (fun p => rfl)
    rintro i v hi ⟨⟩
    rw [hp, Option.some.injEq] at hi
    exact hi
  | release hct =>
    exact h.tracker hct (fun i hi => hi) id Counts.release (by rintro i v ⟨⟩)
  | reload => exact h.reload hq

theorem connInv_new (cfg : LimitsConfig) : ConnInv ⟨.new cfg, 0⟩ := by
  unfold ConnServer.new
  cases hen : cfg.enabled with
  | false =>
    refine ⟨?_, ?_⟩
    · simp [hen]
    · intro i hi
      cases hi
  | true =>
    refine ⟨?_, ?_⟩
    · simp [hen]
    · rintro i ⟨⟩
      refine ⟨.new cfg, rfl, ⟨rfl, rfl, rfl, rfl⟩, ⟨fun u => rfl, fun d => rfl⟩, ?_⟩
      intro t ht
      exact (Multiset.notMem_zero t ht).elim

theorem reach_connInv (h : Reach connSystem QuietEnable ⟨.new cfg, 0⟩ s) : ConnInv s := by
  apply h.invariant (I := ConnInv) (connInv_new cfg)
  intro s s' hi hs
  cases hs with
  | @call t x ts hc =>
    refine ⟨hi.1, ?_⟩
    intro i hp
    obtain ⟨ct, hct, he, ⟨hcu, hcd⟩, hu⟩ := hi.2 i hp
    have hz (p : Client → Bool) : t.session p = 0 := by
      cases hc <;> rfl
    refine ⟨ct, hct, he, ⟨?_, ?_⟩, ?_⟩
    · intro u
      rw [total_cons, hz, Nat.zero_add, hcu]
    · intro d
      rw [total_cons, hz, Nat.zero_add, hcd]
    · intro u hm
      rcases Multiset.mem_cons.mp hm with rfl | hm
      · cases hc <;> trivial
      · exact hu u hm
  | act ha hok => exact hi.act ha hok

/-- The limit that the configuration sets for a user; none if it is not positive. -/
def LimitsConfig.userLimit (cfg : LimitsConfig) (user : Bytes) : Int :=
  ((limitMap cfg.users).lookup user).getD cfg.defaultUser

def LimitsConfig.dbLimit (cfg : LimitsConfig) (db : Bytes) : Int :=
  ((limitMap cfg.databases).lookup db).getD cfg.defaultDB

theorem total_admitted {ts : Multiset ConnThread} (h : ∀ t ∈ ts, t.Uses i) (p : Client → Bool) :
    total (ConnThread.admitted p) ts = total (ConnThread.session p) ts := by
  unfold total
  congr 1
  apply Multiset.map_congr rfl
  intro t ht
  have hu := h t ht
  cases t with
  | live c a =>
    cases hu
    rfl
  | connecting c => rfl
  | loaded i c => rfl
  | leaving c => rfl
  | releasing i c => rfl
  | reloading cfg => rfl

/-- If limits are enabled again only when no client is connected: while they are enabled the
counters are the numbers of sessions, and a client is admitted only below the limits. -/
theorem limits_hold_across_reloads (h : Reach connSystem QuietEnable ⟨.new cfg, 0⟩ s)
    (hen : s.shared.cfg.enabled = true) :
    ∃ i ct, s.shared.pointer = some i ∧ s.shared.trackers[i]? = some ct ∧
      (∀ u, ct.byUser u = total (ConnThread.admitted fun c => c.user = u) s.threads) ∧
      (∀ d, ct.byDB d = total (ConnThread.admitted fun c => c.db = d) s.threads) ∧
      ∀ j c x', .loaded j c ∈ s.threads →
        connSystem.act s.shared (.loaded j c) x' (some (.live c true)) →
        (0 < s.shared.cfg.userLimit c.user →
          ((total (ConnThread.session fun c' => c'.user = c.user) s.threads : Nat) : Int) <
            s.shared.cfg.userLimit c.user) ∧
        (0 < s.shared.cfg.dbLimit c.db →
          ((total (ConnThread.session fun c' => c'.db = c.db) s.threads : Nat) : Int) <
            s.shared.cfg.dbLimit c.db) := by
  obtain ⟨hp, hi⟩ := reach_connInv h
  rw [hen] at hp
  obtain ⟨i, hp⟩ := Option.isSome_iff_exists.mp hp
  obtain ⟨ct, hct, ⟨heu, hed, hdu, hdd⟩, ⟨hcu, hcd⟩, hu⟩ := hi i hp
  have hul (u : Bytes) : ct.userLimit u = s.shared.cfg.userLimit u := by
    rw [ConnTracker.userLimit, heu, hdu]
    rfl
  have hdl (d : Bytes) : ct.dbLimit d = s.shared.cfg.dbLimit d := by
    rw [ConnTracker.dbLimit, hed, hdd]
    rfl
  refine ⟨i, ct, hp, hct, ?_, ?_, ?_⟩
  · intro u
    rw [hcu, total_admitted hu]
  · intro d
    rw [hcd, total_admitted hu]
  · intro j c x' hm ha
    have hj : j = i := hu _ hm
    subst hj
    cases ha with
    | accept hct' hacq =>
      rw [hct, Option.some.injEq] at hct'
      subst hct'
      obtain ⟨hlu, hld, -⟩ := tryAcquire_none hacq
      rw [← hcu, ← hcd, ← hul, ← hdl]
      exact ⟨hlu, hld⟩

def oneEach (enabled : Bool) : LimitsConfig := ⟨enabled, 1, 0, [], []⟩

def someone : Client := ⟨ascii "u", ascii "d"⟩

def oneAdmitted : ConnTracker := ((ConnTracker.new (oneEach true)).tryAcquire someone).2

def twoEach : LimitsConfig := ⟨true, 2, 0, [], []⟩

/-- Limits are disabled and enabled again before a client connects, and raised while it is
connected; a second client of the user is then admitted below the new limit. -/
theorem limits_hold_first_client :
    ∃ s x', Reach connSystem QuietEnable ⟨.new (oneEach true), 0⟩ s ∧ s.shared.pointer = some 1 ∧
      connSystem.act s.shared (.loaded 1 someone) x' (some (.live someone true)) ∧
      s.shared.cfg.userLimit someone.user = 2 ∧
      total (ConnThread.admitted fun c => c.user = someone.user) s.threads = 1 ∧
      ((total (ConnThread.session fun c => c.user = someone.user) s.threads : Nat) : Int) < 2 := by
  have hq (t : ConnThread) (x ts) (ht : ∀ cfg, t ≠ .reloading cfg) : QuietEnable ⟨x, ts⟩ t :=
    fun cfg hc => (ht cfg hc).elim
  have h : Reach connSystem QuietEnable ⟨.new (oneEach true), 0⟩
      ⟨⟨[.new (oneEach true), oneAdmitted.updateLimits twoEach], some 1, twoEach⟩,
        next (some (.loaded 1 someone)) + {.live someone true}⟩ := by
    apply Reach.call (ConnThread.reloading (oneEach false)) ConnCall.reload
    apply Reach.act (ConnThread.reloading (oneEach false)) 0 ConnAct.reload
    · intro cfg hc hen
      cases hc
      cases hen
    apply Reach.call (ConnThread.reloading (oneEach true)) ConnCall.reload
    apply Reach.act (ConnThread.reloading (oneEach true)) 0 ConnAct.reload
    · intro cfg _ _ _ u hu
      rw [Multiset.mem_singleton.mp hu]
      trivial
    apply Reach.call (ConnThread.connecting someone) ConnCall.connect
    apply Reach.act (ConnThread.connecting someone) 0 (ConnAct.load rfl)
      (hq _ _ _ fun cfg hc => by cases hc)
    apply Reach.act (ConnThread.loaded 1 someone) 0 (ConnAct.accept rfl rfl)
      (hq _ _ _ fun cfg hc => by cases hc)
    apply Reach.call (ConnThread.reloading twoEach) ConnCall.reload
    apply Reach.act (ConnThread.reloading twoEach) {.live someone true} ConnAct.reload
    · intro cfg _ _ hp
      cases hp
    apply Reach.call (ConnThread.connecting someone) ConnCall.connect
    apply Reach.act (ConnThread.connecting someone) {.live someone true} (ConnAct.load rfl)
      (hq _ _ _ fun cfg hc => by cases hc)
    exact .refl
  have hact := ConnAct.accept (s := ⟨[.new (oneEach true), oneAdmitted.updateLimits twoEach],
    some 1, twoEach⟩) (i := 1) (c := someone) rfl rfl
  obtain ⟨i, ct, -, -, -, -, hbelow⟩ := limits_hold_across_reloads h rfl
  have hmem := Multiset.mem_cons_self (ConnThread.loaded 1 someone) {.live someone true}
  exact ⟨_, _, h, rfl, hact, rfl, rfl, (hbelow 1 someone _ hmem hact).1 (by decide)⟩

/-- Limits are disabled and enabled again while a client is connected, and a second client of the
user is admitted over the limit of one. -/
theorem limits_forget_sessions :
    ∃ (s : State ConnServer ConnThread) (ct : ConnTracker),
      Reach connSystem (fun _ _ => True) ⟨.new (oneEach true), 0⟩ s ∧
      s.shared.cfg.enabled = true ∧ s.shared.pointer = some 1 ∧
      s.shared.trackers[1]? = some ct ∧ s.shared.cfg.userLimit (ascii "u") = 1 ∧
      ct.byUser (ascii "u") = 1 ∧
      total (ConnThread.admitted fun c => c.user = ascii "u") s.threads = 2 := by
  have h : Reach connSystem (fun _ _ => True) ⟨.new (oneEach true), 0⟩
      ⟨⟨[oneAdmitted, oneAdmitted], some 1, oneEach true⟩,
        next (some (.live someone true)) + {.live someone true}⟩ := by
    apply Reach.call (ConnThread.connecting someone) ConnCall.connect
    apply Reach.act (ConnThread.connecting someone) 0 (ConnAct.load rfl) trivial
    apply Reach.act (ConnThread.loaded 0 someone) 0 (ConnAct.accept rfl rfl) trivial
    apply Reach.call (ConnThread.reloading (oneEach false)) ConnCall.reload
    apply Reach.act (ConnThread.reloading (oneEach false)) {.live someone true} ConnAct.reload
      trivial
    apply Reach.call (ConnThread.reloading (oneEach true)) ConnCall.reload
    apply Reach.act (ConnThread.reloading (oneEach true)) {.live someone true} ConnAct.reload
      trivial
    apply Reach.call (ConnThread.connecting someone) ConnCall.connect
    apply Reach.act (ConnThread.connecting someone) {.live someone true} (ConnAct.load rfl) trivial
    apply Reach.act (ConnThread.loaded 1 someone) {.live someone true} (ConnAct.accept rfl rfl)
      trivial
    exact .refl
  exact ⟨_, oneAdmitted, h, rfl, rfl, rfl, rfl, rfl, rfl⟩

end Pgmux
