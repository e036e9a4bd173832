import Mathlib.Data.List.AList
import Pgmux.Interleaving
import Pgmux.Redact
import Pgmux.RingBuffer

namespace Pgmux

open Interleaving RingBuffer

/-- `time.Duration`, in nanoseconds. -/
abbrev Duration := Int

def durationMs (d : Duration) : Float := Float.ofInt (d.tdiv 1000) / 1000.0

namespace Digest

structure PatternStats where
  count : Nat
  totalMs : Float
  minMs : Float
  maxMs : Float
  durs : List Duration
  idx : Nat
  maxSamps : Nat

def newPatternStats (maxSamples : Nat) : PatternStats := ⟨0, 0, -1, 0, [], 0, maxSamples⟩

/-- `none` is an index out of range. -/
def PatternStats.record (ps : PatternStats) (dur : Duration) : Option PatternStats :=
  let ms := durationMs dur
  let ps := { ps with
    count := ps.count + 1
    totalMs := ps.totalMs + ms
    minMs := if ps.minMs < 0 ∨ ms < ps.minMs then ms else ps.minMs
    maxMs := if ps.maxMs < ms then ms else ps.maxMs }
  if ps.durs.length < ps.maxSamps then some { ps with durs := ps.durs ++ [dur] }
  else if ps.idx < ps.durs.length then
    some { ps with durs := ps.durs.set ps.idx dur, idx := (ps.idx + 1) % ps.maxSamps }
  else none

structure Config where
  maxPatterns : Int
  samplesPerPattern : Int

def Config.patterns (cfg : Config) : Nat :=
  if cfg.maxPatterns ≤ 0 then 1000 else cfg.maxPatterns.toNat

def Config.samples (cfg : Config) : Nat :=
  if cfg.samplesPerPattern ≤ 0 then 1000 else cfg.samplesPerPattern.toNat

end Digest

namespace Mirror

def maxSamples : Nat := 1000

def maxPatterns : Nat := 10000

structure PatternStats where
  count : Nat
  primaryDurs : List Duration
  mirrorDurs : List Duration
  idx : Nat

/-- `none` is an index out of range. The argument is the pair of durations. -/
def PatternStats.record (ps : PatternStats) (durs : Duration × Duration) : Option PatternStats :=
  let ps := { ps with count := ps.count + 1 }
  if ps.primaryDurs.length < maxSamples then
    some { ps with
      primaryDurs := ps.primaryDurs ++ [durs.1], mirrorDurs := ps.mirrorDurs ++ [durs.2] }
  else if ps.idx < ps.primaryDurs.length ∧ ps.idx < ps.mirrorDurs.length then
    some { ps with
      primaryDurs := ps.primaryDurs.set ps.idx durs.1
      mirrorDurs := ps.mirrorDurs.set ps.idx durs.2
      idx := (ps.idx + 1) % maxSamples }
  else none

end Mirror

/-- The map of a collector, and the statistics objects made so far: each with the pattern that it
was made for and, which the source does not keep, all that was recorded in it. -/
structure Collector (σ α : Type) where
  patterns : AList fun _ : Bytes => Nat
  objects : List (Bytes × σ × List α)

namespace Collector

def new : Collector σ α := ⟨∅, []⟩

def owners (s : Collector σ α) : List Bytes := s.objects.map (·.1)

theorem owners_concat (m : AList fun _ : Bytes => Nat) (s : Collector σ α) (p : Bytes) (o : σ)
    (xs : List α) : owners ⟨m, s.objects ++ [(p, o, xs)]⟩ = s.owners ++ [p] :=
  List.map_append

end Collector

/-- Where a call of `Record` is: before it looks the pattern up, with the read lock or the second
time with the write lock; or with an object, before its `record`. -/
inductive RecordThread (α : Type) where
  | lookup (locked : Bool) (p : Bytes) (x : α)
  | update (p : Bytes) (i : Nat) (x : α)

section Record

variable {σ α : Type} (made : σ) (record : σ → α → Option σ) (maxPatterns : Nat)

inductive RecordAct (s : Collector σ α) : RecordThread α → Collector σ α →
    Option (RecordThread α) → Prop
  | found : s.patterns.lookup p = some i →
    RecordAct s (.lookup locked p x) s (some (.update p i x))
  | miss : s.patterns.lookup p = none →
    RecordAct s (.lookup false p x) s (some (.lookup true p x))
  | drop : s.patterns.lookup p = none → maxPatterns ≤ s.patterns.keys.length →
    RecordAct s (.lookup true p x) s none
  | create : s.patterns.lookup p = none → s.patterns.keys.length < maxPatterns →
    RecordAct s (.lookup true p x)
      ⟨s.patterns.insert p s.objects.length, s.objects ++ [(p, made, [])]⟩
      (some (.update p s.objects.length x))
  | update : s.objects[i]? = some (q, o, xs) → record o x = some o' →
    RecordAct s (.update p i x) { s with objects := s.objects.set i (q, o', xs ++ [x]) } none

/-- Concurrent calls of `Record`, of which `call` allows the pattern and the value. -/
def recorders (call : Bytes → α → Prop) : System (Collector σ α) (RecordThread α) where
  call t := ∃ p x, call p x ∧ t = .lookup false p x
  act := RecordAct made record maxPatterns

/-- The object that a call is about to update was made for its pattern. -/
def RecordThread.Refers (s : Collector σ α) : RecordThread α → Prop
  | .update p i _ => s.owners[i]? = some p
  | _ => True

variable (Holds : List α → σ → Prop)

structure Collector.Sound (s : Collector σ α) : Prop where
  keys : s.patterns.keys = s.owners.reverse
  refs : ∀ p i, s.patterns.lookup p = some i → s.owners[i]? = some p
  bound : s.patterns.keys.length ≤ maxPatterns
  holds : ∀ e ∈ s.objects, Holds e.2.2 e.2.1

variable {made record maxPatterns Holds} {s s' : Collector σ α}

theorem RecordThread.Refers.mono {t : RecordThread α} (h : t.Refers s)
    (hs : s.owners <+: s'.owners) : t.Refers s' := by
  cases t with
  | lookup => trivial
  | update p i x =>
    obtain ⟨more, hmore⟩ := hs
    change s'.owners[i]? = some p
    rw [← hmore, List.getElem?_append_left (List.getElem?_eq_some_iff.mp h).1]
    exact h

theorem Collector.Sound.create (h : s.Sound maxPatterns Holds) (hnew : Holds [] made)
    (hp : s.patterns.lookup p = none) (hroom : s.patterns.keys.length < maxPatterns) :
    Collector.Sound maxPatterns Holds (⟨s.patterns.insert p s.objects.length,
      s.objects ++ [(p, made, [])]⟩ : Collector σ α) := by
  have hkeys : (s.patterns.insert p s.objects.length).keys = p :: s.patterns.keys := by
    rw [AList.keys, AList.entries_insert_of_notMem (AList.lookup_eq_none.mp hp)]
    rfl
  have hlength : s.owners.length = s.objects.length := List.length_map _
  refine ⟨?_, ?_, ?_, ?_⟩
  · rw [hkeys, h.keys, Collector.owners_concat, List.reverse_concat]
  · intro q i hi
    rw [Collector.owners_concat]
    by_cases hq : q = p
    · rw [hq, AList.lookup_insert] at hi
      rw [← Option.some.inj hi, hq, ← hlength]
      exact List.getElem?_concat_length
    · rw [AList.lookup_insert_ne hq] at hi
      have hold := h.refs q i hi
      rw [List.getElem?_append_left (List.getElem?_eq_some_iff.mp hold).1]
      exact hold
  · rw [hkeys]
    exact hroom
  · intro e he
    rcases List.mem_append.mp he with he | he
    · exact h.holds e he
    · rw [List.mem_singleton.mp he]
      exact hnew

theorem Collector.Sound.act (h : s.Sound maxPatterns Holds) (hnew : Holds [] made)
    (hstep : ∀ xs o x, Holds xs o → ∃ o', record o x = some o' ∧ Holds (xs ++ [x]) o')
    (ha : RecordAct made record maxPatterns s t s' r) :
    s'.Sound maxPatterns Holds ∧ s.owners <+: s'.owners ∧ ∀ t' ∈ r, t'.Refers s' := by
  cases ha with
  | miss hp => exact ⟨h, List.prefix_rfl, fun t' ht => Option.some.inj ht ▸ trivial⟩
  | found hp => exact ⟨h, List.prefix_rfl, fun t' ht => Option.some.inj ht ▸ h.refs _ _ hp⟩
  | drop => exact ⟨h, List.prefix_rfl, fun t' ht => by cases ht⟩
  | create hp hroom =>
    have hs := h.create hnew hp hroom
    refine ⟨hs, ⟨[_], (Collector.owners_concat ..).symm⟩, fun t' ht => ?_⟩
    rw [← Option.some.inj ht]
    exact hs.refs _ _ (AList.lookup_insert _)
  | @update i q o xs x o' p ho hr =>
    have howners : (s.objects.set i (q, o', xs ++ [x])).map (·.1) = s.owners := by
      have hi : s.owners[i]? = some q := by
        rw [Collector.owners, List.getElem?_map, ho]
        rfl
      obtain ⟨hlt, hq⟩ := List.getElem?_eq_some_iff.mp hi
      rw [List.map_set]
      change s.owners.set i q = s.owners
      rw [← hq, List.set_getElem_self hlt]
    refine ⟨⟨h.keys.trans (congrArg _ howners.symm), ?_, h.bound, fun e he => ?_⟩, ?_, ?_⟩
    · intro p i hi
      exact (congrArg (·[i]?) howners).trans (h.refs p i hi)
    · rcases List.mem_or_eq_of_mem_set he with he | rfl
      · exact h.holds e he
      · obtain ⟨o₁, hr₁, ho₁⟩ := hstep xs o x (h.holds _ (List.mem_of_getElem? ho))
        rw [hr] at hr₁
        rwa [← Option.some.inj hr₁] at ho₁
    · exact howners ▸ List.prefix_rfl
    · exact fun t' ht => by cases ht

/-- Whatever calls run at the same time, a pattern has one object, each call updates the one of its
pattern, and an object holds what was recorded in it. -/
theorem recorders_sound
    (hstep : ∀ xs o x, Holds xs o → ∃ o', record o x = some o' ∧ Holds (xs ++ [x]) o')
    (hnew : Holds [] made)
    {s : State (Collector σ α) (RecordThread α)}
    (h : Reach (recorders made record maxPatterns call) (fun _ _ => True) ⟨.new, 0⟩ s) :
    s.shared.Sound maxPatterns Holds ∧ ∀ t ∈ s.threads, t.Refers s.shared := by
  apply h.invariant (I := fun s =>
    s.shared.Sound maxPatterns Holds ∧ ∀ t ∈ s.threads, t.Refers s.shared)
  · refine ⟨⟨rfl, fun p i hi => (by cases hi), Nat.zero_le _, fun e he => (by cases he)⟩, ?_⟩
    exact fun t ht => absurd ht (Multiset.notMem_zero t)
  · intro s s' hs hstep'
    cases hstep' with
    | call hc =>
      obtain ⟨p, x, -, rfl⟩ := hc
      refine ⟨hs.1, fun t ht => ?_⟩
      rcases Multiset.mem_cons.mp ht with rfl | ht
      · trivial
      · exact hs.2 t ht
    | @act x t x' r ts ha =>
      obtain ⟨hsound, howners, hnext⟩ := hs.1.act hnew hstep ha
      refine ⟨hsound, fun t' ht => ?_⟩
      rcases Multiset.mem_add.mp ht with ht | ht
      · cases r with
        | none => cases ht
        | some u => exact hnext t' (Multiset.mem_singleton.mp ht ▸ rfl)
      · exact (hs.2 t' (Multiset.mem_cons_of_mem ht)).mono howners

/-- Two calls for one pattern miss it, and the second one to get the write lock finds it. -/
theorem recorders_race (hroom : 0 < maxPatterns) (hx : call p x) (hy : call p y)
    (h₁ : record made y = some o₁) (h₂ : record o₁ x = some o₂) :
    Reach (recorders made record maxPatterns call) (fun _ _ => True) ⟨.new, 0⟩
      ⟨⟨(∅ : AList fun _ : Bytes => Nat).insert p 0, [(p, o₂, [y, x])]⟩, 0⟩ := by
  let created : Collector σ α := ⟨(∅ : AList fun _ : Bytes => Nat).insert p 0, [(p, made, [])]⟩
  have hfind : created.patterns.lookup p = some 0 := AList.lookup_insert _
  refine Reach.call (RecordThread.lookup false p x) ⟨_, _, hx, rfl⟩ ?_
  refine Reach.act (RecordThread.lookup false p x) 0 (RecordAct.miss rfl) trivial ?_
  refine Reach.call (RecordThread.lookup false p y) ⟨_, _, hy, rfl⟩ ?_
  refine Reach.act (RecordThread.lookup false p y) _ (RecordAct.miss rfl) trivial ?_
  change Reach _ _ ⟨_, RecordThread.lookup true p y ::ₘ {.lookup true p x}⟩ _
  refine Reach.act (RecordThread.lookup true p y) _ (RecordAct.create rfl hroom) trivial ?_
  change Reach _ _ ⟨created, {RecordThread.update p 0 y, .lookup true p x}⟩ _
  rw [Multiset.pair_comm]
  refine Reach.act (RecordThread.lookup true p x) _ (RecordAct.found hfind) trivial ?_
  change Reach _ _ ⟨_, {RecordThread.update p 0 x, .update p 0 y}⟩ _
  rw [Multiset.pair_comm]
  refine Reach.act (RecordThread.update p 0 y) _ (RecordAct.update rfl h₁) trivial ?_
  refine Reach.act (RecordThread.update p 0 x) 0 (RecordAct.update rfl h₂) trivial ?_
  exact .refl

theorem Collector.Sound.nodup (h : s.Sound maxPatterns Holds) : s.owners.Nodup := by
  rw [← List.nodup_reverse, ← h.keys]
  exact s.patterns.keys_nodup

end Record

namespace Digest

def PatternStats.Holds (m : Nat) (xs : List Duration) (ps : PatternStats) : Prop :=
  ps.maxSamps = m ∧ ps.count = xs.length ∧ IsWindow m xs ps.durs ps.idx

theorem PatternStats.Holds.record (m : Nat) (xs : List Duration) (ps : PatternStats)
    (dur : Duration) (h : ps.Holds m xs) :
    ∃ ps', ps.record dur = some ps' ∧ ps'.Holds m (xs ++ [dur]) := by
  obtain ⟨rfl, hcount, hw⟩ := h
  have hcount' : ps.count + 1 = (xs ++ [dur]).length := by
    rw [hcount, List.length_append, List.length_singleton]
  unfold PatternStats.record
  by_cases hroom : ps.durs.length < ps.maxSamps
  · exact ⟨_, if_pos hroom, rfl, hcount', hw.grow hroom dur⟩
  · have hfull := Nat.le_of_not_lt hroom
    have hin : ps.idx < ps.durs.length := Nat.lt_of_lt_of_le hw.inside hfull
    exact ⟨_, (if_neg hroom).trans (if_pos hin), rfl, hcount', hw.wrap hfull dur⟩

/-- Calls of `Digest.Record`. -/
def records [Redact.Normalizer] (cfg : Config) :
    System (Collector PatternStats Duration) (RecordThread Duration) :=
  recorders (newPatternStats cfg.samples) PatternStats.record cfg.patterns
    fun p _ => ∃ query, p = (Redact.Normalizer.normalize query).getD query

theorem Config.samples_pos (cfg : Config) : 0 < cfg.samples := by
  unfold Config.samples
  split
  · decide
  · omega

/-- In every state that an interleaving of calls reaches there are at most `MaxPatterns` patterns,
with one statistics object each; an object has the last durations recorded in it, as many as it has
room for, takes any further one without an access out of range, and is updated by calls for its own
pattern only. -/
theorem digest_sliding_window [Redact.Normalizer] (cfg : Config)
    {s : State (Collector PatternStats Duration) (RecordThread Duration)}
    (h : Reach (records cfg) (fun _ _ => True) ⟨.new, 0⟩ s) :
    s.shared.patterns.keys.length ≤ cfg.patterns ∧ s.shared.owners.Nodup ∧
      s.shared.patterns.keys = s.shared.owners.reverse ∧
      (∀ e ∈ s.shared.objects, e.2.1.count = e.2.2.length ∧ e.2.1.durs.length ≤ cfg.samples ∧
        e.2.1.durs.Perm (e.2.2.drop (e.2.2.length - cfg.samples)) ∧
        ∀ dur, (e.2.1.record dur).isSome) ∧
      ∀ p i dur, .update p i dur ∈ s.threads → s.shared.owners[i]? = some p := by
  have hstep := PatternStats.Holds.record cfg.samples
  obtain ⟨hs, ht⟩ := recorders_sound hstep ⟨rfl, rfl, .empty cfg.samples_pos⟩ h
  refine ⟨hs.bound, hs.nodup, hs.keys, fun e he => ?_, fun p i dur hu => ht _ hu⟩
  obtain ⟨-, hcount, hw⟩ := hs.holds e he
  refine ⟨hcount, hw.length ▸ Nat.min_le_right _ _, hw.perm, fun dur => ?_⟩
  obtain ⟨ps, hr, -⟩ := hstep _ _ dur (hs.holds e he)
  exact Option.isSome_of_eq_some hr

/-- With room for one sample, the object of two calls has the duration of the later one. -/
theorem digest_sliding_window_race : ∃ (_ : Redact.Normalizer)
    (s : State (Collector PatternStats Duration) (RecordThread Duration)),
    Reach (records ⟨1, 1⟩) (fun _ _ => True) ⟨.new, 0⟩ s ∧
      ∃ e ∈ s.shared.objects, e.2.2 = [6, 5] ∧ e.2.1.durs.Perm [5] := by
  let _ : Redact.Normalizer := ⟨some, some⟩
  have h : Reach (records ⟨1, 1⟩) (fun _ _ => True) ⟨.new, 0⟩ _ :=
    recorders_race (p := []) (x := 5) (y := 6) (by decide) ⟨[], rfl⟩ ⟨[], rfl⟩ rfl rfl
  have hw := ((digest_sliding_window ⟨1, 1⟩ h).2.2.2.1 _ (List.mem_singleton_self _)).2.2.1
  exact ⟨_, _, h, _, List.mem_singleton_self _, rfl, hw⟩

end Digest

namespace Mirror

/-- The two slices have the durations of one call at the same place. -/
def PatternStats.Holds (xs : List (Duration × Duration)) (ps : PatternStats) : Prop :=
  ps.count = xs.length ∧ ∃ buf, IsWindow maxSamples xs buf ps.idx ∧
    ps.primaryDurs = buf.map (·.1) ∧ ps.mirrorDurs = buf.map (·.2)

theorem PatternStats.Holds.record (xs : List (Duration × Duration)) (ps : PatternStats)
    (durs : Duration × Duration) (h : ps.Holds xs) :
    ∃ ps', ps.record durs = some ps' ∧ ps'.Holds (xs ++ [durs]) := by
  obtain ⟨hcount, buf, hw, hprimary, hmirror⟩ := h
  have hcount' : ps.count + 1 = (xs ++ [durs]).length := by
    rw [hcount, List.length_append, List.length_singleton]
  have hlen : ps.primaryDurs.length = buf.length := by rw [hprimary, List.length_map]
  have hlen' : ps.mirrorDurs.length = buf.length := by rw [hmirror, List.length_map]
  unfold PatternStats.record
  by_cases hroom : ps.primaryDurs.length < maxSamples
  · refine ⟨_, if_pos hroom, hcount', buf ++ [durs], hw.grow (hlen ▸ hroom) durs, ?_, ?_⟩
    · rw [hprimary, List.map_append]
      rfl
    · rw [hmirror, List.map_append]
      rfl
  · have hfull : maxSamples ≤ buf.length := hlen ▸ Nat.le_of_not_lt hroom
    have hin : ps.idx < buf.length := Nat.lt_of_lt_of_le hw.inside hfull
    have hboth : ps.idx < ps.primaryDurs.length ∧ ps.idx < ps.mirrorDurs.length :=
      ⟨hlen ▸ hin, hlen' ▸ hin⟩
    refine ⟨_, (if_neg hroom).trans (if_pos hboth), hcount', buf.set ps.idx durs,
      hw.wrap hfull durs, ?_, ?_⟩
    · rw [List.map_set, hprimary]
    · rw [List.map_set, hmirror]

/-- Calls of `statsCollector.record`. -/
def records : System (Collector PatternStats (Duration × Duration))
    (RecordThread (Duration × Duration)) :=
  recorders ⟨0, [], [], 0⟩ PatternStats.record maxPatterns fun _ _ => True

/-- As for the digest; the two durations of a call stay at the same position. -/
theorem mirror_sliding_window
    {s : State (Collector PatternStats (Duration × Duration)) (RecordThread (Duration × Duration))}
    (h : Reach records (fun _ _ => True) ⟨.new, 0⟩ s) :
    s.shared.patterns.keys.length ≤ maxPatterns ∧ s.shared.owners.Nodup ∧
      s.shared.patterns.keys = s.shared.owners.reverse ∧
      (∀ e ∈ s.shared.objects, e.2.1.count = e.2.2.length ∧
        e.2.1.primaryDurs.length = e.2.1.mirrorDurs.length ∧
        (e.2.1.primaryDurs.zip e.2.1.mirrorDurs).Perm (e.2.2.drop (e.2.2.length - maxSamples)) ∧
        ∀ durs, (e.2.1.record durs).isSome) ∧
      ∀ p i durs, .update p i durs ∈ s.threads → s.shared.owners[i]? = some p := by
  have hstep := PatternStats.Holds.record
  obtain ⟨hs, ht⟩ := recorders_sound hstep ⟨rfl, [], .empty (by decide), rfl, rfl⟩ h
  refine ⟨hs.bound, hs.nodup, hs.keys, fun e he => ?_, fun p i durs hu => ht _ hu⟩
  obtain ⟨hcount, buf, hw, hprimary, hmirror⟩ := hs.holds e he
  refine ⟨hcount, ?_, ?_, fun durs => ?_⟩
  · rw [hprimary, hmirror, List.length_map, List.length_map]
  · rw [hprimary, hmirror, ← List.zip_of_prod rfl rfl]
    exact hw.perm
  · obtain ⟨ps, hr, -⟩ := hstep _ _ durs (hs.holds e he)
    exact Option.isSome_of_eq_some hr

theorem mirror_sliding_window_race : ∃ s, Reach records (fun _ _ => True) ⟨.new, 0⟩ s ∧
    ∃ e ∈ s.shared.objects, e.2.2 = [(6, 8), (5, 7)] ∧
      (e.2.1.primaryDurs.zip e.2.1.mirrorDurs).Perm [(6, 8), (5, 7)] := by
  have h : Reach records (fun _ _ => True) ⟨.new, 0⟩ _ :=
    recorders_race (p := []) (x := (5, 7)) (y := (6, 8)) (by decide) trivial trivial rfl rfl
  have hw := ((mirror_sliding_window h).2.2.2.1 _ (List.mem_singleton_self _)).2.2.1
  exact ⟨_, h, _, List.mem_singleton_self _, rfl, hw⟩

end Mirror

end Pgmux
