import Pgmux.CacheUsers
import Pgmux.WriteInvalidation

namespace Pgmux

open Interaction

/-- What a backend does for a user: it takes the snapshot that a query reads, or commits a write to
a table. -/
inductive BackendAct where
  | snapshot
  | commit (table : Bytes)

section StaleFill

variable [External] {I : Type} {c : Cache} {e : CacheEntry}
  {history before between since h₁ h₂ : List (Happening I BackendAct)}

/-- A write to the table was committed, and its user has invalidated the table since. -/
def Superseded (table : Bytes) (history : List (Happening I BackendAct)) : Prop :=
  ∃ j h₁ h₂ now h₃, history = h₁ ++ .mark j (.commit table) ::
    (h₂ ++ .op j now ⟨.invalidateTable table, ()⟩ :: h₃)

def filled (before : List (Happening I BackendAct)) (i : I)
    (between : List (Happening I BackendAct)) (now : Nat) (e : CacheEntry)
    (since : List (Happening I BackendAct)) : List (Happening I BackendAct) :=
  before ++ .mark i .snapshot ::
    (between ++ .op i now ⟨.cacheSet e.key e.result e.tables, ()⟩ :: since)

/-- A read of the user took its last snapshot after `before`, stored the entry after `between`, and
the entry has been in the cache since. -/
structure Fill (c : Cache) (before : List (Happening I BackendAct)) (i : I)
    (between : List (Happening I BackendAct)) (now : Nat) (e : CacheEntry)
    (since : List (Happening I BackendAct)) : Prop where
  last : .mark i .snapshot ∉ between
  remains : ∀ later, later <+: since →
    e ∈ (c.after (cacheCalls (filled before i between now e later))).entries

theorem cacheCalls_append (h₁ h₂ : List (Happening I BackendAct)) :
    cacheCalls (h₁ ++ h₂) = cacheCalls h₁ ++ cacheCalls h₂ := List.filterMap_append

theorem filled_append : filled before i between now e (h₁ ++ h₂) =
    filled before i between now e h₁ ++ h₂ := by
  simp [filled]

theorem Fill.not_invalidated (h : Fill c before i between now e since) (ht : table ∈ e.tables) :
    .op j now' ⟨.invalidateTable table, ()⟩ ∉ since := by
  intro hm
  obtain ⟨h₁, h₂, rfl⟩ := List.append_of_mem hm
  have he := h.remains (h₁ ++ [.op j now' ⟨.invalidateTable table, ()⟩]) ⟨h₂, by simp⟩
  rw [filled_append, cacheCalls_append, Cache.after, List.foldl_append] at he
  exact (Cache.mem_invalidateTable.mp he).2 ht

/-- No write to a table of a remaining entry was committed after its snapshot and invalidated,
exactly if none was before the entry was stored. -/
theorem fill_current_iff (h : Fill c before i between now e since) (ht : table ∈ e.tables) :
    ¬ Superseded table (between ++ since) ↔ ¬ Superseded table between := by
  rw [not_iff_not]
  constructor
  · rintro ⟨j, h₁, h₂, now', h₃, heq⟩
    rw [← List.cons_append, ← List.append_assoc] at heq
    rcases List.append_eq_append_iff.mp heq with ⟨t, -, hsince⟩ | ⟨t, rfl, hrest⟩
    · -- the invalidation comes after the store
      have hm : .op j now' ⟨.invalidateTable table, ()⟩ ∈ since := by
        rw [hsince]
        simp
      exact (h.not_invalidated ht hm).elim
    · cases t with
      | nil =>
        have hm : .op j now' ⟨.invalidateTable table, ()⟩ ∈ since := by
          rw [show since = _ from hrest.symm]
          exact .head _
        exact (h.not_invalidated ht hm).elim
      | cons x t =>
        cases hrest
        exact ⟨j, h₁, h₂, now', t, by simp⟩
  · rintro ⟨j, h₁, h₂, now', h₃, rfl⟩
    exact ⟨j, h₁, h₂, now', h₃ ++ since, by simp⟩

def ops (i : I) (tr : Trace Ans) : List (Happening I BackendAct) := tr.map (Happening.op i 0)

theorem cacheCalls_ops (h : UncachedTrace tr) : cacheCalls (ops i tr) = [] := by
  refine List.filterMap_eq_nil_iff.mpr fun x hx => ?_
  obtain ⟨e, he, rfl⟩ := List.mem_map.mp hx
  simp [Happening.cacheCall, h e he]

theorem fill_of_uncached (hb : UncachedTrace tr) (hlast : .mark i .snapshot ∉ between) :
    Fill (Cache.new 0 ttl 0) before i between 0 ⟨key, data, tables, 0 + ttl⟩ (ops i tr) := by
  refine ⟨hlast, ?_⟩
  intro later hl
  have hnil : cacheCalls later = [] := by
    obtain ⟨rest, hr⟩ := hl
    have h := cacheCalls_ops (i := i) hb
    rw [← hr, cacheCalls_append] at h
    exact (List.append_eq_nil_iff.mp h).1
  have hcalls : cacheCalls (filled before i between 0 ⟨key, data, tables, 0 + ttl⟩ later) =
      cacheCalls (before ++ .mark i .snapshot :: between) ++ [(0, .set key data tables)] := by
    rw [show later = [] ++ later from rfl, filled_append, cacheCalls_append, hnil, List.append_nil,
      filled, ← List.cons_append, ← List.append_assoc, cacheCalls_append]
    rfl
  rw [hcalls, Cache.after, List.foldl_append]
  change _ ∈ (((Cache.new 0 ttl 0).after
    (cacheCalls (before ++ .mark i .snapshot :: between))).set 0 key data tables).entries
  generalize hc : (Cache.new 0 ttl 0).after
    (cacheCalls (before ++ .mark i .snapshot :: between)) = c
  have hlimits : c.limits = (0, ttl, 0) := by
    rw [← hc]
    exact Cache.after_limits
  obtain rfl : c.ttl = ttl := congrArg (fun l => l.2.1) hlimits
  have hsize : c.maxSize = 0 := congrArg (fun l => l.2.2) hlimits
  exact Cache.set_mem (by simp [Cache.tooLarge, hsize])

def Awaits (tr : Trace Ans) : Prop :=
  ∃ t c m t', tr = t ++ ⟨.write c m, true⟩ :: t' ∧
    ∀ z, ⟨.read c, some z⟩ ∈ t' → z.type ≠ msgReadyForQuery

/-- The backends act for users that await a response; `f` is what the users have done before. -/
def AwaitedFrom [DecidableEq I] (f : I → Trace Ans) : List (Happening I BackendAct) → Prop
  | [] => True
  | .op i _ e :: history => AwaitedFrom (Function.update f i (f i ++ [e])) history
  | .mark i _ :: history => Awaits (f i) ∧ AwaitedFrom f history
  | _ :: history => AwaitedFrom f history

def Awaited [DecidableEq I] (history : List (Happening I BackendAct)) : Prop :=
  AwaitedFrom (fun _ => []) history

theorem awaitedFrom_ops [DecidableEq I] {f : I → Trace Ans} : AwaitedFrom f (ops i tr ++ history) ↔
    AwaitedFrom (Function.update f i (f i ++ tr)) history := by
  induction tr generalizing f with
  | nil => simp [ops]
  | cons e tr ih =>
    change AwaitedFrom (Function.update f i (f i ++ [e])) (ops i tr ++ history) ↔ _
    rw [ih]
    simp

theorem eventsOf_append [DecidableEq I] (i : I) (h₁ h₂ : List (Happening I BackendAct)) :
    eventsOf i (h₁ ++ h₂) = eventsOf i h₁ ++ eventsOf i h₂ := List.filterMap_append

theorem eventsOf_mark [DecidableEq I] (i j : I) (a : BackendAct)
    (history : List (Happening I BackendAct)) :
    eventsOf i (.mark j a :: history) = eventsOf i history := rfl

theorem eventsOf_op [DecidableEq I] (i : I) (e : Event) (history : List (Happening I BackendAct)) :
    eventsOf i (.op i now e :: history) = e :: eventsOf i history := by
  simp [eventsOf, Happening.event]

theorem eventsOf_op_other [DecidableEq I] {i j : I} (h : j ≠ i) (e : Event)
    (history : List (Happening I BackendAct)) :
    eventsOf i (.op j now e :: history) = eventsOf i history := by
  simp [eventsOf, Happening.event, h]

theorem eventsOf_ops [DecidableEq I] (i : I) (tr : Trace Ans) : eventsOf i (ops i tr) = tr := by
  simp [eventsOf, ops, Happening.event, Function.comp_def]

theorem eventsOf_other [DecidableEq I] {i j : I} (h : j ≠ i) (tr : Trace Ans) :
    eventsOf i (ops j tr) = [] := by
  simp [eventsOf, ops, Happening.event, h]

theorem mark_not_mem_ops : .mark j a ∉ ops i tr := by
  simp [ops]

def fillsTable (table : Bytes) : Event → Bool
  | ⟨.cacheSet _ _ tables, _⟩ => tables.contains table
  | _ => false

theorem eq_of_fillsTable {e : Event} (h : fillsTable table e) :
    ∃ key data tables, table ∈ tables ∧ e = ⟨.cacheSet key data tables, ()⟩ := by
  obtain ⟨o, x⟩ := e
  cases o <;> simp only [fillsTable, Bool.false_eq_true, List.contains_iff_mem] at h
  exact ⟨_, _, _, h, rfl⟩

def readsTable (m : Message) (table : Bytes) (tr : Trace Ans) : Bool :=
  match tr.dropWhile fun e => !fillsTable table e with
  | [] => false
  | _ :: post => post.all (fun e => e.1.cacheCall.isNone) &&
      !((tr.takeWhile fun e => !fillsTable table e).dropWhile fun e => !isSend m e).isEmpty

theorem readsTable_split (h : readsTable m table tr) :
    ∃ pre c mid key data tables post, tr = pre ++ ⟨.write c m, true⟩ ::
      (mid ++ ⟨.cacheSet key data tables, ()⟩ :: post) ∧ table ∈ tables ∧ UncachedTrace post := by
  unfold readsTable at h
  split at h
  · cases h
  · rename_i e post hd
    rw [Bool.and_eq_true, List.all_eq_true, Bool.not_eq_true'] at h
    obtain ⟨hpost, hsend⟩ := h
    obtain ⟨htr, he⟩ := split_of_dropWhile hd
    obtain ⟨key, data, tables, ht, rfl⟩ := eq_of_fillsTable he
    obtain ⟨w, mid, hmid⟩ := List.exists_cons_of_ne_nil (List.isEmpty_eq_false_iff.mp hsend)
    obtain ⟨hpre, hw⟩ := split_of_dropWhile hmid
    obtain ⟨c, rfl⟩ := eq_of_isSend hw
    generalize tr.takeWhile (fun e => !fillsTable table e) = front at htr hpre
    refine ⟨front.takeWhile fun e => !isSend m e, c, mid, key, data, tables, post, ?_, ht, ?_⟩
    · rw [← List.cons_append, ← List.append_assoc, ← hpre]
      exact htr
    · intro e he
      exact Option.isNone_iff_eq_none.mp (hpost e he)

def writesTable (m : Message) (table : Bytes) (tr : Trace Ans) : Bool :=
  (tr.dropWhile fun e => !isSend m e).tail.any fun e => e.1 = .invalidateTable table

theorem writesTable_split (h : writesTable m table tr) :
    ∃ pre c t₁ t₂, tr = pre ++ ⟨.write c m, true⟩ ::
      (t₁ ++ ⟨.invalidateTable table, ()⟩ :: t₂) := by
  unfold writesTable at h
  cases hd : tr.dropWhile fun e => !isSend m e with
  | nil => simp [hd] at h
  | cons w rest =>
    rw [hd, List.tail_cons, List.any_eq_true] at h
    obtain ⟨⟨o, x⟩, hm, ho⟩ := h
    obtain rfl : o = .invalidateTable table := by simpa using ho
    obtain ⟨t₁, t₂, rfl⟩ := List.append_of_mem hm
    obtain ⟨htr, hw⟩ := split_of_dropWhile hd
    obtain ⟨c, rfl⟩ := eq_of_isSend hw
    exact ⟨_, c, t₁, t₂, htr⟩

end StaleFill

def selectText : Bytes := ascii "SELECT * FROM t"

theorem select_run : letI := asciiExternal
    ∃ pre c mid key data tables post, UserRun (fun _ _ => True)
      (pre ++ ⟨.write c (queryMessage selectText), true⟩ ::
        (mid ++ ⟨.cacheSet key data tables, ()⟩ :: post)) ∧
      ascii "t" ∈ tables ∧ UncachedTrace post := by
  let _ := asciiExternal
  obtain ⟨session, rs, t, hr, hc⟩ := Script.playWith_check (n := 60)
    (s := { Script.simple [queryMessage selectText] [readyMessage] with
      reader := some (ascii "r") })
    (f := fun rs t => readsTable (queryMessage selectText) (ascii "t") (flat rs ++ t))
    (show (Script.playWith Script.cachingAnswer _ _).any _ = true by decide +kernel)
  obtain ⟨pre, c, mid, key, data, tables, post, htr, ht⟩ := readsTable_split hc
  exact ⟨pre, c, mid, key, data, tables, post, htr ▸ .session hr fun _ _ => trivial, ht⟩

theorem insert_run : letI := asciiExternal
    ∃ pre c t₁ t₂, UserRun (fun _ _ => True)
      (pre ++ ⟨.write c (queryMessage insertText), true⟩ ::
        (t₁ ++ ⟨.invalidateTable (ascii "t"), ()⟩ :: t₂)) := by
  let _ := asciiExternal
  obtain ⟨session, rs, t, hr, hc⟩ := Script.playWith_check (n := 60)
    (s := Script.simple [queryMessage insertText] [readyMessage])
    (f := fun rs t => writesTable (queryMessage insertText) (ascii "t") (flat rs ++ t))
    (show (Script.playWith Script.cachingAnswer _ _).any _ = true by decide +kernel)
  obtain ⟨pre, c, t₁, t₂, htr⟩ := writesTable_split hc
  exact ⟨pre, c, t₁, t₂, htr ▸ .session hr fun _ _ => trivial⟩

/-- A write is committed and invalidated, and only then a read takes its snapshot. -/
theorem fill_current_select : ∃ (_ : External)
    (before between since : List (Happening Bool BackendAct)) (e : CacheEntry),
      CacheUsers (fun _ _ => True) (filled before true between 0 e since) ∧
      Fill (Cache.new 0 60 0) before true between 0 e since ∧ ascii "t" ∈ e.tables ∧
      Superseded (ascii "t") before ∧ ¬ Superseded (ascii "t") (between ++ since) := by
  let _ := asciiExternal
  obtain ⟨pre, c, mid, key, data, tables, post, hread, ht, hpost⟩ := select_run
  obtain ⟨pre', c', t, t', hwrite⟩ := insert_run
  let wrote := ops false (pre' ++ [⟨.write c' (queryMessage insertText), true⟩])
  let invalidated := ops false (t ++ ⟨.invalidateTable (ascii "t"), ()⟩ :: t')
  have hfill : Fill (Cache.new 0 60 0) (wrote ++ .mark false (.commit (ascii "t")) ::
      (invalidated ++ ops true (pre ++ [⟨.write c (queryMessage selectText), true⟩]))) true
      (ops true mid) 0 ⟨key, data, tables, 0 + 60⟩ (ops true post) :=
    fill_of_uncached hpost mark_not_mem_ops
  refine ⟨_, _, _, _, _, ?_, hfill, ht, ?_, (fill_current_iff hfill ht).mpr ?_⟩
  · intro i
    cases i with
    | true =>
      refine ⟨_, hread, [], ?_⟩
      simp [filled, wrote, invalidated, eventsOf_append, eventsOf_mark, eventsOf_op, eventsOf_ops,
        eventsOf_other]
    | false =>
      refine ⟨_, hwrite, [], ?_⟩
      simp [filled, wrote, invalidated, eventsOf_append, eventsOf_mark, eventsOf_ops,
        eventsOf_op_other, eventsOf_other]
  · refine ⟨false, wrote, ops false t, 0, ops false t' ++
      ops true (pre ++ [⟨.write c (queryMessage selectText), true⟩]), ?_⟩
    simp [invalidated, ops]
  · rintro ⟨j, h₁, h₂, now, h₃, heq⟩
    have hm : .mark j (.commit (ascii "t")) ∈ ops true mid := by
      rw [heq]
      simp
    exact mark_not_mem_ops hm

/-- A write commits and invalidates the table after the snapshot of a read and before its response
is stored. -/
theorem stale_response_stored : ∃ (_ : External)
    (before between since : List (Happening Bool BackendAct)) (e : CacheEntry),
      CacheUsers (fun _ _ => True) (filled before true between 0 e since) ∧
      Awaited (filled before true between 0 e since) ∧
      Fill (Cache.new 0 60 0) before true between 0 e since ∧ ascii "t" ∈ e.tables ∧
      Superseded (ascii "t") (between ++ since) := by
  let _ := asciiExternal
  obtain ⟨pre, c, mid, key, data, tables, post, hread, ht, hpost⟩ := select_run
  obtain ⟨pre', c', t, t', hwrite⟩ := insert_run
  refine ⟨_, ops true (pre ++ [⟨.write c (queryMessage selectText), true⟩]),
    ops true mid ++ (ops false (pre' ++ [⟨.write c' (queryMessage insertText), true⟩]) ++
      .mark false (.commit (ascii "t")) ::
        ops false (t ++ ⟨.invalidateTable (ascii "t"), ()⟩ :: t')), ops true post,
    ⟨key, data, tables, 0 + 60⟩, ?_, ?_, fill_of_uncached hpost ?_, ht, ?_⟩
  · intro i
    cases i with
    | true =>
      refine ⟨_, hread, [], ?_⟩
      simp [filled, eventsOf_append, eventsOf_mark, eventsOf_op, eventsOf_ops, eventsOf_other]
    | false =>
      refine ⟨_, hwrite, [], ?_⟩
      simp [filled, eventsOf_append, eventsOf_mark, eventsOf_ops, eventsOf_op_other, eventsOf_other]
  · rw [Awaited, filled, awaitedFrom_ops]
    refine ⟨⟨pre, c, queryMessage selectText, [], by simp, by simp⟩, ?_⟩
    rw [List.append_assoc, awaitedFrom_ops, List.append_assoc, awaitedFrom_ops]
    refine ⟨⟨pre', c', queryMessage insertText, [], by simp, by simp⟩, ?_⟩
    refine awaitedFrom_ops.mpr ?_
    change AwaitedFrom _ (ops true post)
    rw [← List.append_nil (ops true post), awaitedFrom_ops]
    trivial
  · simp [mark_not_mem_ops]
  · refine ⟨false, ops true mid ++ ops false (pre' ++
      [⟨.write c' (queryMessage insertText), true⟩]), ops false t, 0,
      ops false t' ++ ops true post, ?_⟩
    simp [ops]

end Pgmux
