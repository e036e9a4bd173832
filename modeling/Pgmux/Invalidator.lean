import Pgmux.Cache
import Pgmux.Trim

namespace Pgmux

def comma : UInt8 := ','.toUInt8

/-- The payload that `Publish` sends: the tables joined with commas. -/
def publish (tables : List Bytes) : Bytes := [comma].intercalate tables

/-- The calls that `handleMessage` makes on the cache. -/
def handleMessageCalls (payload : Bytes) : List CacheCall :=
  if payload = ascii "*" then [.flushAll]
  else ((payload.splitOn comma).map trimSpace).flatMap fun table =>
    if table = [] then [] else [.invalidateTable table]

def Cache.handleMessage (now : Nat) (payload : Bytes) (c : Cache) : Cache :=
  c.after ((handleMessageCalls payload).map fun o => (now, o))

/-- The message removes exactly the results that depend on a table of the list. -/
def ReachesCaches (tables : List Bytes) (payload : Bytes) : Prop :=
  ∀ (c : Cache) (now : Nat) (e : CacheEntry),
    e ∈ (c.handleMessage now payload).entries ↔ e ∈ c.entries ∧ ∀ t ∈ tables, t ∉ e.tables

/-- A name that survives: not empty, without a comma and without white space at its ends. -/
def Sendable (table : Bytes) : Prop := table ≠ [] ∧ comma ∉ table ∧ trimSpace table = table

theorem mem_handleMessage {c : Cache} (hstar : payload ≠ ascii "*") :
    e ∈ (c.handleMessage now payload).entries ↔
      e ∈ c.entries ∧ ∀ t ∈ (payload.splitOn comma).map trimSpace, t ≠ [] → t ∉ e.tables := by
  unfold Cache.handleMessage handleMessageCalls
  rw [if_neg hstar]
  generalize (payload.splitOn comma).map trimSpace = names
  induction names generalizing c with
  | nil => simp [Cache.after]
  | cons name names ih =>
    rw [List.flatMap_cons, List.map_append, List.forall_mem_cons]
    by_cases hname : name = []
    · rw [if_pos hname, List.map_nil, List.nil_append, ih]
      simp [hname]
    · rw [if_neg hname]
      have hstep : c.after (List.map (fun o => (now, o)) [.invalidateTable name] ++
          List.map (fun o => (now, o))
            (names.flatMap fun t => if t = [] then [] else [.invalidateTable t])) =
          (c.invalidateTable name).after (List.map (fun o => (now, o))
            (names.flatMap fun t => if t = [] then [] else [.invalidateTable t])) := rfl
      rw [hstep, ih, Cache.mem_invalidateTable]
      simp only [ne_eq, hname, not_false_eq_true, true_implies, and_assoc]

theorem publish_split (hne : tables ≠ []) (h : ∀ t ∈ tables, comma ∉ t) :
    (publish tables).splitOn comma = tables :=
  List.splitOn_intercalate comma h hne

theorem splitOn_no_sep {s piece : Bytes} (h : piece ∈ s.splitOn comma) : comma ∉ piece := by
  rw [List.splitOn_eq_splitOnP] at h
  induction s generalizing piece with
  | nil =>
    rw [List.splitOnP_nil, List.mem_singleton] at h
    rw [h]
    exact List.not_mem_nil
  | cons c s ih =>
    rw [List.splitOnP_cons_eq_if_modifyHead] at h
    split at h
    · rcases List.mem_cons.mp h with rfl | h
      · exact List.not_mem_nil
      · exact ih h
    · rename_i hc
      cases hs : s.splitOnP (· == comma) with
      | nil =>
        rw [hs] at h
        cases h
      | cons first rest =>
        rw [hs] at h ih
        rcases List.mem_cons.mp h with rfl | h
        · rw [List.mem_cons, not_or]
          refine ⟨?_, ih (.head _)⟩
          intro he
          exact hc (by rw [← he]; exact beq_self_eq_true comma)
        · exact ih (List.mem_cons_of_mem first h)

theorem publish_star (h : publish tables = ascii "*") : tables = [ascii "*"] := by
  unfold publish at h
  rcases tables with _ | ⟨t, _ | ⟨t', rest⟩⟩
  · cases h
  · rw [List.intercalate_singleton] at h
    rw [h]
  · have hmem : comma ∈ ascii "*" := by
      rw [← h, List.intercalate_cons_cons]
      simp
    exact absurd hmem (by decide)

theorem received_sendable {s : Bytes} (h : t ∈ (s.splitOn comma).map trimSpace) (hne : t ≠ []) :
    Sendable t := by
  obtain ⟨piece, hpiece, rfl⟩ := List.mem_map.mp h
  exact ⟨hne, fun hc => splitOn_no_sep hpiece (mem_trimSpace hc), trimSpace_trimSpace piece⟩

def oneEntry (tables : List Bytes) : Cache := (Cache.new 1 1 0).set 0 0 [] tables

theorem mem_oneEntry (tables : List Bytes) : ⟨0, [], tables, 1⟩ ∈ (oneEntry tables).entries := by
  have hfits : ¬ (Cache.new 1 1 0).tooLarge [] := by decide
  exact Cache.set_mem hfits

theorem delivers_of_sendable (h : ∀ t ∈ tables, Sendable t) (hstar : tables ≠ [ascii "*"]) :
    ReachesCaches tables (publish tables) := by
  intro c now e
  rw [mem_handleMessage fun hp => hstar (publish_star hp)]
  by_cases hne : tables = []
  · subst hne
    have hempty : trimSpace [] = [] := rfl
    simp [publish, hempty]
  · have htrim : tables.map trimSpace = tables := by
      rw [List.map_congr_left (g := id) fun t ht => (h t ht).2.2, List.map_id]
    rw [publish_split hne fun t ht => (h t ht).2.1, htrim]
    constructor
    · rintro ⟨he, hs⟩
      exact ⟨he, fun t ht => hs t ht (h t ht).1⟩
    · rintro ⟨he, hs⟩
      exact ⟨he, fun t ht _ => hs t ht⟩

/-- An invalidation message arrives as it was sent exactly if every name is sendable and the list
is not the one that looks like a flush. -/
theorem invalidation_delivered_iff (tables : List Bytes) :
    ReachesCaches tables (publish tables) ↔ (∀ t ∈ tables, Sendable t) ∧ tables ≠ [ascii "*"] := by
  constructor
  · intro h
    have hstar : tables ≠ [ascii "*"] := by
      rintro rfl
      -- a result that depends on no table is flushed too
      have hkept := (h (oneEntry []) 0 ⟨0, [], [], 1⟩).mpr ⟨mem_oneEntry [], by simp⟩
      cases hkept
    refine ⟨?_, hstar⟩
    intro t ht
    by_contra hbad
    have hkept : ⟨0, [], [t], 1⟩ ∈ ((oneEntry [t]).handleMessage 0 (publish tables)).entries := by
      rw [mem_handleMessage fun hp => hstar (publish_star hp)]
      refine ⟨mem_oneEntry [t], ?_⟩
      intro u hu hne hmem
      rw [List.mem_singleton.mp hmem] at hu hne
      exact hbad (received_sendable hu hne)
    exact ((h (oneEntry [t]) 0 ⟨0, [], [t], 1⟩).mp hkept).2 t ht (List.mem_singleton_self t)
  · rintro ⟨h, hstar⟩
    exact delivers_of_sendable h hstar

/-- The table of `DELETE FROM "a,b"` is not invalidated. -/
theorem comma_not_delivered : ¬ ReachesCaches [ascii "a,b"] (publish [ascii "a,b"]) := by
  intro h
  have hkept : ⟨0, [], [ascii "a,b"], 1⟩ ∈
      ((oneEntry [ascii "a,b"]).handleMessage 0 (publish [ascii "a,b"])).entries := by
    decide +kernel
  exact ((h (oneEntry [ascii "a,b"]) 0 _).mp hkept).2 (ascii "a,b") (by simp) (by simp)

end Pgmux
