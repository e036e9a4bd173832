import Mathlib.Data.List.Nodup
import Pgmux.Bytes

namespace Pgmux

structure CacheEntry where
  key : UInt64
  result : Bytes
  tables : List Bytes
  expiresAt : Nat
  deriving DecidableEq

abbrev TableIndex := Bytes → List UInt64

def updateTableIndex (key : UInt64) : List Bytes → TableIndex → TableIndex
  | [], index => index
  | table :: tables, index =>
    updateTableIndex key tables fun t =>
      if t = table then (index t).insert key else index t

def removeTableIndex (key : UInt64) : List Bytes → TableIndex → TableIndex
  | [], index => index
  | table :: tables, index =>
    removeTableIndex key tables fun t =>
      if t = table then (index t).filter (· ≠ key) else index t

theorem mem_updateTableIndex {index : TableIndex} :
    k ∈ updateTableIndex key tables index t ↔ k ∈ index t ∨ (k = key ∧ t ∈ tables) := by
  induction tables generalizing index with
  | nil => simp [updateTableIndex]
  | cons table tables ih =>
    rw [updateTableIndex, ih, List.mem_cons]
    by_cases h : t = table
    · simp only [if_pos h, List.mem_insert_iff]
      tauto
    · simp only [if_neg h]
      tauto

theorem mem_removeTableIndex {index : TableIndex} :
    k ∈ removeTableIndex key tables index t ↔ k ∈ index t ∧ ¬ (k = key ∧ t ∈ tables) := by
  induction tables generalizing index with
  | nil => simp [removeTableIndex]
  | cons table tables ih =>
    rw [removeTableIndex, ih, List.mem_cons]
    by_cases h : t = table
    · simp only [if_pos h, List.mem_filter, decide_eq_true_eq]
      tauto
    · simp only [if_neg h]
      tauto

/-- The cache: `entries` is the eviction list, the entry used last in front, and `items` finds the
entries in it by key. The index lists each entry under its tables and nothing else. -/
structure Cache where
  maxEntries : Int
  ttl : Nat
  maxSize : Int
  entries : List CacheEntry
  tableIndex : TableIndex
  keys_nodup : (entries.map CacheEntry.key).Nodup
  indexed : ∀ t k, k ∈ tableIndex t ↔ ∃ e ∈ entries, e.key = k ∧ t ∈ e.tables

def Cache.new (maxEntries : Int) (ttl : Nat) (maxSize : Int) : Cache where
  maxEntries := maxEntries
  ttl := ttl
  maxSize := maxSize
  entries := []
  tableIndex _ := []
  keys_nodup := .nil
  indexed := by simp

namespace Cache

variable {c : Cache} {e e' : CacheEntry}

theorem key_inj (c : Cache) (h : e ∈ c.entries) (h' : e' ∈ c.entries) (hk : e.key = e'.key) :
    e = e' := List.inj_on_of_nodup_map c.keys_nodup h h' hk

def others (c : Cache) (key : UInt64) : List CacheEntry := c.entries.filter fun e => e.key ≠ key

@[simp] theorem mem_others {key : UInt64} : e ∈ c.others key ↔ e ∈ c.entries ∧ e.key ≠ key := by
  simp [others]

theorem others_nodup (c : Cache) (key : UInt64) :
    ((c.others key).map CacheEntry.key).Nodup :=
  c.keys_nodup.sublist (List.filter_sublist.map _)

def removeElement (c : Cache) (e : CacheEntry) (he : e ∈ c.entries) : Cache :=
  { c with
    entries := c.others e.key
    tableIndex := removeTableIndex e.key e.tables c.tableIndex
    keys_nodup := c.others_nodup e.key
    indexed := by
      intro t k
      rw [mem_removeTableIndex, c.indexed]
      constructor
      · rintro ⟨⟨e', h', rfl, ht⟩, hn⟩
        refine ⟨e', mem_others.mpr ⟨h', fun hk => hn ⟨hk, ?_⟩⟩, rfl, ht⟩
        rw [← c.key_inj h' he hk]
        exact ht
      · rintro ⟨e', h', rfl, ht⟩
        obtain ⟨h', hk⟩ := mem_others.mp h'
        exact ⟨⟨e', h', rfl, ht⟩, fun h => hk h.1⟩ }

def moveToFront (c : Cache) (e : CacheEntry) (he : e ∈ c.entries) : Cache :=
  { c with
    entries := e :: c.others e.key
    keys_nodup := by
      rw [List.map_cons, List.nodup_cons]
      exact ⟨by simp, c.others_nodup e.key⟩
    indexed := by
      intro t k
      rw [c.indexed]
      constructor
      · rintro ⟨e', h', hk, ht⟩
        by_cases hk' : e'.key = e.key
        · rw [c.key_inj h' he hk'] at hk ht
          exact ⟨e, .head _, hk, ht⟩
        · exact ⟨e', .tail _ (mem_others.mpr ⟨h', hk'⟩), hk, ht⟩
      · rintro ⟨e', h', hk, ht⟩
        rcases List.mem_cons.mp h' with rfl | h'
        · exact ⟨e', he, hk, ht⟩
        · exact ⟨e', (mem_others.mp h').1, hk, ht⟩ }

def pushFront (c : Cache) (e : CacheEntry) (he : ∀ e' ∈ c.entries, e'.key ≠ e.key) : Cache :=
  { c with
    entries := e :: c.entries
    tableIndex := updateTableIndex e.key e.tables c.tableIndex
    keys_nodup := by
      rw [List.map_cons, List.nodup_cons, List.mem_map]
      exact ⟨fun ⟨e', h', hk⟩ => he e' h' hk, c.keys_nodup⟩
    indexed := by
      intro t k
      rw [mem_updateTableIndex, c.indexed]
      constructor
      · rintro (⟨e', h', hk, ht⟩ | ⟨rfl, ht⟩)
        · exact ⟨e', .tail _ h', hk, ht⟩
        · exact ⟨e, .head _, rfl, ht⟩
      · rintro ⟨e', h', hk, ht⟩
        rcases List.mem_cons.mp h' with rfl | h'
        · exact .inr ⟨hk.symm, ht⟩
        · exact .inl ⟨e', h', hk, ht⟩ }

def item (c : Cache) (key : UInt64) : Option CacheEntry := c.entries.find? fun e => e.key = key

theorem item_mem {key : UInt64} (h : c.item key = some e) : e ∈ c.entries :=
  List.mem_of_find?_eq_some h

theorem item_key {key : UInt64} (h : c.item key = some e) : e.key = key := by
  simpa using List.find?_some h

theorem item_none {key : UInt64} (h : c.item key = none) : ∀ e ∈ c.entries, e.key ≠ key := by
  simpa [item] using h

/-- An entry is served up to its expiry; an expired one is removed. -/
def get (now : Nat) (key : UInt64) (c : Cache) : Option Bytes × Cache :=
  match h : c.item key with
  | none => (none, c)
  | some e =>
    if e.expiresAt < now then (none, c.removeElement e (item_mem h))
    else (some e.result, c.moveToFront e (item_mem h))

def evictOldest (c : Cache) : Cache :=
  match h : c.entries.getLast? with
  | none => c
  | some e => c.removeElement e (List.mem_of_getLast? h)

theorem mem_evictOldest (h : e ∈ c.evictOldest.entries) : e ∈ c.entries := by
  unfold evictOldest at h
  split at h
  · exact h
  · exact (mem_others.mp h).1

def makeRoom (c : Cache) : Cache :=
  if 0 < c.maxEntries ∧ c.maxEntries ≤ c.entries.length then c.evictOldest else c

theorem mem_makeRoom (h : e ∈ c.makeRoom.entries) : e ∈ c.entries := by
  unfold makeRoom at h
  split at h
  · exact mem_evictOldest h
  · exact h

def tooLarge (c : Cache) (result : Bytes) : Prop := 0 < c.maxSize ∧ c.maxSize < result.length

instance (c : Cache) (result : Bytes) : Decidable (c.tooLarge result) :=
  inferInstanceAs (Decidable (_ ∧ _))

def set (now : Nat) (key : UInt64) (result : Bytes) (tables : List Bytes) (c : Cache) : Cache :=
  if c.tooLarge result then c
  else match h : c.item key with
    | some e =>
      (c.removeElement e (item_mem h)).pushFront ⟨key, result, tables, now + c.ttl⟩
        fun _ h' => item_key h ▸ (mem_others.mp h').2
    | none =>
      c.makeRoom.pushFront ⟨key, result, tables, now + c.ttl⟩
        fun e' h' => item_none h e' (mem_makeRoom h')

def removeKey (c : Cache) (key : UInt64) : Cache :=
  match h : c.item key with
  | none => c
  | some e => c.removeElement e (item_mem h)

theorem mem_removeKey {key : UInt64} :
    e ∈ (c.removeKey key).entries ↔ e ∈ c.entries ∧ e.key ≠ key := by
  unfold removeKey
  split
  · rename_i h
    exact ⟨fun he => ⟨he, item_none h e he⟩, And.left⟩
  · rename_i e₀ h
    have hk := item_key h
    subst hk
    exact mem_others

def removeKeys (c : Cache) (keys : List UInt64) : Cache := keys.foldl removeKey c

theorem mem_removeKeys {keys : List UInt64} :
    e ∈ (c.removeKeys keys).entries ↔ e ∈ c.entries ∧ e.key ∉ keys := by
  unfold removeKeys
  induction keys generalizing c with
  | nil => simp
  | cons key keys ih =>
    rw [List.foldl_cons, ih, mem_removeKey, List.mem_cons]
    tauto

theorem mem_removeKeys_tableIndex {table : Bytes} :
    e ∈ (c.removeKeys (c.tableIndex table)).entries ↔ e ∈ c.entries ∧ table ∉ e.tables := by
  rw [mem_removeKeys, c.indexed]
  constructor
  · rintro ⟨he, hn⟩
    exact ⟨he, fun ht => hn ⟨e, he, rfl, ht⟩⟩
  · rintro ⟨he, hn⟩
    refine ⟨he, ?_⟩
    rintro ⟨e', h', hk, ht⟩
    rw [c.key_inj h' he hk] at ht
    exact hn ht

def invalidateTable (table : Bytes) (c : Cache) : Cache :=
  let c' := c.removeKeys (c.tableIndex table)
  { c' with
    tableIndex := fun t => if t = table then [] else c'.tableIndex t
    indexed := by
      intro t k
      split
      · rename_i ht
        subst ht
        constructor
        · intro h
          cases h
        · rintro ⟨e, he, -, ht⟩
          exact ((mem_removeKeys_tableIndex.mp he).2 ht).elim
      · exact c'.indexed t k }

def flushAll (c : Cache) : Cache := .new c.maxEntries c.ttl c.maxSize

theorem mem_get {key : UInt64} (h : e ∈ (c.get now key).2.entries) : e ∈ c.entries := by
  unfold get at h
  split at h
  · exact h
  · rename_i e₀ h₀
    split at h
    · exact (mem_others.mp h).1
    · rcases List.mem_cons.mp h with rfl | h
      · exact item_mem h₀
      · exact (mem_others.mp h).1

theorem mem_set {key : UInt64} (h : e ∈ (c.set now key result tables).entries) :
    e ∈ c.entries ∨ (e = ⟨key, result, tables, now + c.ttl⟩ ∧ ¬ c.tooLarge result) := by
  unfold set at h
  split at h
  · exact .inl h
  · rename_i hl
    split at h
    · rcases List.mem_cons.mp h with rfl | h
      · exact .inr ⟨rfl, hl⟩
      · exact .inl (mem_others.mp h).1
    · rcases List.mem_cons.mp h with rfl | h
      · exact .inr ⟨rfl, hl⟩
      · exact .inl (mem_makeRoom h)

theorem set_mem {key : UInt64} (h : ¬ c.tooLarge result) :
    ⟨key, result, tables, now + c.ttl⟩ ∈ (c.set now key result tables).entries := by
  unfold set
  rw [if_neg h]
  split <;> exact .head _

theorem mem_invalidateTable {table : Bytes} :
    e ∈ (c.invalidateTable table).entries ↔ e ∈ c.entries ∧ table ∉ e.tables :=
  mem_removeKeys_tableIndex

end Cache

/-- The calls on the cache, each atomic under its mutex. -/
inductive CacheCall where
  | get (key : UInt64)
  | set (key : UInt64) (result : Bytes) (tables : List Bytes)
  | invalidateTable (table : Bytes)
  | flushAll
  deriving DecidableEq

namespace Cache

variable {c : Cache} {e : CacheEntry}

def call (c : Cache) : Nat × CacheCall → Cache
  | (now, .get key) => (c.get now key).2
  | (now, .set key result tables) => c.set now key result tables
  | (_, .invalidateTable table) => c.invalidateTable table
  | (_, .flushAll) => c.flushAll

def after (c : Cache) (calls : List (Nat × CacheCall)) : Cache := calls.foldl call c

def Spares (e : CacheEntry) : CacheCall → Prop
  | .invalidateTable table => table ∉ e.tables
  | .flushAll => False
  | _ => True

theorem call_origin (h : e ∈ (c.call (now, o)).entries) :
    (e ∈ c.entries ∧ Spares e o) ∨ o = .set e.key e.result e.tables := by
  cases o with
  | get key => exact .inl ⟨mem_get h, trivial⟩
  | set key result tables =>
    rcases mem_set h with h | ⟨rfl, -⟩
    · exact .inl ⟨h, trivial⟩
    · exact .inr rfl
  | invalidateTable table => exact .inl (mem_invalidateTable.mp h)
  | flushAll => cases h

theorem origin (h : e ∈ (c.after calls).entries) :
    (e ∈ c.entries ∧ ∀ o ∈ calls, Spares e o.2) ∨
      ∃ pre now post, calls = pre ++ (now, .set e.key e.result e.tables) :: post ∧
        ∀ o ∈ post, Spares e o.2 := by
  induction calls generalizing c with
  | nil => exact .inl ⟨h, by simp⟩
  | cons o calls ih =>
    obtain ⟨now, o⟩ := o
    rcases ih h with ⟨he, hs⟩ | ⟨pre, now', post, rfl, hs⟩
    · rcases call_origin he with ⟨he, ho⟩ | rfl
      · refine .inl ⟨he, ?_⟩
        intro o' ho'
        rcases List.mem_cons.mp ho' with rfl | ho'
        · exact ho
        · exact hs o' ho'
      · exact .inr ⟨[], now, calls, rfl, hs⟩
    · exact .inr ⟨(now, o) :: pre, now', post, rfl, hs⟩

end Cache

end Pgmux
