import Mathlib.Data.List.AList
import Pgmux.Cache
import Pgmux.Recency

namespace Pgmux

structure CacheConfig where
  maxEntries : Int
  ttl : Int
  maxSize : Int

/-- The entry that an element of the eviction list holds. -/
structure StoredEntry where
  key : UInt64
  result : Bytes
  tables : List Bytes
  expiresAt : Int
  deriving DecidableEq, Inhabited

abbrev KeySets := AList fun _ : Bytes => List UInt64

namespace KeySets

variable {index : KeySets}

def put (key : UInt64) (index : KeySets) (table : Bytes) : KeySets :=
  index.insert table (((index.lookup table).getD []).insert key)

def remove (key : UInt64) (index : KeySets) (table : Bytes) : KeySets :=
  match index.lookup table with
  | none => index
  | some keys =>
    let keys := keys.filter (· ≠ key)
    if keys = [] then index.erase table else index.insert table keys

def updateTableIndex (key : UInt64) (tables : List Bytes) (index : KeySets) : KeySets :=
  tables.foldl (put key) index

def removeTableIndex (key : UInt64) (tables : List Bytes) (index : KeySets) : KeySets :=
  tables.foldl (remove key) index

def Lists (index : KeySets) (table : Bytes) (key : UInt64) : Prop :=
  ∃ keys, index.lookup table = some keys ∧ key ∈ keys

def NoneEmpty (index : KeySets) : Prop := ∀ table keys, index.lookup table = some keys → keys ≠ []

theorem lists_getD : index.Lists t k ↔ k ∈ (index.lookup t).getD [] := by
  unfold Lists
  cases index.lookup t with
  | none => simp
  | some keys => simp

theorem lists_put : (index.put key table).Lists t k ↔
    index.Lists t k ∨ (k = key ∧ t = table) := by
  rw [lists_getD, lists_getD, put]
  by_cases h : t = table
  · subst h
    rw [AList.lookup_insert, Option.getD_some, List.mem_insert_iff]
    tauto
  · rw [AList.lookup_insert_ne h]
    tauto

theorem lists_remove : (index.remove key table).Lists t k ↔
    index.Lists t k ∧ ¬ (k = key ∧ t = table) := by
  unfold remove
  cases hl : index.lookup table with
  | none =>
    constructor
    · intro h
      refine ⟨h, ?_⟩
      rintro ⟨-, rfl⟩
      obtain ⟨keys, hk, -⟩ := h
      rw [hl] at hk
      cases hk
    · exact And.left
  | some keys =>
    dsimp only
    by_cases h : t = table
    · subst h
      have hold : index.Lists t k ↔ k ∈ keys := by rw [lists_getD, hl, Option.getD_some]
      have hmem : k ∈ keys.filter (· ≠ key) ↔ k ∈ keys ∧ k ≠ key := by simp
      rw [hold]
      split
      · rename_i he
        rw [he] at hmem
        rw [lists_getD, AList.lookup_erase, Option.getD_none]
        simp only [List.not_mem_nil, false_iff] at hmem ⊢
        tauto
      · rw [lists_getD, AList.lookup_insert, Option.getD_some, hmem]
        tauto
    · rw [lists_getD, lists_getD]
      split
      · rw [AList.lookup_erase_ne h]
        tauto
      · rw [AList.lookup_insert_ne h]
        tauto

theorem NoneEmpty.put (h : index.NoneEmpty) : (index.put key table).NoneEmpty := by
  intro t keys hk
  by_cases ht : t = table
  · subst ht
    rw [KeySets.put, AList.lookup_insert, Option.some.injEq] at hk
    rw [← hk]
    exact List.ne_nil_of_mem (List.mem_insert_self ..)
  · rw [KeySets.put, AList.lookup_insert_ne ht] at hk
    exact h t keys hk

theorem NoneEmpty.erase (h : index.NoneEmpty) (table : Bytes) :
    NoneEmpty (AList.erase table index) := by
  intro t keys hk
  by_cases ht : t = table
  · subst ht
    rw [AList.lookup_erase] at hk
    cases hk
  · rw [AList.lookup_erase_ne ht] at hk
    exact h t keys hk

theorem NoneEmpty.remove (h : index.NoneEmpty) : (index.remove key table).NoneEmpty := by
  unfold KeySets.remove
  split
  · exact h
  · dsimp only
    split
    · exact h.erase table
    · rename_i hne
      intro t keys' hk
      by_cases ht : t = table
      · subst ht
        rw [AList.lookup_insert, Option.some.injEq] at hk
        rw [← hk]
        exact hne
      · rw [AList.lookup_insert_ne ht] at hk
        exact h t keys' hk

theorem lists_updateTableIndex : (updateTableIndex key tables index).Lists t k ↔
    index.Lists t k ∨ (k = key ∧ t ∈ tables) := by
  unfold updateTableIndex
  induction tables generalizing index with
  | nil => simp
  | cons table tables ih =>
    rw [List.foldl_cons, ih, lists_put, List.mem_cons]
    tauto

theorem lists_removeTableIndex : (removeTableIndex key tables index).Lists t k ↔
    index.Lists t k ∧ ¬ (k = key ∧ t ∈ tables) := by
  unfold removeTableIndex
  induction tables generalizing index with
  | nil => simp
  | cons table tables ih =>
    rw [List.foldl_cons, ih, lists_remove, List.mem_cons]
    tauto

theorem NoneEmpty.updateTableIndex (h : index.NoneEmpty) (key : UInt64) (tables : List Bytes) :
    (updateTableIndex key tables index).NoneEmpty := by
  unfold KeySets.updateTableIndex
  induction tables generalizing index with
  | nil => exact h
  | cons table tables ih => exact ih h.put

theorem NoneEmpty.removeTableIndex (h : index.NoneEmpty) (key : UInt64) (tables : List Bytes) :
    (removeTableIndex key tables index).NoneEmpty := by
  unfold KeySets.removeTableIndex
  induction tables generalizing index with
  | nil => exact h
  | cons table tables ih => exact ih h.remove

end KeySets

/-- The cache with its three structures. A list element is its position among the elements pushed
so far, and `items` points to elements. -/
structure CacheStore where
  config : CacheConfig
  items : AList fun _ : UInt64 => Nat
  elements : List StoredEntry
  evictList : List Nat
  tableIndex : KeySets

namespace CacheStore

def new (config : CacheConfig) : CacheStore where
  config := config
  items := ∅
  elements := []
  evictList := []
  tableIndex := ∅

def value (c : CacheStore) (elem : Nat) : StoredEntry := c.elements.getD elem default

def len (c : CacheStore) : Nat := c.evictList.length

def moveToFront (c : CacheStore) (elem : Nat) : CacheStore :=
  { c with evictList := if elem ∈ c.evictList then elem :: c.evictList.erase elem else c.evictList }

def removeElement (c : CacheStore) (elem : Nat) : CacheStore :=
  let e := c.value elem
  { c with
    evictList := c.evictList.erase elem
    items := c.items.erase e.key
    tableIndex := KeySets.removeTableIndex e.key e.tables c.tableIndex }

def get (now : Int) (key : UInt64) (c : CacheStore) : Option Bytes × CacheStore :=
  match c.items.lookup key with
  | none => (none, c)
  | some elem =>
    let e := c.value elem
    if e.expiresAt < now then (none, c.removeElement elem)
    else (some e.result, c.moveToFront elem)

def evictOldest (c : CacheStore) : CacheStore :=
  match c.evictList.getLast? with
  | none => c
  | some elem => c.removeElement elem

def update (now : Int) (key : UInt64) (result : Bytes) (tables : List Bytes) (elem : Nat)
    (c : CacheStore) : CacheStore :=
  let c := c.moveToFront elem
  let e := c.value elem
  { c with
    elements := c.elements.set elem
      { e with result := result, tables := tables, expiresAt := now + c.config.ttl }
    tableIndex := KeySets.updateTableIndex key tables
      (KeySets.removeTableIndex key e.tables c.tableIndex) }

def add (now : Int) (key : UInt64) (result : Bytes) (tables : List Bytes) (c : CacheStore) :
    CacheStore :=
  { c with
    elements := c.elements ++ [⟨key, result, tables, now + c.config.ttl⟩]
    evictList := c.elements.length :: c.evictList
    items := c.items.insert key c.elements.length
    tableIndex := KeySets.updateTableIndex key tables c.tableIndex }

def set (now : Int) (key : UInt64) (result : Bytes) (tables : List Bytes) (c : CacheStore) :
    CacheStore :=
  if 0 < c.config.maxSize ∧ c.config.maxSize < result.length then c
  else match c.items.lookup key with
    | some elem => c.update now key result tables elem
    | none =>
      let c := if 0 < c.config.maxEntries ∧ c.config.maxEntries ≤ c.len then c.evictOldest else c
      c.add now key result tables

def removeKey (c : CacheStore) (key : UInt64) : CacheStore :=
  match c.items.lookup key with
  | some elem => c.removeElement elem
  | none => c

/-- `order` is the order in which the range over the key set of the table visits it. -/
def invalidateTable (order : List UInt64) (table : Bytes) (c : CacheStore) : CacheStore :=
  match c.tableIndex.lookup table with
  | none => c
  | some _ =>
    let c := order.foldl removeKey c
    { c with tableIndex := c.tableIndex.erase table }

def flushAll (c : CacheStore) : CacheStore :=
  { c with items := ∅, evictList := [], tableIndex := ∅ }

def call (order : List UInt64) (c : CacheStore) : Int × CacheCall → CacheStore
  | (now, .get key) => (c.get now key).2
  | (now, .set key result tables) => c.set now key result tables
  | (_, .invalidateTable table) => c.invalidateTable order table
  | (_, .flushAll) => c.flushAll

def Ranges (c : CacheStore) (order : List UInt64) (table : Bytes) : Prop :=
  ∀ keys, c.tableIndex.lookup table = some keys → order.Perm keys

inductive Reached (config : CacheConfig) : List (Int × CacheCall) → CacheStore → Prop
  | new : Reached config [] (new config)
  | call (o : Int × CacheCall) (order : List UInt64) : Reached config calls c →
    (∀ table, o.2 = .invalidateTable table → c.Ranges order table) →
    Reached config (calls ++ [o]) (c.call order o)

def entries (c : CacheStore) : List StoredEntry := c.evictList.map c.value

structure Agrees (c : CacheStore) : Prop where
  nodup : c.evictList.Nodup
  valid : ∀ p ∈ c.evictList, p < c.elements.length
  items_iff : ∀ k p, c.items.lookup k = some p ↔ p ∈ c.evictList ∧ (c.value p).key = k
  lists_iff : ∀ t k, c.tableIndex.Lists t k ↔ ∃ e ∈ c.entries, e.key = k ∧ t ∈ e.tables
  noneEmpty : c.tableIndex.NoneEmpty

variable {c : CacheStore}

theorem agrees_new (config : CacheConfig) : (new config).Agrees where
  nodup := List.nodup_nil
  valid := by
    intro p hp
    cases hp
  items_iff := by simp [new]
  lists_iff := by simp [new, KeySets.Lists, entries]
  noneEmpty := by simp [new, KeySets.NoneEmpty]

theorem Agrees.inj (h : c.Agrees) (hp : p ∈ c.evictList) (hq : q ∈ c.evictList)
    (hk : (c.value p).key = (c.value q).key) : p = q := by
  have h₁ := (h.items_iff _ p).mpr ⟨hp, rfl⟩
  have h₂ := (h.items_iff _ q).mpr ⟨hq, rfl⟩
  rw [hk, h₂] at h₁
  exact (Option.some.inj h₁).symm

def others (c : CacheStore) (key : UInt64) : List StoredEntry :=
  c.entries.filter fun e => e.key ≠ key

theorem Agrees.map_erase (h : c.Agrees) (hp : p ∈ c.evictList) :
    (c.evictList.erase p).map c.value = c.others (c.value p).key := by
  rw [h.nodup.erase_eq_filter, others, entries, List.filter_map]
  congr 1
  apply List.filter_congr
  intro q hq
  by_cases hqp : q = p
  · simp [hqp]
  · have hk : (c.value q).key ≠ (c.value p).key := fun hk => hqp (h.inj hq hp hk)
    simp [hqp, hk]

theorem removeElement_entries (h : c.Agrees) (hp : p ∈ c.evictList) :
    (c.removeElement p).entries = c.others (c.value p).key := h.map_erase hp

theorem moveToFront_entries (h : c.Agrees) (hp : p ∈ c.evictList) :
    (c.moveToFront p).entries = c.value p :: c.others (c.value p).key := by
  rw [← h.map_erase hp, entries, moveToFront]
  simp only [if_pos hp]
  rfl

theorem mem_others {key : UInt64} : e ∈ c.others key ↔ e ∈ c.entries ∧ e.key ≠ key := by
  simp [others]

theorem Agrees.entry_inj (h : c.Agrees) (he : e ∈ c.entries) (he' : e' ∈ c.entries)
    (hk : e.key = e'.key) : e = e' := by
  obtain ⟨p, hp, rfl⟩ := List.mem_map.mp he
  obtain ⟨q, hq, rfl⟩ := List.mem_map.mp he'
  rw [h.inj hp hq hk]

theorem Agrees.removeElement (h : c.Agrees) (hp : p ∈ c.evictList) :
    (c.removeElement p).Agrees where
  nodup := h.nodup.erase p
  valid := fun q hq => h.valid q (List.mem_of_mem_erase hq)
  items_iff := by
    intro k q
    show (c.items.erase (c.value p).key).lookup k = some q ↔
      q ∈ c.evictList.erase p ∧ (c.value q).key = k
    rw [h.nodup.mem_erase_iff]
    by_cases hk : k = (c.value p).key
    · subst hk
      rw [AList.lookup_erase]
      constructor
      · intro hn
        cases hn
      · rintro ⟨⟨hne, hq⟩, hk⟩
        exact (hne (h.inj hq hp hk)).elim
    · rw [AList.lookup_erase_ne hk, h.items_iff]
      constructor
      · rintro ⟨hq, rfl⟩
        refine ⟨⟨?_, hq⟩, rfl⟩
        rintro rfl
        exact hk rfl
      · rintro ⟨⟨-, hq⟩, hk⟩
        exact ⟨hq, hk⟩
  lists_iff := by
    intro t k
    rw [removeElement_entries h hp]
    show (KeySets.removeTableIndex (c.value p).key (c.value p).tables c.tableIndex).Lists t k ↔ _
    rw [KeySets.lists_removeTableIndex, h.lists_iff]
    have hm : c.value p ∈ c.entries := List.mem_map_of_mem hp
    constructor
    · rintro ⟨⟨e, he, rfl, ht⟩, hn⟩
      refine ⟨e, mem_others.mpr ⟨he, fun hk => hn ⟨hk, ?_⟩⟩, rfl, ht⟩
      rw [← h.entry_inj he hm hk]
      exact ht
    · rintro ⟨e, he, rfl, ht⟩
      obtain ⟨he, hk⟩ := mem_others.mp he
      exact ⟨⟨e, he, rfl, ht⟩, fun hc => hk hc.1⟩
  noneEmpty := h.noneEmpty.removeTableIndex _ _

theorem Agrees.perm (h : c.Agrees) (hl : l.Perm c.evictList) :
    ({ c with evictList := l } : CacheStore).Agrees where
  nodup := hl.nodup_iff.mpr h.nodup
  valid := fun p hp => h.valid p (hl.mem_iff.mp hp)
  items_iff := by
    intro k p
    rw [hl.mem_iff]
    exact h.items_iff k p
  lists_iff := by
    intro t k
    rw [h.lists_iff]
    have hm : ∀ e, e ∈ l.map c.value ↔ e ∈ c.entries := fun e => (hl.map c.value).mem_iff
    simp only [entries] at hm ⊢
    constructor
    · rintro ⟨e, he, hr⟩
      exact ⟨e, (hm e).mpr he, hr⟩
    · rintro ⟨e, he, hr⟩
      exact ⟨e, (hm e).mp he, hr⟩
  noneEmpty := h.noneEmpty

theorem Agrees.moveToFront (h : c.Agrees) (hp : p ∈ c.evictList) : (c.moveToFront p).Agrees := by
  apply h.perm
  rw [if_pos hp]
  exact (List.perm_cons_erase hp).symm

theorem update_value (hp : p < c.elements.length) (q : Nat) :
    (c.update now key result tables p).value q =
      if q = p then ⟨(c.value p).key, result, tables, now + c.config.ttl⟩ else c.value q := by
  simp only [update, moveToFront, value, List.getD_eq_getElem?_getD, List.getElem?_set]
  by_cases h : p = q
  · subst h
    simp [hp]
  · simp [h, Ne.symm h]

theorem update_entries (h : c.Agrees) (hp : p ∈ c.evictList) (hk : (c.value p).key = key) :
    (c.update now key result tables p).entries =
      ⟨key, result, tables, now + c.config.ttl⟩ :: c.others key := by
  have hl : (c.update now key result tables p).evictList = p :: c.evictList.erase p := if_pos hp
  rw [entries, hl, List.map_cons, update_value (h.valid p hp), if_pos rfl, hk, ← hk,
    ← h.map_erase hp]
  congr 1
  apply List.map_congr_left
  intro q hq
  rw [update_value (h.valid p hp), if_neg (h.nodup.mem_erase_iff.mp hq).1]

theorem Agrees.update (h : c.Agrees) (hp : p ∈ c.evictList) (hk : (c.value p).key = key) :
    (c.update now key result tables p).Agrees where
  nodup := (h.moveToFront hp).nodup
  valid := by
    intro q hq
    simp only [CacheStore.update, List.length_set]
    exact (h.moveToFront hp).valid q hq
  items_iff := by
    intro k q
    have hv : ((c.update now key result tables p).value q).key = (c.value q).key := by
      rw [update_value (h.valid p hp)]
      split
      · rename_i hq
        rw [hq]
      · rfl
    rw [hv]
    exact (h.moveToFront hp).items_iff k q
  lists_iff := by
    intro t k
    rw [update_entries h hp hk]
    show (KeySets.updateTableIndex key tables
      (KeySets.removeTableIndex key (c.value p).tables c.tableIndex)).Lists t k ↔ _
    rw [KeySets.lists_updateTableIndex, KeySets.lists_removeTableIndex, h.lists_iff]
    have hm : c.value p ∈ c.entries := List.mem_map_of_mem hp
    constructor
    · rintro (⟨⟨e, he, rfl, ht⟩, hn⟩ | ⟨rfl, ht⟩)
      · refine ⟨e, .tail _ (mem_others.mpr ⟨he, fun hc => hn ⟨hc, ?_⟩⟩), rfl, ht⟩
        rw [← h.entry_inj he hm (hc.trans hk.symm)]
        exact ht
      · exact ⟨_, .head _, rfl, ht⟩
    · rintro ⟨e, he, rfl, ht⟩
      rcases List.mem_cons.mp he with rfl | he
      · exact .inr ⟨rfl, ht⟩
      · obtain ⟨he, hne⟩ := mem_others.mp he
        exact .inl ⟨⟨e, he, rfl, ht⟩, fun hc => hne hc.1⟩
  noneEmpty := (h.noneEmpty.removeTableIndex _ _).updateTableIndex _ _

theorem value_append (q : Nat) (hq : q < c.elements.length) :
    (c.elements ++ [e]).getD q default = c.value q := by
  unfold value
  simp only [List.getD_eq_getElem?_getD, List.getElem?_append_left hq]

theorem add_value (now : Int) (key : UInt64) (result : Bytes) (tables : List Bytes) :
    (c.add now key result tables).value c.elements.length =
      ⟨key, result, tables, now + c.config.ttl⟩ := by
  simp [add, value]

theorem add_entries (h : c.Agrees) :
    (c.add now key result tables).entries =
      ⟨key, result, tables, now + c.config.ttl⟩ :: c.entries := by
  rw [← add_value (c := c) now key result tables]
  show _ :: c.evictList.map _ = _
  congr 1
  apply List.map_congr_left
  intro q hq
  exact value_append q (h.valid q hq)

theorem Agrees.add (h : c.Agrees) (hn : c.items.lookup key = none) :
    (c.add now key result tables).Agrees where
  nodup := by
    show (c.elements.length :: c.evictList).Nodup
    rw [List.nodup_cons]
    exact ⟨fun hm => Nat.lt_irrefl _ (h.valid _ hm), h.nodup⟩
  valid := by
    intro q hq
    have hl : (c.add now key result tables).elements.length = c.elements.length + 1 := by
      simp [CacheStore.add]
    rw [hl]
    rcases List.mem_cons.mp hq with rfl | hq
    · exact Nat.lt_succ_self _
    · exact Nat.lt_succ_of_lt (h.valid q hq)
  items_iff := by
    intro k q
    show (c.items.insert key c.elements.length).lookup k = some q ↔
      q ∈ c.elements.length :: c.evictList ∧ ((c.add now key result tables).value q).key = k
    rw [List.mem_cons]
    by_cases hk : k = key
    · subst hk
      rw [AList.lookup_insert, Option.some.injEq]
      constructor
      · rintro rfl
        exact ⟨.inl rfl, by rw [add_value]⟩
      · rintro ⟨rfl | hq, hv⟩
        · rfl
        · have hv' : (c.value q).key = k := by
            rw [← hv]
            exact (congrArg StoredEntry.key (value_append q (h.valid q hq))).symm
          rw [(h.items_iff k q).mpr ⟨hq, hv'⟩] at hn
          cases hn
    · rw [AList.lookup_insert_ne hk, h.items_iff]
      constructor
      · rintro ⟨hq, hv⟩
        refine ⟨.inr hq, ?_⟩
        rw [← hv]
        exact congrArg StoredEntry.key (value_append q (h.valid q hq))
      · rintro ⟨rfl | hq, hv⟩
        · rw [add_value] at hv
          exact (hk hv.symm).elim
        · refine ⟨hq, ?_⟩
          rw [← hv]
          exact (congrArg StoredEntry.key (value_append q (h.valid q hq))).symm
  lists_iff := by
    intro t k
    rw [add_entries h]
    show (KeySets.updateTableIndex key tables c.tableIndex).Lists t k ↔ _
    rw [KeySets.lists_updateTableIndex, h.lists_iff]
    constructor
    · rintro (⟨e, he, hk, ht⟩ | ⟨rfl, ht⟩)
      · exact ⟨e, .tail _ he, hk, ht⟩
      · exact ⟨_, .head _, rfl, ht⟩
    · rintro ⟨e, he, hk, ht⟩
      rcases List.mem_cons.mp he with rfl | he
      · exact .inr ⟨hk.symm, ht⟩
      · exact .inl ⟨e, he, hk, ht⟩
  noneEmpty := h.noneEmpty.updateTableIndex _ _

theorem Agrees.evictOldest (h : c.Agrees) : c.evictOldest.Agrees := by
  unfold CacheStore.evictOldest
  cases hl : c.evictList.getLast? with
  | none => exact h
  | some p => exact h.removeElement (List.mem_of_getLast? hl)

theorem evictOldest_entries (h : c.Agrees) : c.evictOldest.entries = c.entries.dropLast := by
  have hd := h.nodup
  unfold evictOldest entries
  rcases List.eq_nil_or_concat c.evictList with hn | ⟨rest, p, he⟩
  · simp [hn]
  · rw [he, List.concat_eq_append] at hd ⊢
    have hp : p ∉ rest := by
      intro hp
      exact (List.nodup_append.mp hd).2.2 p hp p (by simp) rfl
    rw [List.getLast?_concat, List.map_append, List.map_singleton, List.dropLast_concat]
    show ((c.evictList.erase p).map c.value) = _
    rw [he, List.concat_eq_append, List.erase_append_right _ hp]
    simp

theorem evictOldest_items (hn : c.items.lookup key = none) :
    c.evictOldest.items.lookup key = none := by
  unfold evictOldest
  cases c.evictList.getLast? with
  | none => exact hn
  | some p =>
    show (c.items.erase (c.value p).key).lookup key = none
    by_cases hk : key = (c.value p).key
    · rw [hk, AList.lookup_erase]
    · rw [AList.lookup_erase_ne hk, hn]

theorem lookup_none (h : c.Agrees) : c.items.lookup key = none ↔ ∀ e ∈ c.entries, e.key ≠ key := by
  constructor
  · rintro hn e he rfl
    obtain ⟨p, hp, rfl⟩ := List.mem_map.mp he
    rw [(h.items_iff _ p).mpr ⟨hp, rfl⟩] at hn
    cases hn
  · intro hn
    cases hl : c.items.lookup key with
    | none => rfl
    | some p =>
      obtain ⟨hp, hk⟩ := (h.items_iff key p).mp hl
      exact (hn _ (List.mem_map_of_mem hp) hk).elim

theorem Agrees.removeKey (h : c.Agrees) (key : UInt64) : (c.removeKey key).Agrees := by
  unfold CacheStore.removeKey
  cases hl : c.items.lookup key with
  | none => exact h
  | some p => exact h.removeElement ((h.items_iff key p).mp hl).1

theorem removeKey_entries (h : c.Agrees) (key : UInt64) :
    (c.removeKey key).entries = c.others key := by
  unfold removeKey
  cases hl : c.items.lookup key with
  | none =>
    rw [others, List.filter_eq_self.mpr]
    intro e he
    simpa using (lookup_none h).mp hl e he
  | some p =>
    obtain ⟨hp, rfl⟩ := (h.items_iff key p).mp hl
    exact removeElement_entries h hp

theorem Agrees.removeKeys (h : c.Agrees) (order : List UInt64) :
    (order.foldl CacheStore.removeKey c).Agrees := by
  induction order generalizing c with
  | nil => exact h
  | cons key order ih => exact ih (h.removeKey key)

theorem removeKeys_entries (h : c.Agrees) (order : List UInt64) :
    (order.foldl removeKey c).entries = c.entries.filter fun e => e.key ∉ order := by
  induction order generalizing c with
  | nil => simp
  | cons key order ih =>
    rw [List.foldl_cons, ih (h.removeKey key), removeKey_entries h, others, List.filter_filter]
    apply List.filter_congr
    intro e he
    simp [Bool.and_comm]

theorem invalidateTable_entries (h : c.Agrees) (hr : c.Ranges order table) :
    (c.invalidateTable order table).entries = c.entries.filter fun e => table ∉ e.tables := by
  unfold invalidateTable
  have hi := h.lists_iff table
  cases hl : c.tableIndex.lookup table with
  | none =>
    rw [List.filter_eq_self.mpr]
    intro e he
    have hn : ¬ table ∈ e.tables := by
      intro ht
      obtain ⟨keys, hk, -⟩ := (hi e.key).mpr ⟨e, he, rfl, ht⟩
      rw [hl] at hk
      cases hk
    simpa using hn
  | some keys =>
    show (order.foldl removeKey c).entries = _
    rw [removeKeys_entries h]
    apply List.filter_congr
    intro e he
    have hm : e.key ∈ order ↔ table ∈ e.tables := by
      rw [(hr keys hl).mem_iff]
      constructor
      · intro hk
        obtain ⟨e', he', hk', ht⟩ := (hi e.key).mp ⟨keys, hl, hk⟩
        rw [← h.entry_inj he' he hk']
        exact ht
      · intro ht
        obtain ⟨keys', hk', hm⟩ := (hi e.key).mpr ⟨e, he, rfl, ht⟩
        rw [hl, Option.some.injEq] at hk'
        rw [hk']
        exact hm
    simp [hm]

theorem Agrees.invalidateTable (h : c.Agrees) (hr : c.Ranges order table) :
    (c.invalidateTable order table).Agrees := by
  have he := invalidateTable_entries h hr
  unfold CacheStore.invalidateTable at he ⊢
  cases hl : c.tableIndex.lookup table with
  | none => exact h
  | some keys =>
    rw [hl] at he
    dsimp only at he ⊢
    have h' := h.removeKeys order
    refine ⟨h'.nodup, h'.valid, h'.items_iff, ?_, h'.noneEmpty.erase table⟩
    intro t k
    by_cases ht : t = table
    · subst ht
      rw [KeySets.lists_getD, AList.lookup_erase, he]
      constructor
      · intro hk
        cases hk
      · rintro ⟨e, hm, -, ht⟩
        exact (of_decide_eq_true (List.mem_filter.mp hm).2 ht).elim
    · rw [KeySets.lists_getD, AList.lookup_erase_ne ht, ← KeySets.lists_getD]
      exact h'.lists_iff t k

theorem agrees_flushAll (c : CacheStore) : c.flushAll.Agrees where
  nodup := List.nodup_nil
  valid := by
    intro p hp
    cases hp
  items_iff := by simp [flushAll]
  lists_iff := by simp [flushAll, KeySets.Lists, entries]
  noneEmpty := by simp [flushAll, KeySets.NoneEmpty]

end CacheStore

end Pgmux
