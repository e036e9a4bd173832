import Pgmux.CacheStore

namespace Pgmux

/-- The limits of the reference map: a result that is too large is not admitted. -/
def CacheConfig.limits (config : CacheConfig) : Recency.Limits Bytes where
  capacity := config.maxEntries
  ttl := config.ttl
  admits result := ¬ (0 < config.maxSize ∧ config.maxSize < result.length)

def StoredEntry.slot (e : StoredEntry) : Recency.Slot UInt64 Bytes Bytes :=
  ⟨e.key, e.result, e.tables, e.expiresAt⟩

def CacheCall.reference : CacheCall → Recency.Call UInt64 Bytes Bytes
  | .get key => .get key
  | .set key result tables => .set key result tables
  | .invalidateTable table => .invalidate table
  | .flushAll => .flush

def referenceCalls (calls : List (Int × CacheCall)) :
    List (Int × Recency.Call UInt64 Bytes Bytes) :=
  calls.map fun o => (o.1, o.2.reference)

theorem referenceCalls_snoc (calls : List (Int × CacheCall)) (o : Int × CacheCall) :
    referenceCalls (calls ++ [o]) = referenceCalls calls ++ [(o.1, o.2.reference)] := by
  simp [referenceCalls]

namespace CacheStore

variable {c : CacheStore} {cfg : CacheConfig}

def slots (c : CacheStore) : List (Recency.Slot UInt64 Bytes Bytes) :=
  c.entries.map StoredEntry.slot

theorem others_slots (c : CacheStore) (key : UInt64) :
    (c.others key).map StoredEntry.slot = Recency.others c.slots key := by
  rw [Recency.others, slots, List.filter_map]
  rfl

theorem keys_slots (c : CacheStore) : Recency.keys c.slots = c.entries.map StoredEntry.key := by
  rw [Recency.keys, slots, List.map_map]
  rfl

theorem Agrees.keys_nodup (h : c.Agrees) : (c.entries.map StoredEntry.key).Nodup := by
  rw [entries, List.map_map]
  exact h.nodup.map_on fun p hp q hq hk => h.inj hp hq hk

theorem find_slots (h : c.Agrees) (key : UInt64) :
    Recency.find c.slots key = (c.items.lookup key).map fun p => (c.value p).slot := by
  have hd : (Recency.keys c.slots).Nodup := by
    rw [keys_slots]
    exact h.keys_nodup
  cases hl : c.items.lookup key with
  | none =>
    rw [Option.map_none, Recency.find_none, keys_slots, List.mem_map]
    rintro ⟨e, he, hk⟩
    exact (lookup_none h).mp hl e he hk
  | some p =>
    obtain ⟨hp, hk⟩ := (h.items_iff key p).mp hl
    rw [Option.map_some, Recency.find_eq_some hd]
    exact ⟨List.mem_map_of_mem (List.mem_map_of_mem hp), hk⟩

theorem get_refines (h : c.Agrees) (now : Int) (key : UInt64) :
    (c.get now key).1 = (Recency.get now key c.slots).1 ∧
      (c.get now key).2.slots = (Recency.get now key c.slots).2 ∧ (c.get now key).2.Agrees := by
  unfold get Recency.get
  rw [find_slots h]
  cases hl : c.items.lookup key with
  | none => exact ⟨rfl, rfl, h⟩
  | some p =>
    obtain ⟨hp, rfl⟩ := (h.items_iff key p).mp hl
    by_cases hx : (c.value p).expiresAt < now
    · have hx' : (c.value p).slot.expiresAt < now := hx
      simp only [Option.map_some, if_pos hx, if_pos hx']
      refine ⟨trivial, ?_, h.removeElement hp⟩
      rw [slots, removeElement_entries h hp, others_slots]
    · have hx' : ¬ (c.value p).slot.expiresAt < now := hx
      simp only [Option.map_some, if_neg hx, if_neg hx']
      refine ⟨rfl, ?_, h.moveToFront hp⟩
      rw [slots, moveToFront_entries h hp, List.map_cons, others_slots]

theorem evict_refines (h : c.Agrees) (hn : c.items.lookup key = none) :
    let c' := if 0 < c.config.maxEntries ∧ c.config.maxEntries ≤ c.len then c.evictOldest else c
    c'.slots = Recency.room c.config.limits key c.slots ∧ c'.Agrees ∧ c'.config = c.config ∧
      c'.items.lookup key = none := by
  have hlen : (c.slots.length : Int) = c.len := by simp [slots, entries, len]
  have hf : Recency.find c.slots key = none := by rw [find_slots h, hn, Option.map_none]
  simp only [Recency.room, hf, Recency.Limits.full, hlen, CacheConfig.limits]
  split
  · refine ⟨?_, h.evictOldest, ?_, evictOldest_items hn⟩
    · rw [slots, evictOldest_entries h, slots, List.map_dropLast]
    · unfold evictOldest
      split <;> rfl
  · exact ⟨rfl, h, rfl, hn⟩

theorem set_refines (h : c.Agrees) (now : Int) (key : UInt64) (result : Bytes)
    (tables : List Bytes) :
    (c.set now key result tables).slots =
        Recency.set c.config.limits now key result tables c.slots ∧
      (c.set now key result tables).Agrees ∧ (c.set now key result tables).config = c.config := by
  unfold set Recency.set
  by_cases hl : 0 < c.config.maxSize ∧ c.config.maxSize < result.length
  · have ha : c.config.limits.admits result = false := by simp [CacheConfig.limits, hl]
    rw [if_pos hl, ha]
    exact ⟨rfl, h, rfl⟩
  · have ha : c.config.limits.admits result := decide_eq_true hl
    rw [if_neg hl, if_pos ha]
    cases hi : c.items.lookup key with
    | some p =>
      obtain ⟨hp, hk⟩ := (h.items_iff key p).mp hi
      refine ⟨?_, h.update hp hk, rfl⟩
      have hf : Recency.find c.slots key = some (c.value p).slot := by
        rw [find_slots h, hi, Option.map_some]
      rw [slots, update_entries h hp hk, List.map_cons, others_slots, Recency.room, hf]
      rfl
    | none =>
      obtain ⟨hs, h', hc, hn⟩ := evict_refines h hi
      dsimp only
      refine ⟨?_, h'.add hn, hc⟩
      rw [slots, add_entries h', List.map_cons, ← hs, hc]
      rfl

theorem invalidateTable_slots (h : c.Agrees) (hr : c.Ranges order table) :
    (c.invalidateTable order table).slots = Recency.invalidate table c.slots := by
  rw [slots, invalidateTable_entries h hr, Recency.invalidate, slots, List.filter_map]
  congr 1
  apply List.filter_congr
  intro e he
  exact decide_eq_decide.mpr Iff.rfl

theorem removeKeys_config (order : List UInt64) (c : CacheStore) :
    (order.foldl removeKey c).config = c.config := by
  induction order generalizing c with
  | nil => rfl
  | cons key order ih =>
    rw [List.foldl_cons, ih]
    unfold removeKey
    split <;> rfl

theorem call_config (order : List UInt64) (h : c.Agrees) (o : Int × CacheCall) :
    (c.call order o).config = c.config := by
  obtain ⟨now, o⟩ := o
  cases o with
  | get key =>
    simp only [call, get]
    split
    · rfl
    · split <;> rfl
  | set key result tables => exact (set_refines h now key result tables).2.2
  | invalidateTable table =>
    simp only [call, invalidateTable]
    split
    · rfl
    · exact removeKeys_config order c
  | flushAll => rfl

theorem call_refines (h : c.Agrees) (o : Int × CacheCall)
    (hr : ∀ table, o.2 = .invalidateTable table → c.Ranges order table) :
    (c.call order o).Agrees ∧
      (c.call order o).slots = Recency.call c.config.limits c.slots (o.1, o.2.reference) := by
  obtain ⟨now, o⟩ := o
  cases o with
  | get key =>
    obtain ⟨-, hs, h'⟩ := get_refines h now key
    exact ⟨h', hs⟩
  | set key result tables =>
    obtain ⟨hs, h', -⟩ := set_refines h now key result tables
    exact ⟨h', hs⟩
  | invalidateTable table =>
    exact ⟨h.invalidateTable (hr table rfl), invalidateTable_slots h (hr table rfl)⟩
  | flushAll => exact ⟨agrees_flushAll c, rfl⟩

theorem Reached.refines (h : Reached cfg calls c) :
    c.Agrees ∧ c.config = cfg ∧
      c.slots = Recency.after cfg.limits (referenceCalls calls) := by
  induction h with
  | new => exact ⟨agrees_new cfg, rfl, rfl⟩
  | @call calls c o order h hr ih =>
    obtain ⟨ha, hc, hs⟩ := ih
    obtain ⟨ha', hs'⟩ := call_refines ha o hr
    refine ⟨ha', (call_config order ha o).trans hc, ?_⟩
    rw [hs', hc, hs, referenceCalls_snoc, Recency.after_snoc]

/-- The structures agree, the capacity holds, a get answers with the result that was admitted last
for its key as long as nothing has ended the binding, and an invalidation takes the entries of its
table and no others. -/
theorem cache_refines_lru (h : Reached cfg calls c) :
    ((c.entries.map StoredEntry.key).Nodup ∧
      ∀ k p, c.items.lookup k = some p ↔ p ∈ c.evictList ∧ (c.value p).key = k) ∧
    (0 < cfg.maxEntries → (c.len : Int) ≤ cfg.maxEntries) ∧
    ((∀ t k, c.tableIndex.Lists t k ↔ ∃ e ∈ c.entries, e.key = k ∧ t ∈ e.tables) ∧
      ∀ t keys, c.tableIndex.lookup t = some keys → keys ≠ []) ∧
    (c.slots = Recency.after cfg.limits (referenceCalls calls) ∧
      ∀ now k result, (c.get now k).1 = some result ↔ ∃ tables expiresAt, now ≤ expiresAt ∧
        Recency.Lives cfg.limits ⟨k, result, tables, expiresAt⟩ (referenceCalls calls)) ∧
    ∀ order t, c.Ranges order t →
      (c.invalidateTable order t).entries = c.entries.filter fun e => t ∉ e.tables := by
  obtain ⟨ha, -, hs⟩ := h.refines
  refine ⟨⟨ha.keys_nodup, ha.items_iff⟩, ?_, ⟨ha.lists_iff, ha.noneEmpty⟩, ⟨hs, ?_⟩, ?_⟩
  · intro hc
    have hl := Recency.after_length cfg.limits hc (referenceCalls calls)
    rw [← hs, slots, entries, List.length_map, List.length_map] at hl
    exact hl
  · intro now k result
    have hd := Recency.after_nodup cfg.limits (referenceCalls calls)
    rw [(get_refines ha now k).1, hs, Recency.get_eq_some hd]
    constructor
    · rintro ⟨⟨_, _, tables, expiresAt⟩, he, rfl, rfl, hx⟩
      exact ⟨tables, expiresAt, hx, (Recency.mem_after _ _).mp he⟩
    · rintro ⟨tables, expiresAt, hx, hl⟩
      exact ⟨_, (Recency.mem_after _ _).mpr hl, rfl, rfl, hx⟩
  · intro order t hr
    exact invalidateTable_entries ha hr

theorem Reached.set (h : Reached cfg calls c) (now : Int) (key : UInt64) (result : Bytes)
    (tables : List Bytes) :
    Reached cfg (calls ++ [(now, .set key result tables)]) (c.set now key result tables) := by
  apply Reached.call (now, .set key result tables) [] h
  intro table ht
  cases ht

theorem exists_reached (cfg : CacheConfig) (calls : List (Int × CacheCall)) :
    ∃ c, Reached cfg calls c := by
  induction calls using List.reverseRecOn with
  | nil => exact ⟨_, .new⟩
  | append_singleton calls o ih =>
    obtain ⟨c, h⟩ := ih
    obtain ⟨order, horder⟩ : ∃ order, ∀ t, o.2 = .invalidateTable t → c.Ranges order t := by
      rcases ho : o.2 with key | ⟨key, result, tables⟩ | table | _
      · exact ⟨[], fun _ ht => by cases ht⟩
      · exact ⟨[], fun _ ht => by cases ht⟩
      · refine ⟨(c.tableIndex.lookup table).getD [], fun t ht keys hk => ?_⟩
        cases ht
        rw [hk, Option.getD_some]
      · exact ⟨[], fun _ ht => by cases ht⟩
    exact ⟨_, .call o order h horder⟩

theorem cache_refines_lru_set :
    ∃ calls c, Reached ⟨2, 10, 4⟩ calls c ∧ (c.get 3 7).1 = some [1] ∧
      ∃ tables expiresAt, 3 ≤ expiresAt ∧
        Recency.Lives (CacheConfig.limits ⟨2, 10, 4⟩) ⟨7, [1], tables, expiresAt⟩
          (referenceCalls calls) := by
  have h : Reached ⟨2, 10, 4⟩ _ _ :=
    (Reached.new.set 0 7 [1] [ascii "a"]).set 1 8 [2] [ascii "b"]
  have hg := (cache_refines_lru h).2.2.2.1.2 3 7 [1]
  exact ⟨_, _, h, by decide +kernel, hg.mp (by decide +kernel)⟩

/-- The second set is larger than `MaxSize`, so it is skipped: a get still answers with the result
of the first. -/
theorem last_set_skipped :
    ∃ c, Reached ⟨2, 10, 1⟩ ([(0, .set 7 [1] [ascii "a"])] ++ [(1, .set 7 [1, 2] [ascii "a"])]) c ∧
      (c.get 1 7).1 = some [1] :=
  ⟨_, (Reached.new.set 0 7 [1] [ascii "a"]).set 1 7 [1, 2] [ascii "a"], by decide +kernel⟩

end CacheStore

def CacheEntry.slot (e : CacheEntry) : Recency.Slot UInt64 Bytes Bytes :=
  ⟨e.key, e.result, e.tables, e.expiresAt⟩

namespace Cache

variable {c : Cache}

def config (c : Cache) : CacheConfig := ⟨c.maxEntries, c.ttl, c.maxSize⟩

def slots (c : Cache) : List (Recency.Slot UInt64 Bytes Bytes) := c.entries.map CacheEntry.slot

theorem others_slots (c : Cache) (key : UInt64) :
    (c.others key).map CacheEntry.slot = Recency.others c.slots key := by
  rw [Recency.others, slots, List.filter_map]
  rfl

theorem find_slots (c : Cache) (key : UInt64) :
    Recency.find c.slots key = (c.item key).map CacheEntry.slot := by
  rw [Recency.find, slots, List.find?_map]
  rfl

theorem get_refines (now : Nat) (key : UInt64) (c : Cache) :
    (c.get now key).1 = (Recency.get now key c.slots).1 ∧
      (c.get now key).2.slots = (Recency.get now key c.slots).2 := by
  unfold get Recency.get
  rw [find_slots]
  split
  · rename_i h
    simp [h]
  · rename_i e h
    have hk := item_key h
    subst hk
    by_cases hx : e.expiresAt < now
    · have hx' : e.slot.expiresAt < now := Int.ofNat_lt.mpr hx
      simp only [h, Option.map_some, if_pos hx, if_pos hx']
      exact ⟨trivial, c.others_slots e.key⟩
    · have hx' : ¬ e.slot.expiresAt < now := fun hc => hx (Int.ofNat_lt.mp hc)
      simp only [h, Option.map_some, if_neg hx, if_neg hx']
      exact ⟨rfl, congrArg (e.slot :: ·) (c.others_slots e.key)⟩

theorem evictOldest_slots (c : Cache) : c.evictOldest.slots = c.slots.dropLast := by
  have hd := c.keys_nodup
  unfold evictOldest slots
  split
  · rename_i h
    simp [List.getLast?_eq_none_iff.mp h]
  · rename_i e h
    obtain ⟨rest, he⟩ := List.getLast?_eq_some_iff.mp h
    show (c.others e.key).map _ = _
    rw [← List.map_dropLast]
    congr 1
    rw [he, List.map_append, List.nodup_append] at hd
    rw [others, he, List.dropLast_concat, List.filter_append]
    have hrest : rest.filter (fun e' => e'.key ≠ e.key) = rest := by
      rw [List.filter_eq_self]
      intro e' h'
      have hne := hd.2.2 _ (List.mem_map_of_mem h') e.key (by simp)
      simpa using hne
    rw [hrest]
    simp

theorem set_refines (now : Nat) (key : UInt64) (result : Bytes) (tables : List Bytes) (c : Cache) :
    (c.set now key result tables).slots =
      Recency.set c.config.limits now key result tables c.slots := by
  unfold set Recency.set
  by_cases hl : c.tooLarge result
  · have ha : c.config.limits.admits result = false := decide_eq_false (fun hn => hn hl)
    rw [if_pos hl, ha]
    rfl
  · have ha : c.config.limits.admits result := decide_eq_true hl
    rw [if_neg hl, if_pos ha]
    split
    · rename_i e h
      have hk := item_key h
      subst hk
      have hroom : Recency.room c.config.limits e.key c.slots =
          (c.others e.key).map CacheEntry.slot := by
        rw [Recency.room, find_slots, h, others_slots]
        rfl
      rw [hroom]
      rfl
    · rename_i h
      have hroom : Recency.room c.config.limits key c.slots = c.makeRoom.slots := by
        have hlen : (c.slots.length : Int) = c.entries.length := by simp [slots]
        rw [Recency.room, find_slots, h, makeRoom]
        simp only [Option.map_none, Recency.Limits.full, hlen, CacheConfig.limits, config]
        split
        · exact (evictOldest_slots c).symm
        · rfl
      rw [hroom]
      rfl

theorem removeKey_entries (c : Cache) (key : UInt64) :
    (c.removeKey key).entries = c.others key := by
  unfold removeKey
  split
  · rename_i h
    rw [others, List.filter_eq_self.mpr]
    intro e he
    simpa using item_none h e he
  · rename_i e h
    have hk := item_key h
    subst hk
    rfl

theorem removeKey_config (c : Cache) (key : UInt64) : (c.removeKey key).config = c.config := by
  unfold removeKey
  split <;> rfl

theorem removeKeys_config (c : Cache) (keys : List UInt64) :
    (c.removeKeys keys).config = c.config := by
  unfold removeKeys
  induction keys generalizing c with
  | nil => rfl
  | cons key keys ih => rw [List.foldl_cons, ih, removeKey_config]

theorem makeRoom_config (c : Cache) : c.makeRoom.config = c.config := by
  unfold makeRoom evictOldest
  split
  · split <;> rfl
  · rfl

theorem removeKeys_entries (c : Cache) (keys : List UInt64) :
    (c.removeKeys keys).entries = c.entries.filter fun e => e.key ∉ keys := by
  unfold removeKeys
  induction keys generalizing c with
  | nil => simp
  | cons key keys ih =>
    rw [List.foldl_cons, ih, removeKey_entries, others, List.filter_filter]
    apply List.filter_congr
    intro e he
    simp [Bool.and_comm]

theorem invalidateTable_slots (table : Bytes) (c : Cache) :
    (c.invalidateTable table).slots = Recency.invalidate table c.slots := by
  show (c.removeKeys (c.tableIndex table)).entries.map _ = _
  rw [removeKeys_entries, Recency.invalidate, slots, List.filter_map]
  congr 1
  apply List.filter_congr
  intro e he
  apply decide_eq_decide.mpr
  rw [c.indexed]
  constructor
  · intro hn ht
    exact hn ⟨e, he, rfl, ht⟩
  · rintro hn ⟨e', he', hk, ht⟩
    rw [c.key_inj he' he hk] at ht
    exact hn ht

theorem call_config (c : Cache) (now : Nat) (o : CacheCall) :
    (c.call (now, o)).config = c.config := by
  cases o with
  | get key =>
    simp only [call, get]
    split
    · rfl
    · split <;> rfl
  | set key result tables =>
    simp only [call, set]
    split
    · rfl
    · split
      · rfl
      · exact makeRoom_config c
  | invalidateTable table => exact removeKeys_config c (c.tableIndex table)
  | flushAll => rfl

theorem call_refines (c : Cache) (now : Nat) (o : CacheCall) :
    (c.call (now, o)).slots = Recency.call c.config.limits c.slots (now, o.reference) := by
  cases o with
  | get key => exact (get_refines now key c).2
  | set key result tables => exact set_refines now key result tables c
  | invalidateTable table => exact invalidateTable_slots table c
  | flushAll => rfl

def timed (calls : List (Nat × CacheCall)) : List (Int × CacheCall) :=
  calls.map fun o => ((o.1 : Int), o.2)

theorem after_refines (maxEntries : Int) (ttl : Nat) (maxSize : Int)
    (calls : List (Nat × CacheCall)) :
    ((new maxEntries ttl maxSize).after calls).config = ⟨maxEntries, ttl, maxSize⟩ ∧
      ((new maxEntries ttl maxSize).after calls).slots =
        Recency.after (CacheConfig.limits ⟨maxEntries, ttl, maxSize⟩)
          (referenceCalls (timed calls)) := by
  induction calls using List.reverseRecOn with
  | nil => exact ⟨rfl, rfl⟩
  | append_singleton calls o ih =>
    obtain ⟨hc, hs⟩ := ih
    obtain ⟨now, o⟩ := o
    have ha : (new maxEntries ttl maxSize).after (calls ++ [(now, o)]) =
        ((new maxEntries ttl maxSize).after calls).call (now, o) := by
      simp [after]
    have ht : timed (calls ++ [(now, o)]) = timed calls ++ [((now : Int), o)] := by
      simp [timed]
    rw [ha, ht, referenceCalls_snoc, Recency.after_snoc]
    refine ⟨(call_config _ now o).trans hc, ?_⟩
    rw [call_refines, hc, hs]

/-- The cache of the proxy model holds what the three structures of the source hold after the same
calls. -/
theorem store_entries {store : CacheStore} {maxEntries maxSize : Int} {ttl : Nat}
    (h : CacheStore.Reached ⟨maxEntries, ttl, maxSize⟩ (timed calls) store) :
    store.slots = ((new maxEntries ttl maxSize).after calls).slots := by
  rw [h.refines.2.2, (after_refines maxEntries ttl maxSize calls).2]

/-- The third Set evicts the entry that was not looked up, and is invalidated itself. -/
theorem store_entries_set : ∃ store, CacheStore.Reached ⟨2, 10, 4⟩
    (timed [(0, .set 7 [1] [ascii "a"]), (1, .set 8 [2] [ascii "b"]), (2, .get 7),
      (3, .set 9 [3] [ascii "b"]), (4, .invalidateTable (ascii "b"))]) store ∧
    store.slots = [⟨7, [1], [ascii "a"], 10⟩] := by
  obtain ⟨store, h⟩ := CacheStore.exists_reached ⟨2, 10, 4⟩ (timed
    [(0, .set 7 [1] [ascii "a"]), (1, .set 8 [2] [ascii "b"]), (2, .get 7),
      (3, .set 9 [3] [ascii "b"]), (4, .invalidateTable (ascii "b"))])
  exact ⟨store, h, (store_entries h).trans (by decide +kernel)⟩

end Cache

end Pgmux
