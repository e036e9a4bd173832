import Pgmux.Collect

namespace Pgmux

open Interaction

section Lookup

variable [External]

def textKey (ast : Bool) (query dbName : Bytes) : UInt64 :=
  mixDBName (if ast then semanticCacheKey query else fnv64a query) dbName

theorem cacheKey_key (h : Runs (cacheKey query dbName) tr key) :
    ∃ cfg : Config, ⟨.config, cfg⟩ ∈ tr ∧ key = textKey cfg.astParser query dbName := by
  unfold cacheKey at h
  rw [runs_perform_bind] at h
  obtain ⟨cfg, t, h, rfl⟩ := h
  obtain ⟨rfl, rfl⟩ := runs_pure.mp h
  exact ⟨cfg, .head _, rfl⟩

theorem cacheKeyParsed_key (h : Runs (cacheKeyParsed query pq dbName) tr key)
    (hpq : TreeOf query pq) :
    ∃ cfg : Config, ⟨.config, cfg⟩ ∈ tr ∧ key = textKey cfg.astParser query dbName := by
  unfold cacheKeyParsed at h
  rw [runs_perform_bind] at h
  obtain ⟨cfg, t, h, rfl⟩ := h
  split at h
  · rename_i tree hast
    obtain ⟨rfl, rfl⟩ := runs_pure.mp h
    exact ⟨cfg, .head _, by simp [textKey, hast, semanticCacheKey, hpq tree rfl]⟩
  · obtain ⟨cfg', hcfg, rfl⟩ := cacheKey_key h
    exact ⟨cfg', .tail _ hcfg, rfl⟩

theorem extractReadQueryTables_tables (h : Runs (extractReadQueryTables query) tr tables) :
    ∃ cfg : Config, ⟨.config, cfg⟩ ∈ tr ∧ tables = readTables cfg.astParser query := by
  unfold extractReadQueryTables at h
  rw [runs_perform_bind] at h
  obtain ⟨cfg, t, h, rfl⟩ := h
  obtain ⟨rfl, rfl⟩ := runs_pure.mp h
  exact ⟨cfg, .head _, rfl⟩

theorem extractReadQueryTablesParsed_tables
    (h : Runs (extractReadQueryTablesParsed query pq) tr tables) (hpq : TreeOf query pq) :
    ∃ cfg : Config, ⟨.config, cfg⟩ ∈ tr ∧ tables = readTables cfg.astParser query := by
  unfold extractReadQueryTablesParsed at h
  rw [runs_perform_bind] at h
  obtain ⟨cfg, t, h, rfl⟩ := h
  split at h
  · rename_i tree hast
    obtain ⟨rfl, rfl⟩ := runs_pure.mp h
    exact ⟨cfg, .head _, by simp [readTables, hast, hpq tree rfl]⟩
  · obtain ⟨cfg', hcfg, rfl⟩ := extractReadQueryTables_tables h
    exact ⟨cfg', .tail _ hcfg, rfl⟩

/-- An entry for the response to a text is stored, under the key of the text in the namespace and
for the tables that the text reads. -/
inductive Stores (query dbName : Bytes) (ns : UInt64) (data : Bytes) : Trace Ans → Prop
  | mk {cfg cfg' : Config} : IdleTrace t₀ → ⟨.config, cfg⟩ ∈ t₀ → ⟨.config, cfg'⟩ ∈ t₀ →
      readTables cfg'.astParser query = some tables →
      Stores query dbName ns data
        (t₀ ++ [⟨.cacheSet (textKey cfg.astParser query dbName ^^^ ns) data tables, ()⟩])

/-- After the key and the tables, the entry is stored or the extraction of the tables panics. -/
theorem storeTables_stores {cfg cfg' : Config} (h₁ : IdleTrace t₁) (hcfg : ⟨.config, cfg⟩ ∈ t₁)
    (h₃ : IdleTrace t₃) (hcfg' : ⟨.config, cfg'⟩ ∈ t₃)
    (h : Runs (storeTables (textKey cfg.astParser query dbName ^^^ ns) d
      (readTables cfg'.astParser query)) t kept) :
    IdleTrace (t₁ ++ (t₃ ++ t)) ∨ Stores query dbName ns d (t₁ ++ (t₃ ++ t)) := by
  cases ht : readTables cfg'.astParser query with
  | none =>
    rw [ht] at h
    obtain ⟨rfl, -⟩ := runs_pure.mp h
    exact .inl (h₁.append (h₃.append .nil))
  | some tables =>
    rw [ht] at h
    obtain ⟨_, h, -⟩ := h.of_map
    obtain rfl := runs_perform.mp h
    have hs : Stores query dbName ns d _ :=
      .mk (h₁.append h₃) (List.mem_append_left _ hcfg) (List.mem_append_right _ hcfg') ht
    rw [List.append_assoc] at hs
    exact .inr hs

theorem Stores.data_eq (h : Stores query dbName ns data t)
    (hm : ⟨.cacheSet key d tables, ()⟩ ∈ t) : d = data := by
  cases h with
  | mk hi =>
    rcases List.mem_append.mp hm with hm | hm
    · exact absurd (hi _ hm).2 (by simp [Op.cacheCall])
    · cases List.mem_singleton.mp hm
      rfl

theorem storeRead_stores (h : Runs (storeRead query pq dbName data) t kept)
    (hpq : TreeOf query pq) :
    IdleTrace t ∨ ∃ d, data = some d ∧ Stores query dbName 0 d t := by
  cases data with
  | none =>
    obtain ⟨rfl, -⟩ := runs_pure.mp h
    exact .inl .nil
  | some d =>
    obtain ⟨t₁, key, t₂, rfl, h₁, h⟩ := h.of_seq
    obtain ⟨t₃, tables, t₄, rfl, h₃, h⟩ := h.of_seq
    obtain ⟨cfg, hcfg, rfl⟩ := cacheKeyParsed_key h₁ hpq
    obtain ⟨cfg', hcfg', rfl⟩ := extractReadQueryTablesParsed_tables h₃ hpq
    rw [← UInt64.xor_zero (a := textKey cfg.astParser query dbName)] at h
    exact (storeTables_stores ((cacheKeyParsed_foot.idle rfl).trace h₁) hcfg
      ((extractReadQueryTablesParsed_foot.idle rfl).trace h₃) hcfg' h).imp_right fun hs =>
        ⟨d, rfl, hs⟩

theorem storeBatch_stores (h : Runs (storeBatch buf dbName data) t kept) :
    IdleTrace t ∨ ∃ d query, data = some d ∧ batchCacheText buf = some query ∧
      Stores query dbName nsExtended d t := by
  cases data with
  | none =>
    obtain ⟨rfl, -⟩ := runs_pure.mp h
    exact .inl .nil
  | some d =>
    unfold storeBatch at h
    cases hq : batchCacheText buf with
    | none =>
      rw [hq] at h
      obtain ⟨rfl, -⟩ := runs_pure.mp h
      exact .inl .nil
    | some query =>
      rw [hq] at h
      obtain ⟨t₁, key, t₂, rfl, h₁, h⟩ := h.of_seq
      obtain ⟨t₃, tables, t₄, rfl, h₃, h⟩ := h.of_seq
      obtain ⟨cfg, hcfg, rfl⟩ := cacheKey_key h₁
      obtain ⟨cfg', hcfg', rfl⟩ := extractReadQueryTables_tables h₃
      exact (storeTables_stores ((cacheKey_foot.idle rfl).trace h₁) hcfg
        ((extractReadQueryTables_foot.idle rfl).trace h₃) hcfg' h).imp_right fun hs =>
          ⟨d, query, rfl, rfl, hs⟩

inductive LooksUp (query dbName : Bytes) (ns : UInt64) : Trace Ans → Option Bytes → Prop
  | off : LooksUp query dbName ns [⟨.queryCache, false⟩] none
  | on {cfg : Config} : IdleTrace t₀ → ⟨.config, cfg⟩ ∈ t₀ → LooksUp query dbName ns
      (⟨.queryCache, true⟩ ::
        (t₀ ++ [⟨.cacheGet (textKey cfg.astParser query dbName ^^^ ns), x⟩])) x

theorem lookupRead_looksUp (h : Runs (lookupRead query pq dbName) t x) (hpq : TreeOf query pq) :
    LooksUp query dbName 0 t x := by
  unfold lookupRead at h
  rw [runs_perform_bind] at h
  obtain ⟨cached, t, h, rfl⟩ := h
  cases cached with
  | false =>
    obtain ⟨rfl, rfl⟩ := runs_pure.mp h
    exact .off
  | true =>
    rw [if_pos rfl, runs_bind] at h
    obtain ⟨t₁, key, t₂, h₁, h, rfl⟩ := h
    obtain rfl := runs_perform.mp h
    obtain ⟨cfg, hcfg, rfl⟩ := cacheKeyParsed_key h₁ hpq
    have hl : LooksUp query dbName 0 _ x := .on ((cacheKeyParsed_foot.idle rfl).trace h₁) hcfg
    rw [UInt64.xor_zero] at hl
    exact hl

theorem lookupBatch_looksUp (h : Runs (lookupBatch buf dbName) t x) :
    (batchCacheText buf = none ∧ t = [] ∧ x = none) ∨
      ∃ query, batchCacheText buf = some query ∧ LooksUp query dbName nsExtended t x := by
  unfold lookupBatch at h
  cases hq : batchCacheText buf with
  | none =>
    rw [hq] at h
    exact .inl ⟨rfl, runs_pure.mp h⟩
  | some query =>
    rw [hq] at h
    refine .inr ⟨query, rfl, ?_⟩
    dsimp only at h
    rw [runs_perform_bind] at h
    obtain ⟨cached, t, h, rfl⟩ := h
    cases cached with
    | false =>
      obtain ⟨rfl, rfl⟩ := runs_pure.mp h
      exact .off
    | true =>
      rw [if_pos rfl, runs_bind] at h
      obtain ⟨t₁, key, t₂, h₁, h, rfl⟩ := h
      obtain rfl := runs_perform.mp h
      obtain ⟨cfg, hcfg, rfl⟩ := cacheKey_key h₁
      exact .on ((cacheKey_foot.idle rfl).trace h₁) hcfg

end Lookup

end Pgmux
