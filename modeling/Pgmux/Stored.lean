import Pgmux.Lookup

namespace Pgmux

open Interaction

section Stored

variable [External]

inductive Served (addr : Addr) (ms : List Message)
    (relay : ConnId → Proc (Option (Option Bytes))) (store : Option Bytes → Proc Bool) :
    Trace Ans → Prop
  | mk : Runs (forwardAll c ms) t₁ true → Runs (relay c) t₂ (some data) →
      Runs (store data) t₃ kept →
      Served addr ms relay store ([⟨.readerAllow addr, true⟩, ⟨.readerPool addr, some p⟩,
        ⟨.acquire p, some c⟩, ⟨.setCancel addr c, ()⟩] ++ (t₁ ++ (t₂ ++ ⟨.clearCancel, ()⟩ ::
          ⟨.release (some p) c, ()⟩ ::
            (t₃ ++ if kept then [⟨.readerRecord addr true, ()⟩] else []))))

section ReadOn

variable {relay : ConnId → Proc (Option (Option Bytes))} {store : Option Bytes → Proc Bool}
  {fb : Proc Bool} (hrelay : ∀ c, Uncached (relay c)) (hfb : Uncached fb)

include hrelay hfb

theorem serveReader_use (h : Runs (serveReader addr p c ms breakOnSend relay store fb) tr ok) :
    UncachedTrace tr ∨ Served addr ms relay store
      (⟨.readerAllow addr, true⟩ :: ⟨.readerPool addr, some p⟩ :: ⟨.acquire p, some c⟩ :: tr) := by
  cases serveReader_ways h with
  | unsent h₁ h₂ h₃ h =>
    have hrest := ((discardToPool_foot.uncached rfl).trace h₂).append
      (((failReader_foot.uncached rfl).trace h₃).append (hfb.trace h))
    exact .inl (.cons rfl (((forwardAll_foot.uncached rfl).trace h₁).append (.cons rfl hrest)))
  | lost h₁ ht h₂ h₃ =>
    have hrest := ((discardToPool_foot.uncached rfl).trace h₂).append
      ((failReader_foot.uncached rfl).trace h₃)
    exact .inl (.cons rfl (((forwardAll_foot.uncached rfl).trace h₁).append
      (((hrelay _).trace ht).append (.cons rfl hrest))))
  | panicked h₁ ht h₂ h₃ =>
    obtain ⟨rfl, -⟩ := releaseToPool_runs h₂
    have hs : Served addr ms relay store _ := .mk (p := p) h₁ ht h₃
    simpa using Or.inr hs
  | served h₁ ht h₂ h₃ =>
    obtain ⟨rfl, -⟩ := releaseToPool_runs h₂
    exact .inr (.mk (p := p) h₁ ht h₃)

theorem readOn_use (h : Runs (readOn addr ms breakOnSend relay store fb) tr ok) :
    UncachedTrace tr ∨ ∃ a, addr = some a ∧ Served a ms relay store tr := by
  cases readOn_ways h with
  | passed hk _ h => exact .inl ((hk.uncached rfl).append (hfb.trace h))
  | refused _ h₁ h =>
    exact .inl (.cons rfl (.cons rfl (.cons rfl
      (((failReader_foot.uncached rfl).trace h₁).append (hfb.trace h)))))
  | reached ha h =>
    rcases serveReader_use hrelay hfb h with hu | hs
    · exact .inl (.cons rfl (.cons rfl (.cons rfl hu)))
    · exact .inr ⟨_, ha, hs⟩

end ReadOn

def readerPools (tr : Trace Ans) : List PoolId :=
  tr.filterMap fun
    | ⟨.readerPool _, some p⟩ => some p
    | _ => none

def readerConns (tr : Trace Ans) : List ConnId :=
  (readerPools tr).flatMap fun p => (acquiredFrom p tr).filterMap id

theorem mem_readerPools : p ∈ readerPools tr ↔ ∃ addr, ⟨.readerPool addr, some p⟩ ∈ tr := by
  unfold readerPools
  rw [List.mem_filterMap]
  constructor
  · rintro ⟨e, he, hp⟩
    split at hp
    · cases hp
      exact ⟨_, he⟩
    · cases hp
  · rintro ⟨addr, h⟩
    exact ⟨_, h, rfl⟩

theorem mem_readerConns : c ∈ readerConns tr ↔
    ∃ addr p, ⟨.readerPool addr, some p⟩ ∈ tr ∧ ⟨.acquire p, some c⟩ ∈ tr := by
  simp only [readerConns, List.mem_flatMap, mem_readerPools, acquiredFrom, List.mem_filterMap,
    mem_answers, id_eq, exists_eq_right]
  constructor
  · rintro ⟨p, ⟨addr, ha⟩, hc⟩
    exact ⟨addr, p, ha, hc⟩
  · rintro ⟨addr, p, ha, hc⟩
    exact ⟨p, ⟨addr, ha⟩, hc⟩

def FromReader (data : Bytes) (tr : Trace Ans) : Prop :=
  ⟨.queryCache, true⟩ ∈ tr ∧ ∃ c ∈ readerConns tr, ∃ cfg : Config, ⟨.config, cfg⟩ ∈ tr ∧
    Collected cfg.maxResultSize c 1 (some data) tr

theorem FromReader.after (h : FromReader data tr) (hr : ∀ c, readsOn c t₀ = []) :
    FromReader data (t₀ ++ tr) := by
  obtain ⟨hc, c, hmem, cfg, hcfg, hI⟩ := h
  obtain ⟨addr, p, hp, ha⟩ := mem_readerConns.mp hmem
  refine ⟨by simp [hc], c, mem_readerConns.mpr ⟨addr, p, by simp [hp], by simp [ha]⟩, cfg,
    by simp [hcfg], hI.congr ?_⟩
  rw [readsOn_append, hr, List.nil_append]

def StoresOnly (store : Option Bytes → Proc Bool) : Prop :=
  ∀ data t kept, Runs (store data) t kept → (∀ c, readsOn c t = []) ∧
    ∀ key d tables, ⟨.cacheSet key d tables, ()⟩ ∈ t → data = some d

theorem Served.stored (h : Served addr ms relayCached store tr) (hstore : StoresOnly store)
    (hm : ⟨.cacheSet key data tables, ()⟩ ∈ tr) : FromReader data tr ∧
      ∃ t kept, Runs (store (some data)) t kept ∧ ⟨.cacheSet key data tables, ()⟩ ∈ t := by
  cases h with
  | mk h₁ h₂ h₃ =>
    rename_i c t₁ t₂ data' t₃ kept p
    have hu₁ := (forwardAll_foot.uncached rfl).trace h₁
    have hu₂ := (relayCached_foot.uncached rfl).trace h₂
    obtain ⟨hreads, hset⟩ := hstore _ _ _ h₃
    have hin : ⟨.cacheSet key data tables, ()⟩ ∈ t₃ := by
      simp only [List.mem_append, List.mem_cons, List.not_mem_nil, or_false] at hm
      rcases hm with hm | hm | hm | hm | hm | hm | hm
      · rcases hm with hm | hm | hm | hm <;> cases hm
      · exact absurd (hu₁ _ hm) (by simp [Op.cacheCall])
      · exact absurd (hu₂ _ hm) (by simp [Op.cacheCall])
      · cases hm
      · cases hm
      · exact hm
      · split at hm
        · cases List.mem_singleton.mp hm
        · cases hm
    obtain rfl := hset _ _ _ hin
    obtain ⟨hc, cfg, hcfg, hI⟩ := relayCached_collected h₂
    refine ⟨⟨by simp [hc], c, mem_readerConns.mpr ⟨addr, p, by simp, by simp⟩, cfg, by simp [hcfg],
      hI.congr ?_⟩, t₃, kept, h₃, hin⟩
    cases kept <;> simp [readsOn_skip, forwardAll_writes h₁, hreads]

theorem storeRead_storesOnly (hpq : TreeOf query pq) : StoresOnly (storeRead query pq dbName) := by
  intro data t kept h
  refine ⟨fun c => (storeRead_foot.quiet rfl).readsOn h, fun key d tables hm => ?_⟩
  rcases storeRead_stores h hpq with hi | ⟨d', rfl, hs⟩
  · exact (hi.uncached.no_set hm).elim
  · rw [hs.data_eq hm]

theorem storeBatch_storesOnly : StoresOnly (storeBatch buf dbName) := by
  intro data t kept h
  refine ⟨fun c => (storeBatch_foot.quiet rfl).readsOn h, fun key d tables hm => ?_⟩
  rcases storeBatch_stores h with hi | ⟨d', query, rfl, -, hs⟩
  · exact (hi.uncached.no_set hm).elim
  · rw [hs.data_eq hm]

/-- A read path: a hit in the cache is sent, otherwise the messages are served. -/
inductive ReadUse (look : Trace Ans → Option Bytes → Prop) (pick : Option Addr → Trace Ans)
    (ms : List Message) (store : Option Bytes → Proc Bool) : Trace Ans → Prop
  | hit : look t (some data) → ReadUse look pick ms store (t ++ [⟨.sendCached data, ok⟩])
  | passed (addr : Option Addr) :
      look t none → UncachedTrace t' → ReadUse look pick ms store (t ++ (pick addr ++ t'))
  | served : look t none → Served addr ms relayCached store t' →
      ReadUse look pick ms store (t ++ (pick (some addr) ++ t'))

theorem pickReader_idle : IdleTrace (pickReader cfg s addr) := pickReader_kinds.idle rfl

theorem CachedWays.use (h : CachedWays lookup pick ms breakOnSend store fb tr ok)
    (hlook : ∀ t x, Runs lookup t x → look t x) (hfb : Uncached fb) :
    ReadUse look pick ms store tr := by
  cases h with
  | hit h₁ => exact .hit (hlook _ _ h₁)
  | missed h₁ h =>
    rcases readOn_use (fun _ => relayCached_foot.uncached rfl) hfb h with hu | ⟨a, rfl, hs⟩
    · exact .passed _ (hlook _ _ h₁) hu
    · exact .served (hlook _ _ h₁) hs

theorem handleReadQueryTraced_use
    (h : Runs (handleReadQueryTraced msg query s pq cfg dbName) tr ok) (hpq : TreeOf query pq) :
    ReadUse (LooksUp query dbName 0) (pickReader cfg s) [msg] (storeRead query pq dbName) tr :=
  (handleReadQueryTraced_ways h).use (fun _ _ h => lookupRead_looksUp h hpq)
    (fallback_foot.uncached rfl)

def BatchLooksUp (buf : List Message) (dbName : Bytes) (t : Trace Ans) (x : Option Bytes) : Prop :=
  (batchCacheText buf = none ∧ t = [] ∧ x = none) ∨
    ∃ query, batchCacheText buf = some query ∧ LooksUp query dbName nsExtended t x

theorem handleExtendedRead_use (h : Runs (handleExtendedRead buf syncMsg addr dbName) tr ok) :
    ReadUse (BatchLooksUp buf dbName) (fun _ => []) (buf ++ [syncMsg]) (storeBatch buf dbName)
      tr :=
  (handleExtendedRead_ways h).use (fun _ _ h => lookupBatch_looksUp h)
    (fallback_foot.uncached rfl)

def LooksOnly (look : Trace Ans → Option Bytes → Prop) : Prop :=
  ∀ t x, look t x → (∀ c, readsOn c t = []) ∧
    ∀ key data tables, ⟨.cacheSet key data tables, ()⟩ ∉ t

theorem looksUp_looksOnly : LooksOnly (LooksUp query dbName ns) := by
  intro t x h
  cases h with
  | off => exact ⟨fun c => readsOn_of_not (by simp), by simp⟩
  | on hi =>
    constructor
    · intro c
      rw [readsOn_skip (by simp), readsOn_append, hi.readsOn]
      exact readsOn_skip (by simp) _
    · intro key data tables hm
      simp only [List.mem_cons, List.mem_append, List.not_mem_nil, or_false] at hm
      rcases hm with hm | hm | hm
      · cases hm
      · exact absurd (hi _ hm).2 (by simp [Op.cacheCall])
      · cases hm

theorem batchLooksUp_looksOnly : LooksOnly (BatchLooksUp buf dbName) := by
  rintro t x (⟨-, rfl, -⟩ | ⟨query, -, hl⟩)
  · exact ⟨fun _ => rfl, by simp⟩
  · exact looksUp_looksOnly t x hl

theorem ReadUse.stored (h : ReadUse look pick ms store tr) (hlook : LooksOnly look)
    (hpick : ∀ addr, IdleTrace (pick addr)) (hstore : StoresOnly store)
    (hm : ⟨.cacheSet key data tables, ()⟩ ∈ tr) :
    FromReader data tr ∧
      ∃ t kept, Runs (store (some data)) t kept ∧ ⟨.cacheSet key data tables, ()⟩ ∈ t := by
  cases h with
  | hit hl =>
    rcases List.mem_append.mp hm with hm | hm
    · exact ((hlook _ _ hl).2 _ _ _ hm).elim
    · simp at hm
  | passed addr hl hu =>
    rcases List.mem_append.mp hm with hm | hm
    · exact ((hlook _ _ hl).2 _ _ _ hm).elim
    · exact absurd (((hpick _).uncached.append hu) _ hm) (by simp [Op.cacheCall])
  | served hl hs =>
    obtain ⟨hreads, hset⟩ := hlook _ _ hl
    rcases List.mem_append.mp hm with hm | hm
    · exact (hset _ _ _ hm).elim
    rcases List.mem_append.mp hm with hm | hm
    · exact absurd (hpick _ _ hm).2 (by simp [Op.cacheCall])
    · obtain ⟨hf, hst⟩ := hs.stored hstore hm
      exact ⟨(hf.after fun _ => (hpick _).readsOn).after hreads, hst⟩

end Stored

end Pgmux
