import Pgmux.Invalidation

namespace Pgmux

open Interaction

namespace Cache

variable {c : Cache} {e : CacheEntry}

def StoresAt (key : UInt64) : CacheCall → Prop
  | .set k _ _ => k = key
  | .flushAll => False
  | _ => True

theorem get_keeps {key : UInt64} (h : e ∈ c.entries) (hx : now ≤ e.expiresAt) :
    e ∈ (c.get now key).2.entries := by
  unfold get
  split
  · exact h
  · rename_i e₀ h₀
    split
    · rename_i hx₀
      refine mem_others.mpr ⟨h, ?_⟩
      intro hk
      rw [c.key_inj h (item_mem h₀) hk] at hx
      exact absurd hx₀ (Nat.not_lt.mpr hx)
    · by_cases hk : e.key = e₀.key
      · rw [c.key_inj h (item_mem h₀) hk]
        exact .head _
      · exact .tail _ (mem_others.mpr ⟨h, hk⟩)

theorem set_keeps {key : UInt64} (h : e ∈ c.entries) (hk : e.key ≠ key) (hm : c.maxEntries = 0) :
    e ∈ (c.set now key result tables).entries := by
  unfold set
  split
  · exact h
  · split
    · rename_i e₀ h₀
      refine .tail _ (mem_others.mpr ⟨h, ?_⟩)
      rw [item_key h₀]
      exact hk
    · refine .tail _ ?_
      rw [makeRoom, if_neg (by simp [hm])]
      exact h

def limits (c : Cache) : Int × Nat × Int := (c.maxEntries, c.ttl, c.maxSize)

theorem get_limits {key : UInt64} : (c.get now key).2.limits = c.limits := by
  unfold get
  split
  · rfl
  · split <;> rfl

theorem set_limits {key : UInt64} : (c.set now key result tables).limits = c.limits := by
  unfold set
  split
  · rfl
  · split
    · rfl
    · change c.makeRoom.limits = c.limits
      unfold makeRoom evictOldest
      split
      · split <;> rfl
      · rfl

theorem removeKeys_limits {keys : List UInt64} : (c.removeKeys keys).limits = c.limits := by
  unfold removeKeys
  induction keys generalizing c with
  | nil => rfl
  | cons key keys ih =>
    rw [List.foldl_cons, ih]
    unfold removeKey
    split <;> rfl

theorem call_limits : (c.call o).limits = c.limits := by
  obtain ⟨now, o⟩ := o
  cases o with
  | get => exact get_limits
  | set => exact set_limits
  | invalidateTable => exact removeKeys_limits
  | flushAll => rfl

theorem after_limits : (c.after calls).limits = c.limits := by
  induction calls generalizing c with
  | nil => rfl
  | cons o calls ih => exact ih.trans call_limits

theorem after_keeps {calls : List CacheCall} (h : e ∈ c.entries) (hm : c.limits.1 = 0)
    (hk : e.key ≠ key)
    (hs : ∀ o ∈ calls, StoresAt key o ∧ Spares e o) :
    e ∈ (c.after (calls.map fun o => (0, o))).entries := by
  induction calls generalizing c with
  | nil => exact h
  | cons o calls ih =>
    obtain ⟨ho, hspare⟩ := hs o (.head _)
    replace hs := fun o' h' => hs o' (.tail _ h')
    have hm' : (c.call (0, o)).limits.1 = 0 := by
      rw [call_limits]
      exact hm
    cases o with
    | get k => exact ih (get_keeps h (Nat.zero_le _)) hm' hs
    | set k result tables =>
      obtain rfl : k = key := ho
      exact ih (set_keeps h hk hm) hm' hs
    | invalidateTable table =>
      exact ih (mem_invalidateTable.mpr ⟨h, hspare⟩) hm' hs
    | flushAll => exact ho.elim

end Cache

/-- However the calls of others come between, every entry of the table that is in the cache in the
end was stored meanwhile. -/
def Invalidated (table : Bytes) (own : List CacheCall) : Prop :=
  ∀ (c : Cache) (calls : List (Nat × CacheCall)), own.Sublist (calls.map Prod.snd) →
    ∀ e ∈ (c.after calls).entries, table ∈ e.tables →
      ∃ o ∈ calls, o.2 = .set e.key e.result e.tables

theorem invalidated_of_mem (h : .invalidateTable table ∈ own) : Invalidated table own := by
  intro c calls hsub e he ht
  rcases Cache.origin he with ⟨-, hs⟩ | ⟨pre, now, post, rfl, -⟩
  · obtain ⟨o, ho, heq⟩ := List.mem_map.mp (hsub.subset h)
    have hspare := hs o ho
    rw [heq] at hspare
    exact (hspare ht).elim
  · exact ⟨(now, .set e.key e.result e.tables), by simp, rfl⟩

theorem mem_of_invalidated (h : Invalidated table own) (hs : ∀ o ∈ own, Cache.StoresAt key o) :
    .invalidateTable table ∈ own := by
  by_contra hn
  let old : CacheEntry := ⟨key + 1, [], [table], 0⟩
  let c := (Cache.new 0 0 0).set 0 (key + 1) [] [table]
  have hold : old ∈ c.entries := Cache.set_mem (by simp [Cache.tooLarge, Cache.new])
  have hkey : old.key ≠ key := by simp [old]
  have hkeep : old ∈ (c.after (own.map fun o => (0, o))).entries := by
    refine Cache.after_keeps hold (congrArg Prod.fst Cache.set_limits) hkey ?_
    intro o ho
    refine ⟨hs o ho, ?_⟩
    cases o with
    | get => trivial
    | set => trivial
    | invalidateTable t =>
      intro ht
      rw [List.mem_singleton.mp ht] at ho
      exact hn ho
    | flushAll => exact (hs _ ho).elim
  obtain ⟨o, ho, heq⟩ := h c (own.map fun o => (0, o)) (by simp [Function.comp_def]) old hkeep
    (List.mem_singleton_self _)
  obtain ⟨o', ho', rfl⟩ := List.mem_map.mp ho
  obtain rfl : o' = .set old.key [] [table] := heq
  exact hkey (hs _ ho')

def ReadCalls (key : UInt64) (calls : List CacheCall) : Prop :=
  ∀ o ∈ calls, (∃ k, o = .get k) ∨ ∃ data tables, o = .set key data tables

theorem ReadCalls.append (h₁ : ReadCalls key calls₁) (h₂ : ReadCalls key calls₂) :
    ReadCalls key (calls₁ ++ calls₂) := by
  exact List.forall_mem_append.mpr ⟨h₁, h₂⟩

theorem ReadCalls.not_invalidated (h : ReadCalls key calls) (hsub : own ⊆ calls) :
    ¬ Invalidated table own := by
  intro hinv
  have hm := mem_of_invalidated hinv (show ∀ o ∈ own, Cache.StoresAt key o by
    intro o ho
    rcases h o (hsub ho) with ⟨k, rfl⟩ | ⟨data, tables, rfl⟩
    · trivial
    · rfl)
  rcases h _ (hsub hm) with ⟨k, hk⟩ | ⟨data, tables, hk⟩
  · cases hk
  · cases hk

section Calls

variable [External] {st : Relay}

def ownCalls (tr : Trace Ans) : List CacheCall := tr.filterMap fun e => e.1.cacheCall

@[simp] theorem ownCalls_append (t₁ t₂ : Trace Ans) :
    ownCalls (t₁ ++ t₂) = ownCalls t₁ ++ ownCalls t₂ := List.filterMap_append

theorem UncachedTrace.ownCalls (h : UncachedTrace tr) : ownCalls tr = [] :=
  List.filterMap_eq_nil_iff.mpr h

theorem ownCalls_invalidations (tables : List Bytes) :
    ownCalls (invalidations tables) = tables.map .invalidateTable := by
  simp [ownCalls, invalidations, Op.cacheCall]

theorem UncachedTrace.readCalls (h : UncachedTrace tr) : ReadCalls key (Pgmux.ownCalls tr) := by
  intro o ho
  rw [h.ownCalls] at ho
  cases ho

theorem LooksUp.readCalls (h : LooksUp query dbName ns t x) : ReadCalls key (ownCalls t) := by
  cases h with
  | off => exact UncachedTrace.readCalls (.cons rfl IdleTrace.nil.uncached)
  | on hi =>
    rw [← List.cons_append, ownCalls_append]
    refine .append (UncachedTrace.readCalls (.cons rfl hi.uncached)) ?_
    intro o ho
    exact .inl ⟨_, List.mem_singleton.mp ho⟩

theorem Stores.readCalls (h : Stores query dbName ns data t) :
    ∃ key, ReadCalls key (ownCalls t) := by
  cases h with
  | @mk _ _ cfg _ hi =>
    refine ⟨textKey cfg.astParser query dbName ^^^ ns, ?_⟩
    rw [ownCalls_append]
    refine hi.uncached.readCalls.append ?_
    intro o ho
    exact .inr ⟨_, _, List.mem_singleton.mp ho⟩

theorem Served.readCalls (h : Served addr ms relayCached store tr)
    (hstore : ∀ data t kept, Runs (store data) t kept → ∃ key, ReadCalls key (ownCalls t)) :
    ∃ key, ReadCalls key (ownCalls tr) := by
  cases h with
  | mk h₁ h₂ h₃ =>
    rename_i c t₁ t₂ data t₃ kept p
    obtain ⟨key, hk⟩ := hstore _ _ _ h₃
    have hpre : UncachedTrace [⟨.readerAllow addr, true⟩, ⟨.readerPool addr, some p⟩,
        ⟨.acquire p, some c⟩, ⟨.setCancel addr c, ()⟩] := by simp [UncachedTrace, Op.cacheCall]
    have hmid : UncachedTrace [⟨.clearCancel, ()⟩, ⟨.release (some p) c, ()⟩] := by
      simp [UncachedTrace, Op.cacheCall]
    have hend : UncachedTrace (if kept then [⟨.readerRecord addr true, ()⟩] else []) := by
      cases kept <;> simp [UncachedTrace, Op.cacheCall]
    refine ⟨key, ?_⟩
    rw [show ∀ u : Trace Ans, ⟨.clearCancel, ()⟩ :: ⟨.release (some p) c, ()⟩ :: u =
      [⟨.clearCancel, ()⟩, ⟨.release (some p) c, ()⟩] ++ u from fun _ => rfl]
    simp only [ownCalls_append]
    exact hpre.readCalls.append (((forwardAll_foot.uncached rfl).trace h₁).readCalls.append
      (((relayCached_foot.uncached rfl).trace h₂).readCalls.append
        (hmid.readCalls.append (hk.append hend.readCalls))))

theorem ReadUse.readCalls (h : ReadUse look pick ms store tr)
    (hlook : ∀ key t x, look t x → ReadCalls key (ownCalls t))
    (hpick : ∀ addr, IdleTrace (pick addr))
    (hstore : ∀ data t kept, Runs (store data) t kept → ∃ key, ReadCalls key (ownCalls t)) :
    ∃ key, ReadCalls key (ownCalls tr) := by
  cases h with
  | hit hl =>
    refine ⟨0, ?_⟩
    rw [ownCalls_append]
    exact (hlook _ _ _ hl).append (UncachedTrace.readCalls (.cons rfl IdleTrace.nil.uncached))
  | passed addr hl hu =>
    refine ⟨0, ?_⟩
    rw [ownCalls_append, ownCalls_append]
    exact (hlook _ _ _ hl).append ((hpick _).uncached.readCalls.append hu.readCalls)
  | served hl hs =>
    obtain ⟨key, hk⟩ := hs.readCalls hstore
    refine ⟨key, ?_⟩
    rw [ownCalls_append, ownCalls_append]
    exact (hlook _ _ _ hl).append ((hpick _).uncached.readCalls.append hk)

theorem handleReadQueryTraced_readCalls
    (h : Runs (handleReadQueryTraced msg query s pq cfg dbName) tr ok) (hpq : TreeOf query pq) :
    ∃ key, ReadCalls key (ownCalls tr) := by
  refine (handleReadQueryTraced_use h hpq).readCalls (fun _ _ _ => LooksUp.readCalls)
    (fun _ => pickReader_idle) ?_
  intro data t kept ht
  rcases storeRead_stores ht hpq with hi | ⟨d, -, hs⟩
  · exact ⟨0, hi.uncached.readCalls⟩
  · exact hs.readCalls

theorem handleExtendedRead_readCalls
    (h : Runs (handleExtendedRead buf syncMsg addr dbName) tr ok) :
    ∃ key, ReadCalls key (ownCalls tr) := by
  refine (handleExtendedRead_use h).readCalls ?_ (fun _ => .nil) ?_
  · rintro key t x (⟨-, rfl, -⟩ | ⟨query, -, hl⟩)
    · exact IdleTrace.nil.uncached.readCalls
    · exact hl.readCalls
  · intro data t kept ht
    rcases storeBatch_stores ht with hi | ⟨d, query, -, -, hs⟩
    · exact ⟨0, hi.uncached.readCalls⟩
    · exact hs.readCalls

theorem sync_readCalls (h : Runs (relayStep st) tr r) (hm : received tr = some msg)
    (ht : msg.type = msgSync) : ∃ key, ReadCalls key (ownCalls tr) := by
  cases relayStep_use h with
  | none hu => exact ⟨0, hu.readCalls⟩
  | query hm' ht' =>
    obtain rfl := Option.some.inj (hm.symm.trans hm')
    exact absurd (ht.symm.trans ht') (by decide)
  | sync _ _ hi htr hu =>
    rw [htr, ownCalls_append]
    cases hu with
    | none hu => exact ⟨0, hi.uncached.readCalls.append hu.readCalls⟩
    | read hi' _ _ _ hx =>
      obtain ⟨key, hk⟩ := handleExtendedRead_readCalls hx
      rw [ownCalls_append]
      exact ⟨key, hi.uncached.readCalls.append (hi'.uncached.readCalls.append hk)⟩

end Calls

end Pgmux
