import Pgmux.Stored

namespace Pgmux

open Interaction

section ApiCache

variable [External]

theorem readResponse_errorFree (h : Runs (readResponse c) tr (.done ms)) :
    ∀ m ∈ ms, m.type ≠ msgErrorResponse := by
  obtain ⟨f, hf, hround⟩ := readResponse_rounds c
  rw [hf] at h
  obtain ⟨r, t, t', hI, hb, rfl⟩ := h.of_iterate
    (I := fun r _ => ∀ m ∈ r.messages, m.type ≠ msgErrorResponse) (by simp) (by
      intro r t t' r' hI hb
      generalize hx : Sum.inl r' = x at hb
      cases hround _ _ _ hb with
      | more _ he hadd =>
        cases hx
        rw [add_messages hadd]
        refine List.forall_mem_append.mpr ⟨hI, ?_⟩
        simp only [endsResult, Bool.or_eq_false_iff, decide_eq_false_iff_not] at he
        simpa using he.1.1
      | done => cases hx
      | panicked => cases hx
      | failed => cases hx)
  generalize hx : Sum.inr (Outcome.done ms) = x at hb
  cases hround _ _ _ hb with
  | more => cases hx
  | done =>
    cases hx
    exact hI
  | panicked => cases hx
  | failed => cases hx

theorem executeQuery_errorFree (h : Runs (executeQuery c sql) tr (.done ms)) :
    ∀ m ∈ ms, m.type ≠ msgErrorResponse := by
  unfold executeQuery at h
  split at h
  · exact readResponse_errorFree h
  · rw [runs_perform_bind] at h
    obtain ⟨ok, t, h, rfl⟩ := h
    cases ok with
    | true => exact readResponse_errorFree h
    | false => cases (runs_pure.mp h).2

theorem executeOnPool_errorFree (h : Runs (executeOnPool sql p) tr (.done ms)) :
    ∀ m ∈ ms, m.type ≠ msgErrorResponse := by
  generalize hr : Outcome.done ms = r at h
  cases executeOnPool_ways h with
  | refused => cases hr
  | panicked => cases hr
  | stopped => cases hr
  | unsent h₁ =>
    cases hr
    exact executeQuery_errorFree h₁
  | answered h₁ =>
    split at hr
    · cases hr
    · cases hr
      exact executeQuery_errorFree h₁

theorem lookupResponse_looksUp (h : Runs (lookupResponse sql pq dbName) t x)
    (hpq : TreeOf sql pq) : LooksUp sql dbName nsDataAPI t x := by
  unfold lookupResponse at h
  rw [runs_perform_bind] at h
  obtain ⟨cached, t, h, rfl⟩ := h
  cases cached with
  | false =>
    obtain ⟨rfl, rfl⟩ := runs_pure.mp h
    exact .off
  | true =>
    rw [if_pos rfl, runs_bind] at h
    obtain ⟨t₁, key, t₂, h₁, h, rfl⟩ := h
    obtain rfl := runs_perform.mp h
    obtain ⟨cfg, hcfg, rfl⟩ := cacheKeyParsed_key h₁ hpq
    exact .on ((cacheKeyParsed_foot.idle rfl).trace h₁) hcfg

theorem storeResponse_stores (h : Runs (storeResponse sql pq dbName ms) tr kept)
    (hpq : TreeOf sql pq) : UncachedTrace tr ∨
      ∃ t, tr = ⟨.queryCache, true⟩ :: t ∧
        Stores sql dbName nsDataAPI (External.responseJSON ms) t := by
  unfold storeResponse at h
  rw [runs_perform_bind] at h
  obtain ⟨cached, t, h, rfl⟩ := h
  cases cached with
  | false =>
    obtain ⟨rfl, -⟩ := runs_pure.mp h
    exact .inl (.cons rfl IdleTrace.nil.uncached)
  | true =>
    rw [if_pos rfl] at h
    obtain ⟨t₁, key, t₂, rfl, h₁, h⟩ := h.of_seq
    obtain ⟨t₃, tables, t₄, rfl, h₃, h⟩ := h.of_seq
    obtain ⟨cfg, hcfg, rfl⟩ := cacheKeyParsed_key h₁ hpq
    obtain ⟨cfg', hcfg', rfl⟩ := extractReadQueryTablesParsed_tables h₃ hpq
    exact (storeTables_stores ((cacheKeyParsed_foot.idle rfl).trace h₁) hcfg
      ((extractReadQueryTablesParsed_foot.idle rfl).trace h₃) hcfg' h).imp
        (fun hi => .cons rfl hi.uncached) fun hs => ⟨_, rfl, hs⟩

def Classified (sql : Bytes) (qtype : QueryType) (t : Trace Ans) : Prop :=
  UnsentTrace t ∧ ∃ cfg : Config, ⟨.config, cfg⟩ ∈ t ∧ classifyBy cfg.astParser sql = qtype

theorem Classified.uncached (h : Classified sql qtype t) : UncachedTrace t := h.1.uncached

inductive ApiCacheUse (sql dbName : Bytes) : Trace Ans → QueryResponse → Prop
  | none : UncachedTrace tr → (∀ ms, r ≠ .result ms) → ApiCacheUse sql dbName tr r
  | hit : Classified sql .read t₀ → LooksUp sql dbName nsDataAPI t (some json) →
      ApiCacheUse sql dbName (t₀ ++ t) r
  | passed : Classified sql .read t₀ → LooksUp sql dbName nsDataAPI t Option.none →
      UncachedTrace t' → ApiCacheUse sql dbName (t₀ ++ (t ++ t')) r
  | served : Classified sql .read t₀ → LooksUp sql dbName nsDataAPI t Option.none →
      Runs (executeOnPool sql rPool) t₁ (.done ms) →
      Stores sql dbName nsDataAPI (External.responseJSON ms) t₂ →
      ApiCacheUse sql dbName (t₀ ++ (t ++ (⟨.nextReader Option.none, some addr⟩ ::
        ⟨.readerPool addr, some rPool⟩ :: (t₁ ++ ⟨.queryCache, true⟩ :: t₂)))) r
  | write : Classified sql .write t₀ → Runs (executeOnPool sql p) t₁ (.done ms) → TreeOf sql pq →
      Runs (invalidateWrite sql pq .write) t₂ kept → ApiCacheUse sql dbName (t₀ ++ (t₁ ++ t₂)) r

theorem executeRead_use (h₀ : Classified sql .read t₀)
    (h : Runs (executeRead sql pq w dbName) tr x) (hpq : TreeOf sql pq) :
    ApiCacheUse sql dbName (t₀ ++ tr) r := by
  have hexec {p t rows} (h : Runs (executeOnPool sql p) t rows) : UncachedTrace t :=
    (executeOnPool_foot.uncached rfl).trace h
  cases executeRead_ways h with
  | hit h₁ => exact .hit h₀ (lookupResponse_looksUp h₁ hpq)
  | passed h₁ hk _ h₂ =>
    exact .passed h₀ (lookupResponse_looksUp h₁ hpq) ((hk.uncached rfl).append (hexec h₂))
  | panicked h₁ h₂ =>
    exact .passed h₀ (lookupResponse_looksUp h₁ hpq) (.cons rfl (.cons rfl (hexec h₂)))
  | failed h₁ h₂ h₃ =>
    exact .passed h₀ (lookupResponse_looksUp h₁ hpq)
      (.cons rfl (.cons rfl ((hexec h₂).append (.cons rfl (hexec h₃)))))
  | served h₁ h₂ h₃ =>
    have hl := lookupResponse_looksUp h₁ hpq
    rcases storeResponse_stores h₃ hpq with hu | ⟨t, rfl, hs⟩
    · exact .passed h₀ hl (.cons rfl (.cons rfl ((hexec h₂).append hu)))
    · exact .served h₀ hl h₂ hs

theorem executeWrite_use (h₀ : Classified sql .write t₀) (h : Runs (executeWrite sql pq w) tr x)
    (hpq : TreeOf sql pq) :
    ApiCacheUse sql dbName (t₀ ++ tr) x.reply := by
  obtain ⟨t₁, result, t₂, rfl, h₁, h⟩ := h.of_seq
  have hu := h₀.uncached.append ((executeOnPool_foot.uncached rfl).trace h₁)
  cases result with
  | panicked =>
    obtain ⟨rfl, rfl⟩ := runs_pure.mp h
    exact .none (by rwa [List.append_nil]) (by simp [Outcome.reply])
  | failed =>
    obtain ⟨rfl, rfl⟩ := runs_pure.mp h
    exact .none (by rwa [List.append_nil]) (by simp [Outcome.reply])
  | done ms =>
    obtain ⟨t₃, kept, t₄, h₃, h, rfl⟩ := h.of_bind
    obtain rfl : t₄ = [] := by cases kept <;> exact (runs_pure.mp h).1
    rw [List.append_nil]
    exact .write h₀ h₁ hpq h₃

theorem querySQL_use (h : Runs (querySQL dbName sql) tr r) : ApiCacheUse sql dbName tr r := by
  unfold querySQL at h
  rw [runs_perform_bind] at h
  obtain ⟨cfg, t, h, rfl⟩ := h
  split at h
  · obtain ⟨rfl, rfl⟩ := runs_pure.mp h
    exact .none (.cons rfl IdleTrace.nil.uncached) (by simp)
  dsimp only at h
  generalize hpq : (if cfg.astParser then PgQuery.parse sql else none) = pq at h
  have htree : TreeOf sql pq := by
    rintro tree rfl
    split at hpq
    · exact hpq
    · cases hpq
  split at h
  · obtain ⟨rfl, rfl⟩ := runs_pure.mp h
    exact .none (.cons rfl IdleTrace.nil.uncached) (by simp)
  rw [runs_bind] at h
  obtain ⟨t₁, qtype, t₂, h₁, h, rfl⟩ := h
  rw [runs_perform_bind] at h
  obtain ⟨w, t, h, rfl⟩ := h
  obtain ⟨cfg', hcfg, hq⟩ := classifyQueryParsed_type h₁ htree
  have h₀ : Classified sql qtype (⟨.config, cfg⟩ :: (t₁ ++ [⟨.writerPool, w⟩])) := by
    have hi := (classifyQueryParsed_foot.idle rfl).trace h₁
    refine ⟨?_, cfg', by simp [hcfg], hq.symm⟩
    exact List.forall_mem_cons.mpr ⟨by simp [Op.cacheCall],
      hi.unsent.append (by simp [UnsentTrace, Op.cacheCall])⟩
  have htr : ⟨.config, cfg⟩ :: (t₁ ++ ⟨.writerPool, w⟩ :: t) =
      (⟨.config, cfg⟩ :: (t₁ ++ [⟨.writerPool, w⟩])) ++ t := by simp
  rw [htr]
  cases qtype with
  | write =>
    obtain ⟨_, h₃, rfl⟩ := h.of_map
    exact executeWrite_use h₀ h₃ htree
  | read =>
    obtain ⟨_, h₃, -⟩ := h.of_map
    exact executeRead_use h₀ h₃ htree

end ApiCache

end Pgmux
