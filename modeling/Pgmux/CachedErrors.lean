import Pgmux.CacheUsers
import Pgmux.Invalidation
import Pgmux.Readies
import Pgmux.Script

namespace Pgmux

open Interaction

section CachedErrors

variable [External] {st : Relay}

/-- The bytes are those of a response without errors, on the wire or as the document of the Data
API. -/
def ErrorFree (data : Bytes) : Prop :=
  ∃ ms, (data = raws ms ∨ data = External.responseJSON ms) ∧ ∀ m ∈ ms, m.type ≠ msgErrorResponse

def MayStore (st : Relay) (tr : Trace Ans) : Prop :=
  true ∈ answers .queryCache tr ∧ ∃ msg ∈ received tr,
    msg.type = msgQuery ∨ (msg.type = msgSync ∧ (batchCacheText st.extBuf).isSome = true)

instance (st : Relay) (tr : Trace Ans) : Decidable (MayStore st tr) :=
  inferInstanceAs (Decidable (_ ∧ ∃ _ ∈ received tr, _))

/-- A response of a reader with an error is larger than the limit for collecting it, or has a COPY
stream. -/
def ErrorsUncached (st : Relay) (tr : Trace Ans) : Prop :=
  MayStore st tr → ∀ c ∈ readerConns tr, (∃ m ∈ readsOn c tr, m.type = msgErrorResponse) →
    ∀ cfg ∈ configsSeen tr,
      Oversize cfg.maxResultSize (readsOn c tr) ∨ ∃ m ∈ readsOn c tr, isCopyResponse m = true

instance (st : Relay) (tr : Trace Ans) : Decidable (ErrorsUncached st tr) :=
  inferInstanceAs (Decidable (_ → ∀ _ ∈ readerConns tr, _))

theorem FromReader.errorFree (h : FromReader data tr) (hm : MayStore st tr)
    (hok : ErrorsUncached st tr) : ErrorFree data := by
  obtain ⟨-, c, hc, cfg, hcfg, hI⟩ := h
  obtain ⟨rfl, hcopy, hsize, -⟩ := hI data rfl
  refine ⟨_, .inl rfl, fun m hmem he => ?_⟩
  rcases hok hm c hc ⟨m, hmem, he⟩ cfg (mem_answers.mpr hcfg) with hover | ⟨m', hm', hc'⟩
  · exact hsize hover
  · exact absurd (hcopy m' hm') (by simp [hc'])

/-- What a round stores is what it has read from a reader, for a Query or for the Sync of a batch
that may be cached. -/
theorem relayStep_stored (h : Runs (relayStep st) tr r)
    (hm : ⟨.cacheSet key data tables, ()⟩ ∈ tr) : FromReader data tr ∧ MayStore st tr := by
  cases relayStep_use h with
  | none hu => exact (hu.no_set hm).elim
  | query hr ht hi htr hu =>
    rename_i msg t₀ t
    rw [htr] at hm
    replace hm := hi.uncached.set_behind hm
    have hfrom : FromReader data tr := by
      cases hu with
      | none hu => exact (hu.uncached.no_set hm).elim
      | read hi' hrt hx =>
        replace hm := hi'.uncached.set_behind hm
        obtain ⟨hs, -⟩ := (handleReadQueryTraced_use hx hrt.tree).stored looksUp_looksOnly
          (fun _ => pickReader_idle) (storeRead_storesOnly hrt.tree) hm
        rw [htr]
        exact (hs.after fun _ => hi'.readsOn).after fun _ => hi.readsOn
      | write hi' hrt _ hu₁ hx hu₂ =>
        replace hm := hi'.uncached.set_behind hm
        replace hm := hu₁.uncached.set_behind hm
        replace hm := (List.mem_append.mp hm).resolve_right hu₂.uncached.no_set
        exact (handleWriteQuery_no_set hx hrt.tree hm).elim
    exact ⟨hfrom, mem_answers.mpr hfrom.1, msg, hr, .inl ht⟩
  | sync hr ht hi htr hu =>
    rename_i msg t₀ t
    rw [htr] at hm
    replace hm := hi.uncached.set_behind hm
    cases hu with
    | none hu => exact (hu.no_set hm).elim
    | read hi' _ _ _ hx =>
      replace hm := hi'.uncached.set_behind hm
      obtain ⟨hs, t', _, hst, hin⟩ := (handleExtendedRead_use hx).stored batchLooksUp_looksOnly
        (fun _ => .nil) storeBatch_storesOnly hm
      have hfrom : FromReader data tr := by
        rw [htr]
        exact (hs.after fun _ => hi'.readsOn).after fun _ => hi.readsOn
      have htext : (batchCacheText st.extBuf).isSome = true := by
        rcases storeBatch_stores hst with hi | ⟨_, query, -, hq, -⟩
        · exact (hi.uncached.no_set hin).elim
        · rw [hq]
          rfl
      exact ⟨hfrom, mem_answers.mpr hfrom.1, msg, hr, .inr ⟨ht, htext⟩⟩

theorem relayStep_errorFree (h : Runs (relayStep st) tr r) (hok : ErrorsUncached st tr)
    (hm : ⟨.cacheSet key data tables, ()⟩ ∈ tr) : ErrorFree data := by
  obtain ⟨hfrom, hstore⟩ := relayStep_stored h hm
  exact hfrom.errorFree hstore hok

theorem querySQL_document (h : Runs (querySQL dbName sql) tr r)
    (hm : ⟨.cacheSet key data tables, ()⟩ ∈ tr) :
    ∃ ms, data = External.responseJSON ms ∧ ∀ m ∈ ms, m.type ≠ msgErrorResponse := by
  cases querySQL_use h with
  | none hu => exact (hu.no_set hm).elim
  | hit hu hl =>
    replace hm := hu.uncached.set_behind hm
    exact ((looksUp_looksOnly _ _ hl).2 _ _ _ hm).elim
  | passed hu hl hu' =>
    replace hm := hu.uncached.set_behind hm
    replace hm := (List.mem_append.mp hm).resolve_left ((looksUp_looksOnly _ _ hl).2 _ _ _)
    exact (hu'.no_set hm).elim
  | served hu hl hx hs =>
    replace hm := hu.uncached.set_behind hm
    replace hm := (List.mem_append.mp hm).resolve_left ((looksUp_looksOnly _ _ hl).2 _ _ _)
    simp only [List.mem_cons, List.mem_append] at hm
    rcases hm with hm | hm | hm | hm | hm
    · cases hm
    · cases hm
    · exact (((executeOnPool_foot.uncached rfl).trace hx).no_set hm).elim
    · cases hm
    · exact ⟨_, hs.data_eq hm, executeOnPool_errorFree hx⟩
  | write hu hx hpq hi =>
    replace hm := hu.uncached.set_behind hm
    replace hm := ((executeOnPool_foot.uncached rfl).trace hx).set_behind hm
    exact ((invalidateWrite_invalidates hi hpq).no_set hm).elim

theorem UserRun.errorFree (h : UserRun ErrorsUncached tr)
    (hm : ⟨.cacheSet key data tables, ()⟩ ∈ tr) : ErrorFree data := by
  rcases h.cached hm (by simp [Op.cacheCall]) with ⟨st, t, r, hok, hr, ht⟩ | ⟨_, _, t, r, hr, ht⟩
  · exact relayStep_errorFree hr hok ht
  · obtain ⟨ms, hms, hfree⟩ := querySQL_document hr ht
    exact ⟨ms, .inr hms, hfree⟩

/-- However the users of the cache interleave, a response in it holds one ReadyForQuery, unless it
is a document of the Data API. -/
theorem cache_oneReady {I M : Type} [DecidableEq I] {history : List (Happening I M)}
    {e : CacheEntry} (h : CacheUsers (fun _ tr => ∀ c, ∀ m ∈ readsOn c tr, m.Short) history)
    (he : e ∈ ((Cache.new maxEntries ttl maxSize).after (cacheCalls history)).entries) :
    readiesIn e.result = 1 ∨ ∃ ms, e.result = External.responseJSON ms := by
  obtain ⟨tr, hrun, hm⟩ := h.entry rfl he
  rcases hrun.cached hm (by simp [Op.cacheCall]) with ⟨_, t, r, hs, hr, ht⟩ | ⟨_, _, t, r, hr, ht⟩
  · obtain ⟨⟨-, c, -, cfg, -, hI⟩, -⟩ := relayStep_stored hr ht
    obtain ⟨hdata, -, -, hone⟩ := hI _ rfl
    rw [hdata, readiesIn_raws (hs c), hone]
    exact .inl rfl
  · obtain ⟨ms, hms, -⟩ := querySQL_document hr ht
    exact .inr ⟨ms, hms⟩

/-- However the users of the cache interleave, it holds no response with an error, when responses
with errors are too large to be collected or have a COPY stream. -/
theorem cache_errorFree {I M : Type} [DecidableEq I] {history : List (Happening I M)}
    {e : CacheEntry} (h : CacheUsers ErrorsUncached history)
    (he : e ∈ ((Cache.new maxEntries ttl maxSize).after (cacheCalls history)).entries) :
    ErrorFree e.result := by
  obtain ⟨tr, hrun, hm⟩ := h.entry rfl he
  exact hrun.errorFree hm

end CachedErrors

theorem cache_errorFree_select : ∃ (_ : External) (history : List (Happening Unit Empty))
    (e : CacheEntry), CacheUsers ErrorsUncached history ∧
      e ∈ ((Cache.new 0 60 0).after (cacheCalls history)).entries ∧ ErrorFree e.result := by
  let _ := asciiExternal
  obtain ⟨session, rs, t, h, hc⟩ := Script.playWith_check (n := 60)
    (s := { Script.simple [queryMessage (ascii "SELECT 1")] [readyMessage] with
      reader := some (ascii "r") })
    (f := fun rs t => decide (∀ r ∈ rs, ErrorsUncached r.1 r.2) &&
      (((Cache.new 0 60 0).after (cacheCalls (soleUser (flat rs ++ t) :
        List (Happening Unit Empty)))).entries ≠ []))
    (show (Script.playWith Script.cachingAnswer _ _).any _ = true by decide +kernel)
  simp only [Bool.and_eq_true, decide_eq_true_eq] at hc
  obtain ⟨e, he⟩ := List.exists_mem_of_ne_nil _ hc.2
  have hu := cacheUsers_sole (M := Empty) (.session h hc.1)
  exact ⟨asciiExternal, _, e, hu, he, cache_errorFree hu he⟩

/-- A response with an error is cached. -/
theorem error_response_cached : ∃ (_ : External) (history : List (Happening Unit Empty))
    (e : CacheEntry), CacheUsers (fun _ _ => True) history ∧
      e ∈ ((Cache.new 0 60 0).after (cacheCalls history)).entries ∧ ¬ ErrorFree e.result := by
  let _ := asciiExternal
  obtain ⟨session, rs, t, h, hc⟩ := Script.playWith_check (n := 60)
    (s := { Script.simple [queryMessage (ascii "SELECT 1")] [errorMessage, readyMessage] with
      reader := some (ascii "r") })
    (f := fun rs t => decide (∃ e ∈ ((Cache.new 0 60 0).after (cacheCalls
      (soleUser (flat rs ++ t) : List (Happening Unit Empty)))).entries,
        e.result = raws [errorMessage, readyMessage]))
    (show (Script.playWith Script.cachingAnswer _ _).any _ = true by decide +kernel)
  obtain ⟨e, he, hres⟩ := of_decide_eq_true hc
  refine ⟨asciiExternal, _, e, cacheUsers_sole (.session h fun _ _ => trivial), he, ?_⟩
  rw [hres]
  rintro ⟨ms, hms | hms, hfree⟩
  · have hms' := raws_inj hms (by decide)
    exact hfree errorMessage (by simp [← hms']) rfl
  · cases hms

end Pgmux
