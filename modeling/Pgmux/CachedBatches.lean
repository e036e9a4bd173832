import Pgmux.BatchScript
import Pgmux.BatchWriter
import Pgmux.Stored

namespace Pgmux

open Interaction

section CachedBatches

variable [External]

def StoresBatch (D : FixedBackend) (k : Names) (b : List Message) (dbName : Bytes) (key : UInt64)
    (data : Bytes) : Prop :=
  ∃ syncMsg addr tr ok tables, Runs (handleExtendedRead b syncMsg addr dbName) tr ok ∧
    (∀ c ∈ readerConns tr, readsOn c tr = D.respond (script k b)) ∧
    ⟨.cacheSet key data tables, ()⟩ ∈ tr

def ServesBatch (b : List Message) (dbName : Bytes) (key : UInt64) (data : Bytes) : Prop :=
  ∃ syncMsg addr tr ok, Runs (handleExtendedRead b syncMsg addr dbName) tr ok ∧
    ⟨.cacheGet key, some data⟩ ∈ tr ∧ ⟨.sendCached data, ok⟩ ∈ tr

def AnswersFor (D : FixedBackend) (dbName : Bytes) (k : Names) (b : List Message) (k' : Names)
    (b' : List Message) : Prop :=
  ∀ key data, StoresBatch D k b dbName key data → ServesBatch b' dbName key data →
    data = raws (D.respond (script k' b'))

theorem StoresBatch.data_eq (h : StoresBatch D k b dbName key data) :
    data = raws (D.respond (script k b)) := by
  obtain ⟨syncMsg, addr, tr, ok, tables, hr, hreads, hm⟩ := h
  obtain ⟨⟨-, c, hc, cfg, -, hI⟩, -⟩ := (handleExtendedRead_use hr).stored batchLooksUp_looksOnly
    (fun _ => .nil) storeBatch_storesOnly hm
  rw [← hreads c hc]
  exact (hI data rfl).1

def relayedAll (c : ConnId) (ms : List Message) : Trace Ans :=
  ms.flatMap fun m => [⟨.read c, some m⟩, ⟨.sendClient m, true⟩]

theorem readsOn_relayedAll (c : ConnId) (ms : List Message) : readsOn c (relayedAll c ms) = ms := by
  induction ms with
  | nil => rfl
  | cons m ms ih =>
    change readsOn c (⟨.read c, some m⟩ :: ⟨.sendClient m, true⟩ :: relayedAll c ms) = _
    rw [readsOn_read, readsOn_skip (by simp), ih]

omit [External] in
theorem collect_unlimited (h : isCopyResponse m = false) (buf : Bytes) :
    collect 0 (some buf) m = some (buf ++ m.raw) := by
  simp [collect, h]

theorem runs_relayAndCollect {cfg : Config} (hcfg : cfg.maxResultSize = 0) (c : ConnId)
    (hms : ∀ m ∈ ms, m.type ≠ msgReadyForQuery ∧ isCopyResponse m = false ∧
      m.payload.length ≤ maxMessageSize)
    (hz : z.type = msgReadyForQuery) (hzs : z.payload.length ≤ maxMessageSize) :
    Runs (relayAndCollect c) (⟨.config, cfg⟩ :: relayedAll c (ms ++ [z]))
      (some (some (raws (ms ++ [z])))) := by
  refine runs_perform_bind.mpr ⟨cfg, _, ?_, rfl⟩
  rw [hcfg]
  suffices hall : ∀ buf, Runs (iterate (fun buf : Option Bytes => relayRound c (collect 0 buf)
      (fun m => some (collect 0 buf m)) none) (some buf)) (relayedAll c (ms ++ [z]))
      (some (some (buf ++ raws (ms ++ [z])))) from hall []
  induction ms with
  | nil =>
    intro buf
    have hcopy : isCopyResponse z = false := by simp [isCopyResponse, hz]; decide
    have hround : Runs (relayRound c (collect 0 (some buf)) (fun m => some (collect 0 (some buf) m))
        none) [⟨.read c, some z⟩, ⟨.sendClient z, true⟩]
        (.inr (some (some (buf ++ raws ([] ++ [z]))))) := by
      refine runs_perform_bind.mpr ⟨some z, _, ?_, rfl⟩
      rw [accepted_eq_some.mpr ⟨rfl, hzs⟩]
      refine runs_perform_bind.mpr ⟨true, [], ?_, rfl⟩
      rw [if_pos rfl, if_pos hz]
      dsimp only
      rw [collect_unlimited hcopy]
      simp [raws]
    exact .leave hround .ret
  | cons m ms ih =>
    intro buf
    obtain ⟨hm, hcopy, hsize⟩ := hms m (.head _)
    have hround : Runs (relayRound c (collect 0 (some buf)) (fun m => some (collect 0 (some buf) m))
        none) [⟨.read c, some m⟩, ⟨.sendClient m, true⟩] (.inl (some (buf ++ m.raw))) := by
      refine runs_perform_bind.mpr ⟨some m, _, ?_, rfl⟩
      rw [accepted_eq_some.mpr ⟨rfl, hsize⟩]
      refine runs_perform_bind.mpr ⟨true, [], ?_, rfl⟩
      rw [if_pos rfl, if_neg hm]
      have hnc : ¬ (m.type = msgCopyInResponse ∨ m.type = msgCopyOutResponse ∨
          m.type = msgCopyBothResponse) := by simpa [isCopyResponse] using hcopy
      rw [not_or, not_or] at hnc
      rw [relayCopy, if_neg hnc.1, if_neg hnc.2.1, if_neg hnc.2.2, collect_unlimited hcopy]
      exact .ret
    have hlater := ih (fun m' h' => hms m' (.tail _ h')) (buf ++ m.raw)
    rw [List.append_assoc, ← raws_cons] at hlater
    exact .again hround hlater

def unlimited (ast : Bool) : Config := { defaultConfig with astParser := ast }

def servedTrace (c : ConnId) (cfg cfg' : Config) (key : UInt64) (b ms : List Message)
    (tables : List Bytes) : Trace Ans :=
  [⟨.queryCache, true⟩, ⟨.config, cfg⟩, ⟨.cacheGet key, none⟩] ++
    ⟨.readerAllow [], true⟩ :: ⟨.readerPool [], some 0⟩ :: ⟨.acquire 0, some c⟩ ::
      ⟨.setCancel [] c, ()⟩ :: (sentAll c b ++ (⟨.queryCache, true⟩ :: ⟨.config, cfg⟩ ::
        relayedAll c ms ++ ⟨.clearCancel, ()⟩ :: ⟨.release (some 0) c, ()⟩ ::
          ([⟨.config, cfg⟩, ⟨.config, cfg'⟩, ⟨.cacheSet key (raws ms) tables, ()⟩] ++
            [⟨.readerRecord [] true, ()⟩])))

theorem readsOn_servedTrace : readsOn c (servedTrace c cfg cfg' key b ms tables) = ms := by
  have hsent : readsOn c (sentAll c b) = [] := readsOn_of_not (by simp [sentAll])
  simp [servedTrace, readsOn_skip, hsent, readsOn_relayedAll]

theorem readerConns_servedTrace (h : c' ∈ readerConns (servedTrace c cfg cfg' key b ms tables)) :
    c' = c := by
  obtain ⟨_, _, -, ha⟩ := mem_readerConns.mp h
  simp [servedTrace, sentAll, relayedAll] at ha
  exact ha.2

/-- The tables that the text reads can be extracted, by the parser or from the words. -/
def Storable (query : Bytes) : Prop := ∃ ast, (readTables ast query).isSome

theorem storesBatch_of_response (hq : batchCacheText b = some query)
    (ht : readTables ast' query = some tables)
    (hresp : D.respond (script k b) = ms ++ [z]) (hz : z.type = msgReadyForQuery)
    (hzs : z.payload.length ≤ maxMessageSize)
    (hms : ∀ m ∈ ms, m.type ≠ msgReadyForQuery ∧ isCopyResponse m = false ∧
      m.payload.length ≤ maxMessageSize) :
    StoresBatch D k b dbName (textKey ast query dbName ^^^ nsExtended)
      (raws (D.respond (script k b))) := by
  have hrun : Runs (handleExtendedRead b ⟨msgSync, []⟩ (some []) dbName)
      (servedTrace 7 (unlimited ast) (unlimited ast') (textKey ast query dbName ^^^ nsExtended)
        (b ++ [⟨msgSync, []⟩]) (ms ++ [z]) tables) true := by
    refine runs_bind.mpr ⟨_, none, _, ?_, ?_, rfl⟩
    · unfold lookupBatch
      rw [hq]
      exact .call (.call (.call .ret))
    · refine runs_perform_bind.mpr ⟨true, _, ?_, rfl⟩
      refine runs_perform_bind.mpr ⟨some 0, _, ?_, rfl⟩
      refine runs_perform_bind.mpr ⟨some 7, _, ?_, rfl⟩
      refine runs_perform_bind.mpr ⟨(), _, ?_, rfl⟩
      refine runs_bind.mpr ⟨_, true, _, runs_forwardAll 7 _, ?_, rfl⟩
      refine runs_bind.mpr ⟨_, some (some (raws (ms ++ [z]))), _, ?_, ?_, rfl⟩
      · exact .call (runs_relayAndCollect rfl 7 hms hz hzs)
      · refine runs_perform_bind.mpr ⟨(), _, ?_, rfl⟩
        refine runs_bind.mpr ⟨_, true, _, runs_perform_bind.mpr ⟨(), [], .ret, rfl⟩, ?_, rfl⟩
        refine runs_bind.mpr ⟨[⟨.config, unlimited ast⟩, ⟨.config, unlimited ast'⟩, _], true, _, ?_,
          runs_perform_bind.mpr ⟨(), [], .ret, rfl⟩, rfl⟩
        unfold storeBatch
        rw [hq]
        refine .call (.call ?_)
        change Runs (storeTables _ _ (readTables ast' query)) _ _
        rw [ht]
        exact .call .ret
  refine ⟨_, _, _, _, tables, hrun, ?_, ?_⟩
  · intro c hc
    rw [readerConns_servedTrace hc, readsOn_servedTrace, hresp]
  · rw [hresp]
    simp [servedTrace]

theorem servesBatch_of_key (hq : batchCacheText b = some query) :
    ServesBatch b dbName (textKey ast query dbName ^^^ nsExtended) data := by
  have hrun : Runs (handleExtendedRead b ⟨msgSync, []⟩ none dbName)
      ([⟨.queryCache, true⟩, ⟨.config, unlimited ast⟩,
        ⟨.cacheGet (textKey ast query dbName ^^^ nsExtended), some data⟩] ++
          [⟨.sendCached data, true⟩]) true := by
    refine runs_bind.mpr ⟨_, some data, _, ?_, .call .ret, rfl⟩
    unfold lookupBatch
    rw [hq]
    exact .call (.call (.call .ret))
  exact ⟨_, _, _, true, hrun, by simp, by simp⟩

theorem StoresBatch.storable (h : StoresBatch D k b dbName key data)
    (hq : batchCacheText b = some query) : Storable query := by
  obtain ⟨syncMsg, addr, tr, ok, tables, hr, -, hm⟩ := h
  obtain ⟨-, t, kept, hr, hm⟩ := (handleExtendedRead_use hr).stored batchLooksUp_looksOnly
    (fun _ => .nil) storeBatch_storesOnly hm
  rcases storeBatch_stores hr with hi | ⟨d, query', -, hq', hs⟩
  · exact (hi.uncached.no_set hm).elim
  · obtain rfl := Option.some.inj (hq.symm.trans hq')
    cases hs with
    | mk _ _ _ ht => exact ⟨_, Option.isSome_of_eq_some ht⟩

theorem script_eq_of_answersFor (hq : batchCacheText b = some query)
    (hq' : batchCacheText b' = some query')
    (hkey : textKey ast query dbName = textKey ast query' dbName) (hs : Storable query)
    (h : ∀ D, AnswersFor D dbName k b k' b') : script k b = script k' b' := by
  obtain ⟨ast', ht⟩ := hs
  obtain ⟨tables, ht⟩ := Option.isSome_iff_exists.mp ht
  have hsame : ∀ s, (FixedBackend.following s).respond (script k b) =
      (FixedBackend.following s).respond (script k' b') := by
    intro s
    obtain ⟨ms, z, hrun, hz, hzs, hms⟩ := FixedBackend.run_following (s := s)
      (script k b).refused [] (script k b).actions
    obtain ⟨ms', z', hrun', -, hzs', hms'⟩ := FixedBackend.run_following (s := s)
      (script k' b').refused [] (script k' b').actions
    have hstore : StoresBatch (FixedBackend.following s) k b dbName
        (textKey ast query dbName ^^^ nsExtended)
        (raws ((FixedBackend.following s).respond (script k b))) :=
      storesBatch_of_response hq ht hrun hz hzs hms
    have hserve : ServesBatch b' dbName (textKey ast query dbName ^^^ nsExtended)
        (raws ((FixedBackend.following s).respond (script k b))) := by
      rw [hkey]
      exact servesBatch_of_key hq'
    have hraws := h _ _ _ hstore hserve
    refine raws_inj_of_short hraws ?_ ?_
    · rw [show (FixedBackend.following s).respond (script k b) = _ from hrun]
      intro m hm
      rcases List.mem_append.mp hm with hm | hm
      · exact Message.short_of_size (hms m hm).2.2
      · rw [List.mem_singleton.mp hm]
        exact Message.short_of_size hzs
    · rw [show (FixedBackend.following s).respond (script k' b') = _ from hrun']
      intro m hm
      rcases List.mem_append.mp hm with hm | hm
      · exact Message.short_of_size (hms' m hm).2.2
      · rw [List.mem_singleton.mp hm]
        exact Message.short_of_size hzs'
  exact FixedBackend.script_ext (hsame _) (hsame _)

/-- Two batches of one database with one key in the cache: what it has of the first is the response
of every backend to the second, if and only if the first is never stored or they ask for the same
actions. -/
theorem answersFor_iff (hq : batchCacheText b = some query)
    (hq' : batchCacheText b' = some query')
    (hkey : textKey ast query dbName = textKey ast query' dbName) :
    (∀ D, AnswersFor D dbName k b k' b') ↔ (Storable query → script k b = script k' b') := by
  constructor
  · exact fun h hs => script_eq_of_answersFor hq hq' hkey hs h
  · intro hs D key data hstore _
    rw [← hs (hstore.storable hq)]
    exact hstore.data_eq

end CachedBatches

def describeMessage (name : Bytes) : Message := ⟨msgDescribe, 'S'.toUInt8 :: name ++ [0]⟩

def selectOne : Bytes := ascii "SELECT 1"

def noNames : Names := .start fun _ => none

theorem answersFor_renamed : ∃ _ : External, ∀ D, AnswersFor D []
    noNames [parseMessage [] selectOne, bindMessage [], executeMessage]
    noNames [parseMessage (ascii "s") selectOne, bindMessage (ascii "s"), executeMessage] := by
  let _ := asciiExternal
  have hq : batchCacheText [parseMessage [] selectOne, bindMessage [], executeMessage] =
      some selectOne := by decide
  have hq' : batchCacheText
      [parseMessage (ascii "s") selectOne, bindMessage (ascii "s"), executeMessage] =
      some selectOne := by decide
  have hkey : textKey false selectOne [] = textKey false selectOne [] := rfl
  exact ⟨_, (answersFor_iff hq hq' hkey).mpr fun _ => by decide⟩

/-- A batch with a Describe is answered with the response to a batch without one. -/
theorem described_batch_misanswered : ∃ _ : External, ∃ D, ¬ AnswersFor D []
    noNames [parseMessage [] selectOne, bindMessage [], executeMessage]
    noNames [parseMessage [] selectOne, describeMessage [], bindMessage [], executeMessage] := by
  let _ := asciiExternal
  have hq : batchCacheText [parseMessage [] selectOne, bindMessage [], executeMessage] =
      some selectOne := by decide
  have hq' : batchCacheText
      [parseMessage [] selectOne, describeMessage [], bindMessage [], executeMessage] =
      some selectOne := by decide
  have hkey : textKey false selectOne [] = textKey false selectOne [] := rfl
  refine ⟨asciiExternal, ?_⟩
  by_contra hn
  have hs := script_eq_of_answersFor hq hq' hkey ⟨false, by decide +kernel⟩ fun D =>
    not_not.mp fun h => hn ⟨D, h⟩
  exact absurd hs (by decide)

end Pgmux
