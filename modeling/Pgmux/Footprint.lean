import Pgmux.ConnTrace
import Pgmux.DataApi
import Pgmux.RelayLoop

namespace Pgmux

open Interaction

def Message.isReady (m : Message) : Bool := m.type = msgReadyForQuery

inductive OpKind where
  | look
  | ctx
  | mode
  | client
  | copy
  | send
  | ready
  | cached
  | breaker
  | mark
  | readerPool
  | pool
  | give
  | write
  | read
  | cache
  deriving DecidableEq

/-- What an operation touches. A ReadyForQuery is sent, or a cached response with one. -/
def Op.kind : Op → OpKind
  | .ctxDone => .ctx
  | .readClient => .client
  | .sendClient m => if m.isReady then .ready else .send
  | .sendCached _ => .cached
  | .schedule => .copy
  | .inMaintenance => .mode
  | .inReadOnly => .mode
  | .writerPool => .pool
  | .writerAllow => .breaker
  | .writerRecord _ => .breaker
  | .readerRecord _ _ => .mark
  | .readerPool _ => .readerPool
  | .markUnhealthy _ => .mark
  | .acquire _ => .pool
  | .release _ _ => .give
  | .discard _ _ => .give
  | .write _ _ => .write
  | .copyTo _ _ => .copy
  | .read _ => .read
  | .cacheGet _ => .cache
  | .cacheSet _ _ _ => .cache
  | .invalidateTable _ => .cache
  | _ => .look

section Footprint

variable [External] {ks ls : List OpKind}

/-- The program performs operations of these kinds only. -/
abbrev Footprint (ks : List OpKind) (p : Proc α) : Prop :=
  Within (fun o => ks.contains o.kind = true) p

theorem foot_ask (h : ks.contains o.kind) : Footprint ks (ask o) := within_perform h

theorem Footprint.wider {p : Proc α} (h : Footprint ks p) (hs : ks.all ls.contains) :
    Footprint ls p :=
  h.mono fun _ ho => List.all_eq_true.mp hs _ (List.contains_iff_mem.mp ho)

/-- A program has the properties of all operations that are not of the kinds it avoids. -/
theorem Footprint.avoids {p : Proc α} {P : Op → Prop} (h : Footprint ks p) (bad : List OpKind)
    (hs : ks.all (fun k => !bad.contains k))
    (hP : ∀ o : Op, bad.contains o.kind = false → P o) : Within P p := by
  refine h.mono fun o ho => hP o ?_
  simpa using List.all_eq_true.mp hs _ (List.contains_iff_mem.mp ho)

omit [External] in
theorem contains_send (hs : ks.contains .send) (hr : ks.contains .ready)
    (m : Message) : ks.contains (Op.sendClient m).kind = true := by
  cases hm : m.isReady with
  | true => simpa [Op.kind, hm] using hr
  | false => simpa [Op.kind, hm] using hs

abbrev relaying : List OpKind := [.read, .send, .ready, .client, .copy]

abbrev returning : List OpKind := [.look, .write, .read, .give]

abbrev exchanging : List OpKind := [.mark, .pool, .look, .write, .give] ++ relaying

abbrev serving : List OpKind := .readerPool :: exchanging

omit [External] in
theorem relayOps_foot (hs : relaying.all ks.contains) (c : ConnId) :
    RelayOps (fun o => ks.contains o.kind) c where
  read := List.all_eq_true.mp hs .read (by decide)
  send :=
    contains_send (List.all_eq_true.mp hs _ (by decide)) (List.all_eq_true.mp hs _ (by decide))
  client := List.all_eq_true.mp hs .client (by decide)
  copy _ := List.all_eq_true.mp hs .copy (by decide)
  schedule := List.all_eq_true.mp hs .copy (by decide)

theorem sendError_foot : Footprint [.send] (sendError text) :=
  .bind (foot_ask rfl) fun _ => within_pure _

theorem sendFatalWithCode_foot : Footprint [.send] (sendFatalWithCode code text) :=
  .bind (foot_ask rfl) fun _ => within_pure _

theorem sendReadyForQuery_foot : Footprint [.ready] (sendReadyForQuery b) :=
  .bind (foot_ask rfl) fun _ => within_pure _

theorem reject_foot : Footprint [.send, .ready] (reject text) :=
  .bind (sendError_foot.wider rfl) fun _ => sendReadyForQuery_foot.wider rfl

theorem classifyQuery_foot : Footprint [.look] (classifyQuery query) :=
  .bind (foot_ask rfl) fun _ => within_pure _

theorem classifyQueryParsed_foot : Footprint [.look] (classifyQueryParsed query pq) := by
  refine .bind (foot_ask rfl) fun cfg => ?_
  split
  · exact within_pure _
  · exact classifyQuery_foot

theorem routedType_foot : Footprint [.look] (routedType route query pq) := by
  cases route with
  | writer => exact classifyQueryParsed_foot
  | reader => exact within_pure _

theorem rateLimited_foot : Footprint [.look] rateLimited :=
  .bind (foot_ask rfl) fun _ => .ite (.bind (foot_ask rfl) fun _ => .ite
    (.bind (foot_ask rfl) fun _ => .ite (within_pure _) (within_pure _)) (within_pure _))
    (within_pure _)

theorem rewriteQuery_foot : Footprint [.look] (rewriteQuery query) := by
  refine .bind (foot_ask rfl) fun rules => ?_
  cases rules <;> exact within_pure _

theorem guardParse_foot : Footprint [.look] (guardParse st query) :=
  .ite (within_pure _) (.bind (foot_ask rfl) fun _ => within_pure _)

theorem cacheKey_foot : Footprint [.look] (cacheKey query dbName) :=
  .bind (foot_ask rfl) fun _ => within_pure _

theorem cacheKeyParsed_foot : Footprint [.look] (cacheKeyParsed query pq dbName) := by
  refine .bind (foot_ask rfl) fun cfg => ?_
  split
  · exact within_pure _
  · exact cacheKey_foot

theorem extractQueryTablesParsed_foot : Footprint [.look] (extractQueryTablesParsed query pq) := by
  refine .bind (foot_ask rfl) fun cfg => ?_
  split
  · exact within_pure _
  · exact .bind (foot_ask rfl) fun _ => within_pure _

theorem extractReadQueryTables_foot : Footprint [.look] (extractReadQueryTables query) :=
  .bind (foot_ask rfl) fun _ => within_pure _

theorem extractReadQueryTablesParsed_foot :
    Footprint [.look] (extractReadQueryTablesParsed query pq) := by
  refine .bind (foot_ask rfl) fun cfg => ?_
  split
  · exact within_pure _
  · exact extractReadQueryTables_foot

theorem lookupRead_foot : Footprint [.look, .cache] (lookupRead query pq dbName) :=
  .bind (foot_ask rfl) fun _ =>
    .ite (.bind (cacheKeyParsed_foot.wider rfl) fun _ => foot_ask rfl) (within_pure _)

theorem lookupBatch_foot : Footprint [.look, .cache] (lookupBatch buf dbName) := by
  unfold lookupBatch
  split
  · exact within_pure _
  · exact .bind (foot_ask rfl) fun _ =>
      .ite (.bind (cacheKey_foot.wider rfl) fun _ => foot_ask rfl) (within_pure _)

theorem lookupResponse_foot : Footprint [.look, .cache] (lookupResponse sql pq dbName) :=
  .bind (foot_ask rfl) fun _ =>
    .ite (.bind (cacheKeyParsed_foot.wider rfl) fun _ => foot_ask rfl) (within_pure _)

theorem storeTables_foot : Footprint [.cache] (storeTables key data tables) := by
  cases tables with
  | none => exact within_pure _
  | some tables => exact .bind (foot_ask rfl) fun _ => within_pure _

theorem storeRead_foot : Footprint [.look, .cache] (storeRead query pq dbName data) := by
  cases data with
  | none => exact within_pure _
  | some data =>
    exact .bind (cacheKeyParsed_foot.wider rfl) fun _ =>
      .bind (extractReadQueryTablesParsed_foot.wider rfl) fun _ => storeTables_foot.wider rfl

theorem storeBatch_foot : Footprint [.look, .cache] (storeBatch buf dbName data) := by
  unfold storeBatch
  split
  · exact .bind (cacheKey_foot.wider rfl) fun _ =>
      .bind (extractReadQueryTables_foot.wider rfl) fun _ => storeTables_foot.wider rfl
  · exact within_pure _

theorem storeResponse_foot : Footprint [.look, .cache] (storeResponse sql pq dbName ms) :=
  .bind (foot_ask rfl) fun _ => .ite (.bind (cacheKeyParsed_foot.wider rfl) fun _ =>
    .bind (extractReadQueryTablesParsed_foot.wider rfl) fun _ => storeTables_foot.wider rfl)
    (within_pure _)

theorem invalidateAll_foot : Footprint [.cache] (invalidateAll tables) := by
  induction tables with
  | nil => exact within_pure _
  | cons table tables ih => exact .bind (foot_ask rfl) fun _ => ih

theorem invalidateTables_foot : Footprint [.look, .cache] (invalidateTables tables) :=
  .bind (invalidateAll_foot.wider rfl) fun _ => .ite (foot_ask rfl) (within_pure _)

theorem invalidateWrite_foot : Footprint [.look, .cache] (invalidateWrite query pq qtype) := by
  refine .bind (foot_ask rfl) fun _ => .ite (.bind (extractQueryTablesParsed_foot.wider rfl)
    fun tables => ?_) (within_pure _)
  cases tables with
  | none => exact within_pure _
  | some tables => exact .bind invalidateTables_foot fun _ => within_pure _

theorem forwardAll_foot : Footprint [.write] (forwardAll c ms) := by
  induction ms with
  | nil => exact within_pure _
  | cons m ms ih => exact .bind (foot_ask rfl) fun _ => .ite ih (within_pure _)

theorem relayUntilReady_foot : Footprint relaying (relayUntilReady c) :=
  .iterate (fun _ => relayRound_within (relayOps_foot rfl c)) ()

theorem relayOnly_foot : Footprint relaying (relayOnly c) :=
  .bind relayUntilReady_foot fun _ => .ite (within_pure _) (within_pure _)

theorem relayCached_foot : Footprint (.look :: relaying) (relayCached c) :=
  .bind (foot_ask rfl) fun _ => .ite (.bind (foot_ask rfl) fun _ =>
    .iterate (fun _ => relayRound_within (relayOps_foot rfl c)) _) (relayOnly_foot.wider rfl)

theorem forwardAndRelay_foot : Footprint (.write :: relaying) (forwardAndRelay c ms) :=
  .bind (forwardAll_foot.wider rfl) fun _ =>
    .ite (relayUntilReady_foot.wider rfl) (within_pure _)

theorem forwardFor_foot : Footprint (.write :: relaying) (forwardFor s ms c) :=
  .bind forwardAndRelay_foot fun _ => .ite (within_pure _) (within_pure _)

theorem exchangeBatch_foot :
    Footprint (.look :: .write :: relaying) (exchangeBatch st msg addr c) :=
  .bind (foot_ask rfl) fun _ => .bind (forwardAndRelay_foot.wider rfl) fun _ =>
    .bind (foot_ask rfl) fun _ => within_pure _

theorem drainRound_foot {go : Message → σ} {done : Message → β} :
    Footprint [.read] (drainRound c go done failed) := by
  refine .bind (foot_ask rfl) fun r => ?_
  cases accepted r with
  | some m => exact .ite (within_pure _) (.ite (within_pure _) (within_pure _))
  | none => exact within_pure _

theorem queryLSN_foot : Footprint [.write, .read] (queryLSN query c) :=
  .bind (foot_ask rfl) fun _ =>
    .ite (.iterate (fun _ => drainRound_foot.wider rfl) []) (within_pure _)

theorem trackWriteLSN_foot : Footprint [.write, .read] (trackWriteLSN c s qtype cfg) := by
  refine .ite (.bind queryLSN_foot fun lsn => ?_) (within_pure _)
  cases lsn <;> exact within_pure _

theorem releaseToPool_foot : Footprint [.give] (releaseToPool c p) :=
  .bind (foot_ask rfl) fun _ => within_pure _

theorem discardToPool_foot : Footprint [.give] (discardToPool c p) :=
  .bind (foot_ask rfl) fun _ => within_pure _

theorem resetConn_foot : Footprint [.look, .write, .read] (resetConn c) :=
  .bind (foot_ask rfl) fun _ => .ite (within_pure _) (.bind (foot_ask rfl) fun _ =>
    .ite (.iterate (fun _ => drainRound_foot.wider rfl) ()) (within_pure _))

theorem resetAndReleaseToPool_foot : Footprint returning (resetAndReleaseToPool c p) :=
  .bind (resetConn_foot.wider rfl) fun _ =>
    .ite (releaseToPool_foot.wider rfl) (discardToPool_foot.wider rfl)

theorem handBack_foot : Footprint returning (handBack dirty c p) :=
  .ite resetAndReleaseToPool_foot (releaseToPool_foot.wider rfl)

theorem dropWriter_foot : Footprint [.give] (dropWriter st c acquired p) := by
  refine .ite (.bind discardToPool_foot fun _ => within_pure _) ?_
  split
  · exact .bind discardToPool_foot fun _ => within_pure _
  · exact within_pure _

theorem unbindWriter_foot : Footprint returning (unbindWriter st c) :=
  .bind handBack_foot fun _ => within_pure _

theorem finishQuery_foot :
    Footprint returning (finishQuery st query c acquired p wasInTx nowInTx) := by
  refine .ite (within_pure _) (.ite (.ite (within_pure _) unbindWriter_foot) (.ite ?_ ?_))
  · refine .ite (within_pure _) (.ite ?_ ?_)
    · exact .bind resetAndReleaseToPool_foot fun _ => within_pure _
    · exact .bind (releaseToPool_foot.wider rfl) fun _ => within_pure _
  · exact within_pure _

theorem finishBatch_foot : Footprint returning (finishBatch st c acquired p) := by
  refine .ite (within_pure _) (.ite (.ite (within_pure _) unbindWriter_foot) ?_)
  refine .ite (within_pure _) (.ite (.ite (within_pure _) ?_) ?_)
  · exact .bind handBack_foot fun _ => within_pure _
  · exact .ite unbindWriter_foot (within_pure _)

theorem finishSynthesized_foot : Footprint returning (finishSynthesized st c acquired p) := by
  refine .ite (within_pure _) (.ite ?_ (.ite ?_ (within_pure _)))
  · exact .bind resetAndReleaseToPool_foot fun _ => within_pure _
  · exact .bind resetAndReleaseToPool_foot fun _ => within_pure _

theorem releaseReader_foot : Footprint returning (releaseReader st) := by
  unfold releaseReader
  split
  · exact .bind resetAndReleaseToPool_foot fun _ => within_pure _
  · exact within_pure _

theorem releaseStaleReader_foot : Footprint returning (releaseStaleReader st) :=
  .ite releaseReader_foot (within_pure _)

theorem rejectBatch_foot :
    Footprint (.send :: .ready :: returning) (rejectBatch st text) :=
  .bind (sendError_foot.wider rfl) fun _ => .bind (sendReadyForQuery_foot.wider rfl) fun _ =>
    .bind (releaseReader_foot.wider rfl) fun _ => within_pure _

theorem cleanup_foot : Footprint returning (cleanup st) := by
  refine .bind ?_ fun _ => .bind releaseReader_foot fun _ => within_pure _
  unfold releaseWriter
  split
  · exact .bind handBack_foot fun _ => within_pure _
  · exact within_pure _

theorem failReader_foot : Footprint [.mark] (failReader addr counts) := by
  cases counts with
  | true => exact .bind (foot_ask rfl) fun _ => foot_ask rfl
  | false => exact foot_ask rfl

theorem acquireWriterConn_foot : Footprint [.breaker, .pool] (acquireWriterConn bound) := by
  cases bound with
  | some c => exact within_pure _
  | none =>
    refine .bind (foot_ask rfl) fun _ => .ite (.bind (foot_ask rfl) fun p => ?_) (within_pure _)
    refine .bind (foot_ask rfl) fun x => ?_
    cases x with
    | some c => exact within_pure _
    | none => exact .bind (foot_ask rfl) fun _ => within_pure _

theorem acquireReader_foot :
    Footprint [.look, .readerPool, .pool, .mark] (acquireReader addr) := by
  cases addr with
  | none => exact within_pure _
  | some addr =>
    refine .bind (foot_ask rfl) fun _ => .ite (.bind (foot_ask rfl) fun p => ?_) (within_pure _)
    cases p with
    | none => exact within_pure _
    | some p =>
      refine .bind (foot_ask rfl) fun x => ?_
      cases x with
      | some c => exact within_pure _
      | none => exact .bind (failReader_foot.wider rfl) fun _ => within_pure _

theorem acquireReaderForBind_foot :
    Footprint [.look, .readerPool, .pool, .mark] (acquireReaderForBind addr) := by
  refine .bind acquireReader_foot fun found => ?_
  cases found with
  | some lease => exact within_pure _
  | none =>
    refine .bind (foot_ask rfl) fun p => .bind (foot_ask rfl) fun x => ?_
    cases x with
    | some c => exact .bind (foot_ask rfl) fun _ => within_pure _
    | none => exact within_pure _

theorem fallback_foot :
    Footprint ([.pool, .look, .write, .give] ++ relaying) (fallback reset ms) := by
  refine .bind (foot_ask rfl) fun p => .bind (foot_ask rfl) fun x => ?_
  cases x with
  | none => exact .bind (sendError_foot.wider rfl) fun _ => within_pure _
  | some c =>
    refine .bind (foot_ask rfl) fun _ => .bind (foot_ask rfl) fun _ => ?_
    refine .bind (forwardAndRelay_foot.wider rfl) fun _ => .bind (foot_ask rfl) fun _ => .ite ?_ ?_
    · exact .bind (handBack_foot.wider rfl) fun _ => within_pure _
    · exact .bind (discardToPool_foot.wider rfl) fun _ => within_pure _

section ReadOn

variable {relay : ConnId → Proc (Option (Option Bytes))} {store : Option Bytes → Proc Bool}
  {fb : Proc Bool} (hrelay : ∀ c, Footprint (exchanging ++ ks) (relay c))
  (hstore : ∀ data, Footprint (exchanging ++ ks) (store data))
  (hfb : Footprint (exchanging ++ ks) fb)

include hrelay hstore hfb

theorem serveReader_foot :
    Footprint (exchanging ++ ks) (serveReader addr p c ms breakOnSend relay store fb) := by
  refine .bind (foot_ask rfl) fun _ => .bind (forwardAll_foot.wider rfl) fun _ => .ite ?_ ?_
  · refine .bind (hrelay c) fun collected => .bind (foot_ask rfl) fun _ => ?_
    cases collected with
    | none =>
      exact .bind (discardToPool_foot.wider rfl) fun _ =>
        .bind (failReader_foot.wider rfl) fun _ => within_pure _
    | some data =>
      exact .bind (releaseToPool_foot.wider rfl) fun _ => .bind (hstore data) fun _ =>
        .ite (.bind (foot_ask rfl) fun _ => within_pure _) (within_pure _)
  · exact .bind (foot_ask rfl) fun _ => .bind (discardToPool_foot.wider rfl) fun _ =>
      .bind (failReader_foot.wider rfl) fun _ => hfb

theorem readOn_foot :
    Footprint (serving ++ ks) (readOn addr ms breakOnSend relay store fb) := by
  have hall : (exchanging ++ ks).all (serving ++ ks).contains = true := by
    simp only [List.all_eq_true, List.contains_iff_mem]
    exact fun k hk => .tail _ hk
  cases addr with
  | none => exact hfb.wider hall
  | some addr =>
    refine .bind (foot_ask rfl) fun _ =>
      .ite (.bind (foot_ask rfl) fun rPool => ?_) (hfb.wider hall)
    cases rPool with
    | none => exact hfb.wider hall
    | some rPool =>
      refine .bind (foot_ask rfl) fun x => ?_
      cases x with
      | none => exact .bind (failReader_foot.wider rfl) fun _ => hfb.wider hall
      | some c => exact (serveReader_foot hrelay hstore hfb).wider hall

end ReadOn

theorem handleReadQueryTraced_foot : Footprint (serving ++ [.cache, .cached])
    (handleReadQueryTraced msg query s pq cfg dbName) := by
  refine .bind (lookupRead_foot.wider rfl) fun x => ?_
  cases x with
  | some data => exact foot_ask rfl
  | none =>
    exact .bind (foot_ask rfl) fun _ => readOn_foot (fun _ => relayCached_foot.wider rfl)
      (fun _ => storeRead_foot.wider rfl) (fallback_foot.wider rfl)

theorem handleExtendedRead_foot :
    Footprint (serving ++ [.cache, .cached]) (handleExtendedRead buf msg addr dbName) := by
  refine .bind (lookupBatch_foot.wider rfl) fun x => ?_
  cases x with
  | some data => exact foot_ask rfl
  | none =>
    exact readOn_foot (fun _ => relayCached_foot.wider rfl)
      (fun _ => storeBatch_foot.wider rfl) (fallback_foot.wider rfl)

theorem handleSynthesizedRead_foot : Footprint serving (handleSynthesizedRead query addr) :=
  readOn_foot (fun _ => relayOnly_foot.wider rfl) (fun _ => within_pure _)
    (fallback_foot.wider rfl)

theorem readBatch_foot : Footprint (serving ++ [.cache, .cached]) (readBatch st msg) := by
  unfold readBatch
  split
  · refine .bind (exchangeBatch_foot.wider rfl) fun _ => .ite (.ite ?_ (within_pure _)) ?_
    · exact .bind (releaseToPool_foot.wider rfl) fun _ => within_pure _
    · exact .bind (discardToPool_foot.wider rfl) fun _ => within_pure _
  · refine .bind (foot_ask rfl) fun addr =>
      .ite (.bind (acquireReaderForBind_foot.wider rfl) fun lease => ?_) ?_
    · cases lease with
      | none => exact .bind (sendError_foot.wider rfl) fun _ => within_pure _
      | some r =>
        refine .bind (exchangeBatch_foot.wider rfl) fun _ => .ite (within_pure _) ?_
        exact .bind (discardToPool_foot.wider rfl) fun _ => within_pure _
    · exact .bind handleExtendedRead_foot fun _ => within_pure _

theorem batchOnWriter_foot {finish : Relay → ConnId → Bool → PoolId → Proc Flow}
    (hf : ∀ st c acquired p, Footprint returning (finish st c acquired p)) :
    Footprint (.breaker :: serving) (onWriter st (forwardFor s ms) finish) := by
  refine .bind (foot_ask rfl) fun p => .bind (acquireWriterConn_foot.wider rfl) fun x => ?_
  obtain _ | ⟨c, acquired⟩ := x
  · exact .bind (sendError_foot.wider rfl) fun _ => within_pure _
  · refine .bind (foot_ask rfl) fun addr => .bind (foot_ask rfl) fun _ => ?_
    refine .bind (forwardFor_foot.wider rfl) fun result => ?_
    cases result with
    | panicked => exact within_pure _
    | failed =>
      exact .bind (foot_ask rfl) fun _ => .bind (dropWriter_foot.wider rfl) fun _ => within_pure _
    | done s => exact .bind (foot_ask rfl) fun _ => (hf _ c acquired p).wider rfl

theorem executeSynthesizedQuery_foot :
    Footprint (.breaker :: serving) (executeSynthesizedQuery st query) :=
  .ite (.bind (foot_ask rfl) fun _ => .bind (handleSynthesizedRead_foot.wider rfl) fun _ =>
    within_pure _) (batchOnWriter_foot fun _ _ _ _ => finishSynthesized_foot)

theorem syncMultiplex_foot : Footprint (.breaker :: serving) (syncMultiplex st synth) := by
  unfold syncMultiplex
  split
  · exact .bind (sendReadyForQuery_foot.wider rfl) fun _ => within_pure _
  · split
    · exact .bind (sendError_foot.wider rfl) fun _ =>
        .bind (sendReadyForQuery_foot.wider rfl) fun _ => within_pure _
    · exact .bind executeSynthesizedQuery_foot fun _ => within_pure _

theorem writeBatch_foot : Footprint (.breaker :: serving) (writeBatch st msg) :=
  batchOnWriter_foot fun _ _ _ _ => finishBatch_foot

theorem handleParse_foot : Footprint [.look, .send] (handleParse st msg) := by
  refine .bind (rewriteQuery_foot.wider rfl) fun rewritten => .bind (foot_ask rfl) fun now => ?_
  refine .bind (classifyQuery_foot.wider rfl) fun qtype => ?_
  refine .bind (guardParse_foot.wider rfl) fun st₁ => ?_
  exact .ite (.bind (foot_ask rfl) fun _ => within_pure _) (within_pure _)

theorem handleBind_foot : Footprint [.send] (handleBind st msg) := by
  unfold handleBind
  refine .ite ?_ (within_pure _)
  split
  · exact .bind sendError_foot fun _ => within_pure _
  · exact .bind (foot_ask rfl) fun _ => within_pure _

theorem handleClose_foot : Footprint [.send] (handleClose st msg) :=
  .ite (.bind (foot_ask rfl) fun _ => within_pure _) (within_pure _)

theorem relayDescription_foot : Footprint [.read, .send] (relayDescription c) := by
  refine .iterate (fun _ => .bind (foot_ask rfl) fun r => ?_) ()
  cases accepted r with
  | none => exact within_pure _
  | some m =>
    dsimp only
    split
    · exact within_pure _
    split
    · exact within_pure _
    · rename_i hm
      refine .bind (foot_ask ?_) fun _ => .ite (within_pure _) (within_pure _)
      simp [Op.kind, Message.isReady, hm]

theorem handleMultiplexDescribe_foot :
    Footprint (.pool :: .send :: returning) (handleMultiplexDescribe synth msg) := by
  unfold handleMultiplexDescribe
  split
  · exact .bind (sendError_foot.wider rfl) fun _ => within_pure _
  · refine .bind (foot_ask rfl) fun p => .bind (foot_ask rfl) fun x => ?_
    cases x with
    | none => exact .bind (sendError_foot.wider rfl) fun _ => within_pure _
    | some c =>
      refine .bind (.bind (forwardAll_foot.wider rfl) fun _ => .ite ?_ (within_pure _)) fun _ =>
        .ite ?_ ?_
      · exact relayDescription_foot.wider rfl
      · exact .bind (resetAndReleaseToPool_foot.wider rfl) fun _ => within_pure _
      · exact .bind (discardToPool_foot.wider rfl) fun _ => within_pure _

theorem handleDescribe_foot :
    Footprint (.pool :: .send :: returning) (handleDescribe st msg) := by
  unfold handleDescribe
  split
  · exact .bind handleMultiplexDescribe_foot fun _ => within_pure _
  · exact within_pure _

theorem handleExtended_foot (hy : msg.type ≠ msgSync) :
    Footprint [.look, .pool, .write, .read, .send, .give] (handleExtended st msg) :=
  .ite (handleParse_foot.wider rfl) <| .ite (handleBind_foot.wider rfl) <|
    .ite (handleClose_foot.wider rfl) <| .ite (handleDescribe_foot.wider rfl) <|
    .ite (.ite (within_pure _) (within_pure _)) <| by
      rw [if_neg hy]
      exact .ite (within_pure _) (within_pure _)

theorem drainUntilReady_foot : Footprint [.read] (drainUntilReady c) := by
  refine .iterate (fun _ => .bind (foot_ask rfl) fun r => ?_) ()
  cases accepted r <;> exact within_pure _

theorem readResponse_foot : Footprint [.read, .copy] (readResponse c) := by
  refine .iterate (fun r => .bind (foot_ask rfl) fun x => ?_) _
  cases accepted x with
  | none => exact within_pure _
  | some m =>
    refine .ite (.bind (drainUntilReady_foot.wider rfl) fun _ => within_pure _)
      (.ite (within_pure _) (.ite ?_ ?_))
    · exact .bind (foot_ask rfl) fun _ =>
        .bind (drainUntilReady_foot.wider rfl) fun _ => within_pure _
    · cases r.add m <;> exact within_pure _

theorem executeQuery_foot : Footprint [.write, .read, .copy] (executeQuery c sql) :=
  .ite (readResponse_foot.wider rfl) (.bind (foot_ask rfl) fun _ =>
    .ite (readResponse_foot.wider rfl) (within_pure _))

theorem discarded_foot {r : Outcome (List Message)} : Footprint [.give] (do
    let _ ← discardToPool c p
    return r : Proc (Outcome (List Message))) :=
  .bind discardToPool_foot fun _ => within_pure _

theorem resetAndReturn_foot : Footprint (.ctx :: returning) (resetAndReturn c p ms) := by
  refine .bind (foot_ask rfl) fun cfg => .bind (foot_ask rfl) fun _ => .ite ?_ ?_
  · refine .bind (drainUntilReady_foot.wider rfl) fun _ => .bind (foot_ask rfl) fun _ => ?_
    refine .ite (discarded_foot.wider rfl) (.ite ?_ (discarded_foot.wider rfl))
    exact .bind (releaseToPool_foot.wider rfl) fun _ => within_pure _
  · exact discarded_foot.wider rfl

theorem executeOnPool_foot :
    Footprint (.pool :: .copy :: .ctx :: returning) (executeOnPool sql p) := by
  refine .bind (foot_ask rfl) fun x => ?_
  cases x with
  | none => exact within_pure _
  | some c =>
    refine .bind (executeQuery_foot.wider rfl) fun result => ?_
    cases result with
    | panicked => exact within_pure _
    | failed => exact .bind (foot_ask rfl) fun _ => discarded_foot.wider rfl
    | done ms =>
      exact .bind (foot_ask rfl) fun _ =>
        .ite (discarded_foot.wider rfl) (resetAndReturn_foot.wider rfl)

end Footprint

end Pgmux
