import Pgmux.PoolUsers

namespace Pgmux

open Interaction

section CacheUse

variable [External] {st : Relay}

structure Routed (t : Trace Ans) (st : Relay) (msg : Message) (text : Bytes)
    (pq : Option PgQuery.Tree) (st₁ : Relay) (now : Nat) (route : Route) : Prop where
  rewritten : ∃ rules, ⟨.rewriter, rules⟩ ∈ t ∧ text = checkedText rules msg
  time : ⟨.now, now⟩ ∈ t
  passed : Passed (· ∈ t) st text st₁
  tree : ∀ tree, pq = some tree → PgQuery.parse text = some tree
  route : (st₁.session.routeQueryLocked now text).1 = route

def UnsentTrace (tr : Trace Ans) : Prop :=
  ∀ e ∈ tr, e.1.cacheCall = none ∧ ∀ c m, e.1 ≠ .write c m

theorem UnsentTrace.uncached (h : UnsentTrace tr) : UncachedTrace tr := fun e he => (h e he).1

theorem UnsentTrace.append (h₁ : UnsentTrace t₁) (h₂ : UnsentTrace t₂) :
    UnsentTrace (t₁ ++ t₂) :=
  List.forall_mem_append.mpr ⟨h₁, h₂⟩

theorem IdleTrace.unsent (h : IdleTrace tr) : UnsentTrace tr := by
  intro e he
  refine ⟨(h e he).2, ?_⟩
  intro c m hw
  exact absurd (h e he).1 (by rw [hw]; simp [Op.onConn])

/-- What follows an exchange with the writer: no call on the cache and nothing for the client. -/
def ClosingTrace (tr : Trace Ans) : Prop :=
  ∀ e ∈ tr, e.1.cacheCall = none ∧ ∀ m, e.1 ≠ .sendClient m

theorem ClosingTrace.uncached (h : ClosingTrace tr) : UncachedTrace tr := fun e he => (h e he).1

theorem Footprint.untold {q : Proc α} (h : Footprint ks q)
    (hs : ks.all (fun k => !([.send, .ready].contains k))) : Within (∀ m, · ≠ .sendClient m) q := by
  refine h.avoids _ hs fun o ho => ?_
  rintro m rfl
  cases hm : m.isReady <;> simp [Op.kind, hm] at ho

theorem Footprint.closing {q : Proc α} (h : Footprint ks q)
    (hs : ks.all (fun k => !([.send, .ready, .cache].contains k))) (hr : Runs q tr a) :
    ClosingTrace tr := by
  have huntold := h.untold (by simp_all [List.all_eq_true])
  have huncached := h.uncached (by simp_all [List.all_eq_true])
  exact fun e he => ⟨huncached.trace hr e he, huntold tr a hr e he⟩

theorem acquireWriterConn_unsent (h : Runs (acquireWriterConn bound) tr x) : UnsentTrace tr := by
  have hw : Within (fun o => o.cacheCall = none ∧ ∀ c m, o ≠ .write c m)
      (acquireWriterConn bound) :=
    acquireWriterConn_foot.avoids [.write, .cache] rfl fun o ho => by
      constructor
      · cases o <;> first | rfl | cases ho
      · rintro c m rfl
        cases ho
  exact hw tr x h

inductive QueryUse (st : Relay) (msg : Message) : Trace Ans → Prop
  | none : UnsentTrace tr → QueryUse st msg tr
  | read {st₁ : Relay} : IdleTrace t₀ → Routed t₀ st msg text pq st₁ now .reader →
      Runs (handleReadQueryTraced msg text (st₁.routed now text).session pq cfg st₁.dbName) t ok →
      QueryUse st msg (t₀ ++ t)
  | write {st₁ : Relay} {cfg' : Config} : IdleTrace t₀ → Routed t₀ st msg text pq st₁ now .writer →
      ⟨.config, cfg'⟩ ∈ t₀ → UnsentTrace t₁ →
      Runs (handleWriteQuery c msg text (st₁.routed now text).session pq
        (classifyBy cfg'.astParser text) cfg) t r →
      ClosingTrace t₂ → QueryUse st msg (t₀ ++ (t₁ ++ (t ++ t₂)))

theorem onWriter_exchange {exchange : ConnId → Proc (Outcome Session)}
    {finish : Relay → ConnId → Bool → PoolId → Proc Flow}
    (h : Runs (onWriter st exchange finish) tr r)
    (hf : ∀ st c acquired p t r, Runs (finish st c acquired p) t r → ClosingTrace t) :
    UnsentTrace tr ∨ ∃ c x t₁ t t₂, Runs (exchange c) t x ∧ UnsentTrace t₁ ∧
      ClosingTrace t₂ ∧ tr = t₁ ++ (t ++ t₂) := by
  have hput {p t₁ x addr c t y t₂} (h₁ : Runs (acquireWriterConn st.boundConn) t₁ x)
      (ht : Runs (exchange c) t y) (h₂ : ClosingTrace t₂) :
      ∃ d x u₁ u u₂, Runs (exchange d) u x ∧ UnsentTrace u₁ ∧ ClosingTrace u₂ ∧
        ⟨.writerPool, p⟩ :: (t₁ ++ ⟨.writerAddr, addr⟩ :: ⟨.setCancel addr c, ()⟩ :: (t ++ t₂)) =
          u₁ ++ (u ++ u₂) := by
    have hpre : UnsentTrace
        (⟨.writerPool, p⟩ :: (t₁ ++ [⟨.writerAddr, addr⟩, ⟨.setCancel addr c, ()⟩])) := by
      refine List.forall_mem_cons.mpr ⟨by simp [Op.cacheCall],
        (acquireWriterConn_unsent h₁).append ?_⟩
      simp [UnsentTrace, Op.cacheCall]
    exact ⟨c, y, _, t, t₂, ht, hpre, h₂, by simp⟩
  have hclear {t₂} (h₂ : ClosingTrace t₂) : ClosingTrace (⟨.clearCancel, ()⟩ :: t₂) :=
    List.forall_mem_cons.mpr ⟨by simp [Op.cacheCall], h₂⟩
  cases onWriter_ways h with
  | refused h₁ h₂ =>
    have hs := ((sendError_foot.idle rfl).trace h₂).unsent
    exact .inl (List.forall_mem_cons.mpr
      ⟨by simp [Op.cacheCall], (acquireWriterConn_unsent h₁).append hs⟩)
  | panicked h₁ ht => simpa using Or.inr (hput h₁ ht (List.forall_mem_nil _))
  | dropped h₁ ht h₂ => exact .inr (hput h₁ ht (hclear (dropWriter_foot.closing rfl h₂)))
  | finished h₁ ht h₂ => exact .inr (hput h₁ ht (hclear (hf _ _ _ _ _ _ h₂)))

theorem routeQuery_use {st₁ : Relay}
    (hr : ∃ rules, (⟨.rewriter, rules⟩ : Event) ∈ t₀ ∧ text = checkedText rules msg)
    (hg : Passed (· ∈ t₀) st text st₁)
    (hpq : ∀ tree, pq = some tree → PgQuery.parse text = some tree) (h₀ : IdleTrace t₀)
    (h : Runs (routeQuery st₁ msg text pq cfg) tr r) : QueryUse st msg (t₀ ++ tr) := by
  obtain ⟨now, t₁, qtype, b, t, rfl, h₁, h⟩ := routeQuery_cases h
  have hpre : IdleTrace (t₀ ++ ⟨.now, now⟩ :: (t₁ ++ [⟨.inReadOnly, b⟩])) :=
    h₀.append (.cons ⟨rfl, rfl⟩ (((routedType_foot.idle rfl).trace h₁).append
      (.cons ⟨rfl, rfl⟩ .nil)))
  have hsplit : t₀ ++ ⟨.now, now⟩ :: (t₁ ++ ⟨.inReadOnly, b⟩ :: t) =
      (t₀ ++ ⟨.now, now⟩ :: (t₁ ++ [⟨.inReadOnly, b⟩])) ++ t := by simp
  have hrouted : ∀ route, (st₁.session.routeQueryLocked now text).1 = route →
      Routed (t₀ ++ ⟨.now, now⟩ :: (t₁ ++ [⟨.inReadOnly, b⟩])) st msg text pq st₁ now route := by
    intro route hroute
    obtain ⟨rules, hrules, htext⟩ := hr
    exact ⟨⟨rules, by simp [hrules], htext⟩, by simp, hg.mono fun e he => by simp [he], hpq, hroute⟩
  rw [hsplit]
  cases h with
  | rejected _ _ h₂ => exact .none (hpre.append ((reject_foot.idle rfl).trace h₂)).unsent
  | write _ hroute h₂ =>
    rw [hroute] at h₁
    obtain ⟨cfg', hcfg, rfl⟩ := classifyQueryParsed_type h₁ hpq
    rcases onWriter_exchange h₂ (fun _ _ _ _ _ _ => finishQuery_foot.closing rfl) with
      hu | ⟨c, x, t₄, t, t₅, hx, h₄, h₅, rfl⟩
    · exact .none (hpre.unsent.append hu)
    · exact .write hpre (hrouted _ hroute) (by simp [hcfg]) h₄ hx h₅
  | read hroute h₂ => exact .read hpre (hrouted _ hroute) h₂

theorem handleQuery_use (h : Runs (handleQuery st msg) tr r) : QueryUse st msg tr := by
  rcases handleQuery_routed h with ⟨hi, -⟩ | ⟨cfg, rules, pq, st₁, t, rfl, hparse, hp, h⟩
  · exact .none hi.unsent
  · exact routeQuery_use ⟨rules, by simp, rfl⟩ hp hparse
      (.cons ⟨rfl, rfl⟩ (.cons ⟨rfl, rfl⟩ .nil)) h

inductive SyncUse (st : Relay) (msg : Message) : Trace Ans → Prop
  | none : UncachedTrace tr → SyncUse st msg tr
  | read : IdleTrace t₀ → st.synth = none → st.readsBatch = true → st.boundReader = none →
      Runs (handleExtendedRead st.extBuf msg addr st.dbName) t ok → SyncUse st msg (t₀ ++ t)

theorem readBatch_use (h : Runs (readBatch st msg) tr r) : UncachedTrace tr ∨
    st.boundReader = none ∧ ∃ addr t ok, tr = ⟨.nextReader none, addr⟩ :: t ∧
      Runs (handleExtendedRead st.extBuf msg addr st.dbName) t ok := by
  unfold readBatch at h
  split at h
  · rename_i l hl
    left
    refine Uncached.trace (.bind (exchangeBatch_foot.uncached rfl) fun _ => .ite (.ite ?_ ?_) ?_) h
    · exact .bind (releaseToPool_foot.uncached rfl) fun _ => within_pure _
    · exact within_pure _
    · exact .bind (discardToPool_foot.uncached rfl) fun _ => within_pure _
  · rename_i hl
    rw [runs_perform_bind] at h
    obtain ⟨addr, t, h, rfl⟩ := h
    split at h
    · left
      refine .cons rfl (Uncached.trace
        (.bind (acquireReaderForBind_foot.uncached rfl) fun lease => ?_) h)
      cases lease with
      | none => exact .bind (sendError_foot.uncached rfl) fun _ => within_pure _
      | some lease =>
        refine .bind (exchangeBatch_foot.uncached rfl) fun _ => .ite (within_pure _) ?_
        exact .bind (discardToPool_foot.uncached rfl) fun _ => within_pure _
    · rw [runs_bind] at h
      obtain ⟨t₁, ok, t₂, h₁, h, rfl⟩ := h
      obtain ⟨rfl, rfl⟩ := runs_pure.mp h
      exact .inr ⟨hl, addr, t₁, ok, by simp, h₁⟩

theorem executeSync_use (h : Runs (executeSync st msg) tr r) : UncachedTrace tr ∨
    st.synth = none ∧ st.readsBatch ∧ st.boundReader = none ∧ ∃ addr t ok,
      tr = ⟨.nextReader none, addr⟩ :: t ∧
        Runs (handleExtendedRead st.extBuf msg addr st.dbName) t ok := by
  cases executeSync_ways h with
  | multiplex _ h₁ => exact .inl ((syncMultiplex_foot.uncached rfl).trace h₁)
  | read hy hrb h₁ =>
    rcases readBatch_use h₁ with hu | ⟨hl, hx⟩
    · exact .inl hu
    · exact .inr ⟨hy, hrb, hl, hx⟩
  | write _ _ h₁ => exact .inl ((writeBatch_foot.uncached rfl).trace h₁)

theorem handleSync_use (h : Runs (handleSync st msg) tr r) : SyncUse st msg tr := by
  have hu₀ {t st₁} (h₀ : Runs (releaseStaleReader st) t st₁) :=
    (releaseStaleReader_foot.uncached rfl).trace h₀
  cases handleSync_ways h with
  | blocked h₀ _ h₁ => exact .none ((hu₀ h₀).append ((rejectBatch_foot.uncached rfl).trace h₁))
  | readOnly h₀ _ _ h₁ =>
    exact .none ((hu₀ h₀).append (.cons rfl ((rejectBatch_foot.uncached rfl).trace h₁)))
  | @executed t₀ b t₁ _ st₁ h₀ _ _ h₁ =>
    rcases executeSync_use h₁ with hu | ⟨hy, hrb, hl, addr, t, ok, rfl, hx⟩
    · exact .none ((hu₀ h₀).append (.cons rfl hu))
    · -- a batch that goes to readers has no stale reader to release
      unfold releaseStaleReader at h₀
      split at h₀
      · rename_i hs
        have hg := releaseReader_gone (R := fun _ => True) h₀ fun _ _ => trivial
        have hrb' := (readsBatch_eq_false st).mpr hs
        rw [hg.same] at hrb
        exact absurd (hrb'.symm.trans hrb) (by decide)
      · obtain ⟨rfl, rfl⟩ := runs_pure.mp h₀
        have hi : IdleTrace [⟨.inReadOnly, b⟩, ⟨.nextReader none, addr⟩] :=
          .cons ⟨rfl, rfl⟩ (.cons ⟨rfl, rfl⟩ .nil)
        change SyncUse _ msg ([⟨.inReadOnly, b⟩, ⟨.nextReader none, addr⟩] ++ t)
        exact SyncUse.read hi hy hrb hl hx

inductive CacheUse (st : Relay) (tr : Trace Ans) : Prop
  | none : UncachedTrace tr → (∀ msg ∈ received tr, msg.type = msgQuery → UnsentTrace tr) →
      CacheUse st tr
  | query : received tr = some msg → msg.type = msgQuery → IdleTrace t₀ → tr = t₀ ++ t →
      QueryUse st msg t → CacheUse st tr
  | sync : received tr = some msg → msg.type = msgSync → IdleTrace t₀ → tr = t₀ ++ t →
      SyncUse st msg t → CacheUse st tr

theorem IdleTrace.use (h : IdleTrace tr) : CacheUse st tr := .none h.uncached fun _ _ _ => h.unsent

theorem handleExtended_use (h : Runs (handleExtended st msg) t r) :
    UncachedTrace t ∨ msg.type = msgSync ∧ SyncUse st msg t := by
  by_cases ht : msg.type = msgSync
  · rw [handleExtended_sync ht] at h
    exact .inr ⟨ht, handleSync_use h⟩
  · exact .inl (((handleExtended_foot ht).uncached rfl).trace h)

theorem relayStep_use (h : Runs (relayStep st) tr r) : CacheUse st tr := by
  have hpre {m msg t₁ x} (h₁ : Runs rateLimited t₁ x) : IdleTrace (⟨.ctxDone, false⟩ ::
      ⟨.readClient, .message msg⟩ :: ⟨.inMaintenance, m⟩ :: t₁) :=
    .cons ⟨rfl, rfl⟩ (.cons ⟨rfl, rfl⟩ (.cons ⟨rfl, rfl⟩ ((rateLimited_foot.idle rfl).trace h₁)))
  cases relayStep_ways h with
  | ends hk => exact (hk.idle rfl).use
  | limited h₁ h₂ => exact ((hpre h₁).append ((reject_foot.idle rfl).trace h₂)).use
  | query ht h₁ h₂ => exact .query rfl ht (hpre h₁) rfl (handleQuery_use h₂)
  | @extended t₁ msg t₂ _ m hnq _ h₁ h₂ =>
    rcases handleExtended_use h₂ with hu | ⟨ht, hu⟩
    · refine .none ((hpre h₁).uncached.append hu) ?_
      intro msg' hm ht
      obtain rfl : msg = msg' := Option.some.inj hm
      exact (hnq ht).elim
    · exact .sync rfl ht (hpre h₁) rfl hu

end CacheUse

end Pgmux
