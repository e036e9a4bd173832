import Pgmux.ApiCache
import Pgmux.CacheCalls
import Pgmux.View
import Pgmux.Script

namespace Pgmux

open Interaction

theorem split_of_dropWhile {p : α → Bool} (h : l.dropWhile (fun x => !p x) = x :: rest) :
    l = l.takeWhile (fun x => !p x) ++ x :: rest ∧ p x := by
  constructor
  · rw [← h, List.takeWhile_append_dropWhile]
  · have hne : l.dropWhile (fun x => !p x) ≠ [] := by
      rw [h]
      exact List.cons_ne_nil _ _
    have hx := List.head_dropWhile_not (fun x => !p x) hne
    simpa [h] using hx

section Writes

variable [External] {st : Relay}

def SentFirst (m : Message) (tr rest : Trace Ans) : Prop :=
  ∃ pre c, tr = pre ++ ⟨.write c m, true⟩ :: rest ∧ ∀ c', ⟨.write c' m, true⟩ ∉ pre

theorem SentFirst.subset (h : SentFirst m tr rest) : ownCalls rest ⊆ ownCalls tr := by
  obtain ⟨pre, c, rfl, -⟩ := h
  rw [ownCalls_append]
  exact List.subset_append_right _ _

theorem SentFirst.not_unsent (h : SentFirst m tr rest) : ¬ UnsentTrace tr := by
  obtain ⟨pre, c, rfl, -⟩ := h
  intro hu
  exact (hu ⟨.write c m, true⟩ (by simp)).2 c m rfl

theorem SentFirst.unique (h : SentFirst m (t₁ ++ ⟨.write c m, true⟩ :: t₂) rest)
    (hu : UnsentTrace t₁) : rest = t₂ := by
  obtain ⟨pre, c', heq, hfirst⟩ := h
  rcases List.append_eq_append_iff.mp heq with ⟨t, rfl, ht⟩ | ⟨t, rfl, ht⟩
  · cases t with
    | nil => cases ht; rfl
    | cons e t =>
      cases ht
      exact (hfirst c (by simp)).elim
  · cases t with
    | nil => cases ht; rfl
    | cons e t =>
      cases ht
      exact ((hu ⟨.write c' m, true⟩ (by simp)).2 c' m rfl).elim

structure CacheSetting (ast : Bool) (tr : Trace Ans) : Prop where
  cached : ∀ b, ⟨.queryCache, b⟩ ∈ tr → b = true
  parser : ∀ cfg : Config, ⟨.config, cfg⟩ ∈ tr → cfg.astParser = ast

theorem CacheSetting.right (h : CacheSetting ast (t₁ ++ t₂)) : CacheSetting ast t₂ :=
  ⟨fun b hb => h.cached b (List.mem_append_right _ hb),
    fun cfg hc => h.parser cfg (List.mem_append_right _ hc)⟩

/-- The text has the table among those that it writes. -/
def Writes (ast : Bool) (text table : Bytes) : Prop :=
  ∃ tables, writeTables ast text = some tables ∧ table ∈ tables

theorem uncached_not_invalidated (h : UncachedTrace t) (hsub : ownCalls t' ⊆ ownCalls t) :
    ¬ Invalidated table (ownCalls t') :=
  (h.readCalls : ReadCalls 0 (ownCalls t)).not_invalidated hsub

/-- The invalidation after a query reaches the tables that it writes, when it counts as a write. -/
theorem Invalidates.invalidated_iff (h : Invalidates query qtype t) (hs : CacheSetting ast t) :
    Invalidated table (ownCalls t) ↔ qtype = .write ∧ Writes ast query table := by
  cases h with
  | off => exact absurd (hs.cached false (.head _)) Bool.false_ne_true
  | read hq =>
    refine iff_of_false (uncached_not_invalidated (.cons rfl IdleTrace.nil.uncached)
      (List.Subset.refl _)) ?_
    simp [hq]
  | panicked _ h₀ hcfg hn =>
    refine iff_of_false (uncached_not_invalidated (.cons rfl h₀.uncached)
      (List.Subset.refl _)) ?_
    rintro ⟨-, tables, ht, -⟩
    rw [← hs.parser _ (.tail _ hcfg), hn] at ht
    cases ht
  | @write t₀ tables t₁ cfg hq h₀ hcfg htables h₁ =>
    rw [hs.parser cfg (by simp [hcfg])] at htables
    have hown : ownCalls (⟨.queryCache, true⟩ :: (t₀ ++ (invalidations tables ++ t₁))) =
        tables.map .invalidateTable := by
      have hu : UncachedTrace (⟨.queryCache, true⟩ :: t₀) := .cons rfl h₀.uncached
      rw [← List.cons_append, ownCalls_append, ownCalls_append, hu.ownCalls, h₁.uncached.ownCalls,
        ownCalls_invalidations, List.append_nil, List.nil_append]
    rw [hown]
    constructor
    · intro hinv
      refine ⟨hq, tables, htables, ?_⟩
      have hm := mem_of_invalidated hinv (show ∀ o ∈ _, Cache.StoresAt 0 o by
        intro o ho
        obtain ⟨t, -, rfl⟩ := List.mem_map.mp ho
        trivial)
      simpa using hm
    · rintro ⟨-, tables', ht', hmem⟩
      cases htables.symm.trans ht'
      exact invalidated_of_mem (List.mem_map_of_mem hmem)

theorem forwardAndRelay_sends (h : Runs (forwardAndRelay c [m]) t true) :
    ∃ t', t = ⟨.write c m, true⟩ :: t' := by
  unfold forwardAndRelay forwardAll forwardAll at h
  rw [runs_bind] at h
  obtain ⟨t₁, ok, t₂, h₁, h, rfl⟩ := h
  rw [runs_perform_bind] at h₁
  obtain ⟨sent, t, h₁, rfl⟩ := h₁
  cases sent with
  | true => exact ⟨_, rfl⟩
  | false =>
    obtain ⟨rfl, rfl⟩ := runs_pure.mp h₁
    cases (runs_pure.mp h).2

/-- The completion of a command is relayed, and then the rest is done. -/
def Completes (later : Trace Ans) : Prop :=
  ∃ m t, later = ⟨.sendClient m, true⟩ :: t ∧ m.type = msgCommandComplete

theorem Completes.before (h : Completes later) (he : done ++ later = t ++ u)
    (hu : ∀ e ∈ u, ∀ m, e.1 ≠ .sendClient m) : ∃ t', t = done ++ t' := by
  obtain ⟨m, t', rfl, -⟩ := h
  rcases List.append_eq_append_iff.mp he with ⟨t', ht, -⟩ | ⟨t', rfl, ht⟩
  · exact ⟨t', ht⟩
  · exact absurd rfl (hu ⟨.sendClient m, true⟩ (ht ▸ by simp) m)

/-- The completion is relayed in the exchange, before any call on the cache. -/
theorem relayed_invalidated_iff
    (h₁ : Runs (forwardAndRelay c [msg]) (⟨.write c msg, true⟩ :: t₁) true)
    (h₂ : Runs (trackWriteLSN c s (classifyBy ast text) cfg) t₂ s')
    (h₃ : Runs (invalidateWrite text pq (classifyBy ast text)) t₃ kept) (hpq : TreeOf text pq)
    (hs : CacheSetting ast t₃) (hu : ClosingTrace t₄)
    (hrest : done ++ later = t₁ ++ ((⟨.writerRecord true, ()⟩ :: t₂) ++ (t₃ ++ t₄)))
    (hend : Completes later) (table : Bytes) : ¬ Invalidated table (ownCalls done) ∧
      (Invalidated table (ownCalls (done ++ later)) ↔
        classifyBy ast text = .write ∧ Writes ast text table) := by
  have hu₁ : UncachedTrace t₁ := fun e he =>
    (forwardAndRelay_foot.uncached rfl).trace h₁ e (.tail _ he)
  have hu₂ : UncachedTrace (⟨.writerRecord true, ()⟩ :: t₂) :=
    .cons rfl ((trackWriteLSN_foot.uncached rfl).trace h₂)
  constructor
  · obtain ⟨t₅, rfl⟩ := hend.before hrest (by
      simp only [List.forall_mem_append, List.forall_mem_cons]
      exact ⟨⟨by simp, trackWriteLSN_foot.untold rfl _ _ h₂⟩,
        invalidateWrite_foot.untold rfl _ _ h₃, fun e he => (hu e he).2⟩)
    exact uncached_not_invalidated hu₁ (by simp)
  · rw [hrest, ownCalls_append, ownCalls_append, ownCalls_append, hu₁.ownCalls, hu₂.ownCalls,
      hu.uncached.ownCalls, List.append_nil, List.nil_append, List.nil_append]
    exact (invalidateWrite_invalidates h₃ hpq).invalidated_iff hs

/-- A simple query that was sent has invalidated nothing when its completion is relayed. At the end
of its round, if it has not failed, it has invalidated a table if and only if its checked text is a
write and has the table among those that it writes. -/
theorem query_invalidated_iff (h : Runs (relayStep st) tr r) (hm : received tr = some msg)
    (ht : msg.type = msgQuery) (hs : CacheSetting ast tr) (hast : st.session.astParser = ast)
    (htext : ∀ rules, ⟨.rewriter, rules⟩ ∈ tr → checkedText rules msg = text)
    (hsent : SentFirst msg tr (done ++ later)) (hend : Completes later) (table : Bytes) :
    ¬ Invalidated table (ownCalls done) ∧ (⟨.writerRecord false, ()⟩ ∉ tr →
      (Invalidated table (ownCalls (done ++ later)) ↔
        classifyBy ast text = .write ∧ Writes ast text table)) := by
  have hdone : ownCalls done ⊆ ownCalls (done ++ later) := by
    rw [ownCalls_append]
    exact List.subset_append_left _ _
  cases relayStep_use h with
  | none _ hu => exact (hsent.not_unsent (hu msg hm ht)).elim
  | sync hm' ht' =>
    obtain rfl := Option.some.inj (hm.symm.trans hm')
    exact absurd (ht.symm.trans ht') (by decide)
  | query hm' _ hi htr hu =>
    obtain rfl := Option.some.inj (hm.symm.trans hm')
    rename_i pre t' _
    subst htr
    cases hu with
    | none hu => exact (hsent.not_unsent (hi.unsent.append hu)).elim
    | read hi' hrt hx =>
      rename_i t₀ text' pq now cfg t ok st₁
      obtain ⟨rules, hrules, rfl⟩ := hrt.rewritten
      have hread : classifyBy ast text = .read := by
        rw [← htext rules (by simp [hrules]), ← hast, ← hrt.passed.guarded.astParser]
        exact routeQueryLocked_reader hrt.route
      obtain ⟨key, hk⟩ := handleReadQueryTraced_readCalls hx hrt.tree
      have hall : ReadCalls key (ownCalls (pre ++ (t₀ ++ t))) := by
        rw [ownCalls_append, ownCalls_append]
        exact hi.uncached.readCalls.append (hi'.uncached.readCalls.append hk)
      exact ⟨hall.not_invalidated (List.Subset.trans hdone hsent.subset), fun _ =>
        iff_of_false (hall.not_invalidated hsent.subset) (by simp [hread])⟩
    | write hi' hrt hcfg hu₁ hx hu₂ =>
      rename_i t₀ text' pq now t₁ c cfg t x t₂ st₁ cfg'
      obtain ⟨rules, hrules, rfl⟩ := hrt.rewritten
      have hpre : UnsentTrace (pre ++ (t₀ ++ t₁)) := hi.unsent.append (hi'.unsent.append hu₁)
      cases handleWriteQuery_ways hx with
      | failed h₃ =>
        have hall : UncachedTrace
            (pre ++ (t₀ ++ (t₁ ++ ((_ ++ [⟨.writerRecord false, ()⟩]) ++ t₂)))) :=
          hi.uncached.append (hi'.uncached.append (hu₁.uncached.append
            ((((forwardAndRelay_foot.uncached rfl).trace h₃).append
              (.cons rfl IdleTrace.nil.uncached)).append hu₂.uncached)))
        exact ⟨uncached_not_invalidated hall (List.Subset.trans hdone hsent.subset),
          fun hok => (hok (by simp)).elim⟩
      | @relayed t₃ t₄ _ t₅ kept h₃ h₄ h₅ =>
        obtain ⟨t₆, rfl⟩ := forwardAndRelay_sends h₃
        have hrest : done ++ later =
            t₆ ++ ((⟨.writerRecord true, ()⟩ :: t₄) ++ (t₅ ++ t₂)) := by
          refine SentFirst.unique (c := c) (m := msg) ?_ hpre
          simpa using hsent
        have hs' : CacheSetting ast t₅ :=
          ⟨fun b hb => hs.cached b (by simp [hb]), fun cfg hc => hs.parser cfg (by simp [hc])⟩
        obtain rfl : checkedText rules msg = text := htext rules (by simp [hrules])
        obtain rfl : cfg'.astParser = ast := hs.parser cfg' (by simp [hcfg])
        obtain ⟨hnot, hiff⟩ :=
          relayed_invalidated_iff h₃ h₄ h₅ hrt.tree hs' hu₂ hrest hend table
        exact ⟨hnot, fun _ => hiff⟩

theorem executeOnPool_sends (h : Runs (executeOnPool sql p) t (.done ms)) (hne : sql ≠ []) :
    ∃ c t', t = ⟨.acquire p, some c⟩ :: ⟨.write c (queryMessage sql), true⟩ :: t' := by
  -- a query with a result was sent
  have hsent {c t₁ ms} (h₁ : Runs (executeQuery c sql) t₁ (.done ms)) :
      ∃ t', t₁ = ⟨.write c (queryMessage sql), true⟩ :: t' := by
    rw [executeQuery, if_neg hne, runs_perform_bind] at h₁
    obtain ⟨sent, t', h₁, rfl⟩ := h₁
    cases sent with
    | true => exact ⟨t', rfl⟩
    | false => cases (runs_pure.mp h₁).2
  generalize hr : Outcome.done ms = r at h
  cases executeOnPool_ways h with
  | refused => cases hr
  | panicked => cases hr
  | stopped => cases hr
  | unsent h₁ =>
    obtain ⟨t', rfl⟩ := hsent h₁
    exact ⟨_, _, rfl⟩
  | answered h₁ =>
    obtain ⟨t', rfl⟩ := hsent h₁
    exact ⟨_, _, rfl⟩

/-- A request to the Data API with a result invalidates a table that its text writes if and only if
the text is a write. -/
theorem request_invalidated_iff (h : Runs (handleApiQuery req) tr (.result ms))
    (hsql : req.sql = some sql) (hs : CacheSetting ast tr)
    (hsent : SentFirst (queryMessage sql) tr rest) (ht : Writes ast sql table) :
    Invalidated table (ownCalls rest) ↔ classifyBy ast sql = .write := by
  rcases handleApiQuery_sql h with hi | ⟨dbName, sql', t₀, t, hsql', hne, hi, hq, rfl⟩
  · exact (hsent.not_unsent hi.unsent).elim
  obtain rfl := Option.some.inj (hsql.symm.trans hsql')
  have hreads : ∀ {t' : Trace Ans}, Classified sql .read t' → (∀ e ∈ t', e ∈ t) →
      (∃ key, ReadCalls key (ownCalls t)) →
      (Invalidated table (ownCalls rest) ↔ classifyBy ast sql = .write) := by
    rintro t' ⟨-, cfg, hcfg, hread⟩ hmem ⟨key, hk⟩
    have hall : ReadCalls key (ownCalls (t₀ ++ t)) := by
      rw [ownCalls_append]
      exact hi.uncached.readCalls.append hk
    constructor
    · intro hinv
      exact (hall.not_invalidated hsent.subset hinv).elim
    · intro hw
      rw [← hs.parser cfg (List.mem_append_right _ (hmem _ hcfg)), hread] at hw
      cases hw
  cases querySQL_use hq with
  | none _ hr => exact (hr ms rfl).elim
  | hit hc hl =>
    refine hreads hc (fun e he => List.mem_append_left _ he) ⟨0, ?_⟩
    rw [ownCalls_append]
    exact hc.uncached.readCalls.append hl.readCalls
  | passed hc hl hu =>
    refine hreads hc (fun e he => List.mem_append_left _ he) ⟨0, ?_⟩
    rw [ownCalls_append, ownCalls_append]
    exact hc.uncached.readCalls.append (hl.readCalls.append hu.readCalls)
  | served hc hl hx hst =>
    obtain ⟨key, hk⟩ := hst.readCalls
    refine hreads hc (fun e he => List.mem_append_left _ he) ⟨key, ?_⟩
    rename_i t₁ t₂ rPool t₃ ms' t₄ addr
    have hx' : UncachedTrace (⟨.nextReader none, some addr⟩ ::
        ⟨.readerPool addr, some rPool⟩ :: (t₃ ++ [⟨.queryCache, true⟩])) :=
      .cons rfl (.cons rfl (((executeOnPool_foot.uncached rfl).trace hx).append
        (.cons rfl IdleTrace.nil.uncached)))
    have hall := hc.uncached.readCalls.append (hl.readCalls.append (hx'.readCalls.append hk))
    simpa [← ownCalls_append] using hall
  | write hc hx hpq hw =>
    rename_i t₁ p t₂ ms' pq t₃ kept
    obtain ⟨c, t₄, rfl⟩ := executeOnPool_sends hx hne
    have hu₄ : UncachedTrace t₄ := fun e he =>
      (executeOnPool_foot.uncached rfl).trace hx e (by simp [he])
    have hpre : UnsentTrace (t₀ ++ (t₁ ++ [⟨.acquire p, some c⟩])) :=
      hi.unsent.append (hc.1.append (by simp [UnsentTrace, Op.cacheCall]))
    obtain rfl : rest = t₄ ++ t₃ := SentFirst.unique (by simpa using hsent) hpre
    obtain ⟨-, cfg, hcfg, hwrite⟩ := hc
    have hclass : classifyBy ast sql = .write := by
      rw [← hs.parser cfg (by simp [hcfg])]
      exact hwrite
    rw [ownCalls_append, hu₄.ownCalls, List.nil_append,
      (invalidateWrite_invalidates hw hpq).invalidated_iff hs.right.right.right]
    exact ⟨fun _ => hclass, fun _ => ⟨rfl, ht⟩⟩

inductive WriteBy where
  | query (text : Bytes)
  | batch
  | synthesized
  | request

/-- The ways by which a write has invalidated a table in the end. -/
def WriteBy.Covers (ast : Bool) (w table : Bytes) : WriteBy → Prop
  | .query text => classifyBy ast text = .write ∧ Writes ast text table
  | .batch => False
  | .synthesized => False
  | .request => classifyBy ast w = .write

/-- A write goes through the proxy, and its completion reaches the client: `done` is what the proxy
does from the moment the write was sent until then, and `later` the rest of the round. The cache is
on, and the session and the configuration use the parser `ast`. -/
inductive Handles (ast : Bool) (w : Bytes) (tr done later : Trace Ans) : WriteBy → Prop
  | query {st : Relay} : Runs (relayStep st) tr r → received tr = some msg → msg.type = msgQuery →
      extractQueryText msg.payload = w → CacheSetting ast tr → st.session.astParser = ast →
      (∀ rules, ⟨.rewriter, rules⟩ ∈ tr → checkedText rules msg = text) →
      SentFirst msg tr (done ++ later) → Completes later → Handles ast w tr done later (.query text)
  | batch {st : Relay} : Runs (relayStep st) tr r → received tr = some msg → msg.type = msgSync →
      st.synth = none → st.extBuf = b₁ ++ m :: b₂ →
      (View.empty.after (H ++ b₁)).executed m = some w → SentFirst m tr (done ++ later) →
      Completes later → Handles ast w tr done later .batch
  | synthesized {st : Relay} : Runs (relayStep st) tr r → received tr = some msg →
      msg.type = msgSync → st.synthesized = some w →
      SentFirst (queryMessage w) tr (done ++ later) → Completes later →
      Handles ast w tr done later .synthesized
  | request : Runs (handleApiQuery req) tr (.result ms) → req.sql = some w → CacheSetting ast tr →
      SentFirst (queryMessage w) tr done → later = [] → Handles ast w tr done later .request

/-- Once the completion of a write was relayed the cache holds no entry from before it of a table
that it writes, if and only if it came as a request and its text shows the write. At the end of the
round it holds none also after a simple query whose checked text shows the write. -/
theorem write_invalidated_iff (h : Handles ast w tr done later way) (ht : Writes ast w table) :
    (Invalidated table (ownCalls done) ↔ way = .request ∧ classifyBy ast w = .write) ∧
      (⟨.writerRecord false, ()⟩ ∉ tr →
        (Invalidated table (ownCalls (done ++ later)) ↔ way.Covers ast w table)) := by
  have hsync {st : Relay} {r msg m} (hr : Runs (relayStep st) tr r) (hm : received tr = some msg)
      (hq : msg.type = msgSync) (hsent : SentFirst m tr (done ++ later)) :
      ¬ Invalidated table (ownCalls done) ∧ ¬ Invalidated table (ownCalls (done ++ later)) := by
    obtain ⟨key, hk⟩ := sync_readCalls hr hm hq
    refine ⟨hk.not_invalidated (List.Subset.trans ?_ hsent.subset), hk.not_invalidated hsent.subset⟩
    rw [ownCalls_append]
    exact List.subset_append_left _ _
  cases h with
  | query hr hm hq _ hs hast htext hsent hend =>
    obtain ⟨hnot, hall⟩ := query_invalidated_iff hr hm hq hs hast htext hsent hend table
    exact ⟨iff_of_false hnot (by simp), hall⟩
  | batch hr hm hq _ _ _ hsent =>
    obtain ⟨h₁, h₂⟩ := hsync hr hm hq hsent
    exact ⟨iff_of_false h₁ (by simp), fun _ => iff_of_false h₂ not_false⟩
  | synthesized hr hm hq _ hsent =>
    obtain ⟨h₁, h₂⟩ := hsync hr hm hq hsent
    exact ⟨iff_of_false h₁ (by simp), fun _ => iff_of_false h₂ not_false⟩
  | request hr hsql hs hsent hl =>
    have hiff := request_invalidated_iff hr hsql hs hsent ht
    subst hl
    rw [List.append_nil]
    exact ⟨by simp [hiff], fun _ => hiff⟩

def isSend (m : Message) : Event → Bool
  | ⟨.write _ m', ok⟩ => ok && m' = m
  | _ => false

theorem eq_of_isSend {e : Event} (h : isSend m e) : ∃ c, e = ⟨.write c m, true⟩ := by
  obtain ⟨o, x⟩ := e
  cases o <;> simp only [isSend, Bool.false_eq_true, Bool.and_eq_true, decide_eq_true_eq] at h
  obtain ⟨rfl, rfl⟩ := h
  exact ⟨_, rfl⟩

theorem sentFirst_of_dropWhile (h : tr.dropWhile (fun e => !isSend m e) = e :: rest) :
    SentFirst m tr rest := by
  obtain ⟨htr, he⟩ := split_of_dropWhile h
  obtain ⟨c, rfl⟩ := eq_of_isSend he
  refine ⟨_, c, htr, ?_⟩
  intro c' hm
  have hn := List.mem_takeWhile_imp hm
  simp [isSend] at hn

def showsSetting (ast : Bool) : Event → Bool
  | ⟨.queryCache, b⟩ => b
  | ⟨.config, cfg⟩ => cfg.astParser = ast
  | _ => true

theorem cacheSetting_of_all (h : tr.all (showsSetting ast)) : CacheSetting ast tr := by
  rw [List.all_eq_true] at h
  constructor
  · intro b hb
    exact h _ hb
  · intro cfg hc
    simpa [showsSetting] using h _ hc

def completesNow : Event → Bool
  | ⟨.sendClient m, ok⟩ => ok && m.type = msgCommandComplete
  | _ => false

theorem completes_of_dropWhile {rest : Trace Ans}
    (h : rest.dropWhile (fun e => !completesNow e) = e :: t) :
    Completes (e :: t) := by
  obtain ⟨⟨o, x⟩, he⟩ : ∃ e', e = e' := ⟨e, rfl⟩
  have hc := (split_of_dropWhile h).2
  rw [he] at hc ⊢
  cases o with
  | sendClient m =>
    simp only [completesNow, Bool.and_eq_true, decide_eq_true_eq] at hc
    exact ⟨m, t, by rw [hc.1], hc.2⟩
  | _ => cases hc

/-- The trace from the first completion that is relayed behind the first sending of the message. -/
def fromCompletion (m : Message) (tr : Trace Ans) : Trace Ans :=
  (tr.dropWhile fun e => !isSend m e).tail.dropWhile fun e => !completesNow e

theorem completes_of_fromCompletion (h : (fromCompletion m tr).isEmpty = false) :
    ∃ done later, SentFirst m tr (done ++ later) ∧ Completes later := by
  cases hd : tr.dropWhile fun e => !isSend m e with
  | nil => simp [fromCompletion, hd] at h
  | cons w rest =>
    rw [fromCompletion, hd, List.tail_cons] at h
    obtain ⟨e, t, ht⟩ := List.exists_cons_of_ne_nil (List.isEmpty_eq_false_iff.mp h)
    refine ⟨rest.takeWhile fun e => !completesNow e, e :: t, ?_, completes_of_dropWhile ht⟩
    rw [← (split_of_dropWhile ht).1]
    exact sentFirst_of_dropWhile hd

end Writes

def insertText : Bytes := ascii "INSERT INTO t VALUES (1)"

def completeMessage : Message := ⟨msgCommandComplete, ascii "INSERT 0 1" ++ [0]⟩

def QueryResponse.isResult : QueryResponse → Bool
  | .result _ => true
  | _ => false

theorem eq_of_isResult {r : QueryResponse} (h : r.isResult) : ∃ ms, r = .result ms := by
  cases r with
  | result ms => exact ⟨ms, rfl⟩
  | _ => cases h

/-- A simple query has invalidated its table at the end of its round, and a request before its
response. -/
theorem write_invalidated_insert : ∃ (_ : External) (tr done later tr' done' : Trace Ans),
    Writes false insertText (ascii "t") ∧
      Handles false insertText tr done later (.query insertText) ∧
      ¬ Invalidated (ascii "t") (ownCalls done) ∧
      Invalidated (ascii "t") (ownCalls (done ++ later)) ∧
      Handles false insertText tr' done' [] .request ∧
      Invalidated (ascii "t") (ownCalls done') := by
  let _ := asciiExternal
  have ht : Writes false insertText (ascii "t") :=
    ⟨[ascii "t"], by decide +kernel, List.mem_singleton_self _⟩
  obtain ⟨r, tr, h, hc⟩ := Script.runWith_check (n := 60) (p := relayStep plainRelay)
    (s := Script.simple [queryMessage insertText] [completeMessage, readyMessage])
    (f := fun _ tr => decide (received tr = some (queryMessage insertText)) &&
      tr.all (showsSetting false) && (rulesSeen tr).all (fun rules => rules.isNone) &&
      tr.all (fun e => e.1 ≠ .writerRecord false) &&
      !(fromCompletion (queryMessage insertText) tr).isEmpty)
    (show (Prog.drive Script.cachingAnswer _ _ _).any _ = true by decide +kernel)
  obtain ⟨r', tr', h', hc'⟩ := Script.runWith_check (n := 60)
    (p := handleApiQuery ⟨true, [], some insertText, []⟩)
    (s := Script.simple [] [completeMessage, readyMessage, readyMessage])
    (f := fun r tr => r.isResult && tr.all (showsSetting false) &&
      !(tr.dropWhile fun e => !isSend (queryMessage insertText) e).isEmpty)
    (show (Prog.drive Script.cachingAnswer _ _ _).any _ = true by decide +kernel)
  simp only [Bool.and_eq_true, decide_eq_true_eq, Bool.not_eq_true'] at hc hc'
  obtain ⟨⟨⟨⟨hm, hs⟩, hrules⟩, hrec⟩, hd⟩ := hc
  obtain ⟨⟨hr', hs'⟩, hd'⟩ := hc'
  obtain ⟨done, later, hsent, hend⟩ := completes_of_fromCompletion hd
  obtain ⟨e, rest, hrest⟩ := List.exists_cons_of_ne_nil (List.isEmpty_eq_false_iff.mp hd')
  obtain ⟨ms, rfl⟩ := eq_of_isResult hr'
  have hh : Handles false insertText tr done later (.query insertText) := by
    refine .query h hm rfl (by decide) (cacheSetting_of_all hs) rfl ?_ hsent hend
    intro rules hr
    have hn := List.all_eq_true.mp hrules rules (mem_answers.mpr hr)
    rw [Option.isNone_iff_eq_none.mp hn]
    decide
  have hh' : Handles false insertText tr' rest [] .request :=
    .request h' rfl (cacheSetting_of_all hs') (sentFirst_of_dropWhile hrest) rfl
  have hok : ⟨.writerRecord false, ()⟩ ∉ tr := fun hw => by
    simpa using List.all_eq_true.mp hrec _ hw
  have hwrite : classifyBy false insertText = .write := by decide
  refine ⟨_, tr, _, _, tr', rest, ht, hh, ?_, ?_, hh', ?_⟩
  · rw [(write_invalidated_iff hh ht).1]
    simp
  · exact ((write_invalidated_iff hh ht).2 hok).mpr ⟨hwrite, ht⟩
  · exact (write_invalidated_iff hh' ht).1.mpr ⟨rfl, hwrite⟩

/-- A batch that inserts into a table leaves the cached responses of the table, when its completion
is relayed and to the end of the round. -/
theorem batch_insert_uninvalidated : ∃ (_ : External) (tr done later : Trace Ans),
    Handles false insertText tr done later .batch ∧ Writes false insertText (ascii "t") ∧
      classifyBy false insertText = .write ∧ ¬ Invalidated (ascii "t") (ownCalls done) ∧
      ¬ Invalidated (ascii "t") (ownCalls (done ++ later)) := by
  let _ := asciiExternal
  obtain ⟨session, rs, t, h, hc⟩ := Script.playWith_check (n := 60)
    (s := Script.simple [parseMessage [] insertText, bindMessage [], executeMessage, syncMessage]
      [completeMessage, readyMessage])
    (f := fun rs _ => rs.any fun (st, tr) => decide (received tr = some syncMessage) &&
      st.synth.isNone && decide (st.extBuf = [parseMessage [] insertText, bindMessage []] ++
        executeMessage :: []) && !(fromCompletion executeMessage tr).isEmpty)
    (show (Script.playWith Script.cachingAnswer _ _).any _ = true by decide +kernel)
  obtain ⟨⟨st, tr⟩, hmem, hc⟩ := List.any_eq_true.mp hc
  simp only [Bool.and_eq_true, decide_eq_true_eq, Bool.not_eq_true'] at hc
  obtain ⟨⟨⟨hm, hy⟩, hbuf⟩, hd⟩ := hc
  obtain ⟨st', hrs, -⟩ := h
  obtain ⟨r, hr⟩ := hrs.runs_of_mem hmem
  obtain ⟨done, later, hsent, hend⟩ := completes_of_fromCompletion hd
  have hh : Handles false insertText tr done later .batch :=
    .batch (H := []) hr hm rfl (Option.isNone_iff_eq_none.mp hy) hbuf (by decide) hsent hend
  obtain ⟨key, hk⟩ := sync_readCalls hr hm rfl
  refine ⟨_, tr, _, _, hh, ⟨[ascii "t"], by decide +kernel, List.mem_singleton_self _⟩, by decide,
    hk.not_invalidated (List.Subset.trans ?_ hsent.subset), hk.not_invalidated hsent.subset⟩
  rw [ownCalls_append]
  exact List.subset_append_left _ _

end Pgmux
