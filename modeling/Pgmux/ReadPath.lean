import Pgmux.Paths

namespace Pgmux

open Interaction

section ReadPath

variable [External]

abbrev Quiet (p : Proc α) : Prop := Within (fun o => o.onConn = false) p

theorem Quiet.conn {p : Proc α} (hp : Quiet p) (h : Runs p tr a) : conn tr = [] :=
  List.filter_eq_nil_iff.mpr fun e he => by simp [hp tr a h e he]

theorem Kinds.conn (h : Kinds ks tr)
    (hs : ks.all (fun k => !([.pool, .give, .write, .read].contains k))) : conn tr = [] :=
  List.filter_eq_nil_iff.mpr (h.avoids (P := fun o => ¬ o.onConn) _ hs fun o ho => by
    cases o <;> first | exact Bool.false_ne_true | cases ho)

theorem Footprint.quiet {p : Proc α} (h : Footprint ks p)
    (hs : ks.all (fun k => !([.pool, .give, .write, .read].contains k))) : Quiet p :=
  h.avoids _ hs fun o ho => by cases o <;> first | rfl | cases ho

abbrev Uncached (p : Proc α) : Prop := Within (fun o => o.cacheCall = none) p

abbrev Idle (p : Proc α) : Prop := Within (fun o => o.onConn = false ∧ o.cacheCall = none) p

theorem idle_ask (h : o.onConn = false ∧ o.cacheCall = none) : Idle (ask o) := within_perform h

def UncachedTrace (tr : Trace Ans) : Prop := ∀ e ∈ tr, e.1.cacheCall = none

def IdleTrace (tr : Trace Ans) : Prop := ∀ e ∈ tr, e.1.onConn = false ∧ e.1.cacheCall = none

theorem Kinds.uncached (h : Kinds ks tr)
    (hs : ks.all (fun k => !([OpKind.cache].contains k))) : UncachedTrace tr :=
  h.avoids (P := fun o => o.cacheCall = none) _ hs fun o ho => by cases o <;> first | rfl | cases ho

theorem Kinds.idle (h : Kinds ks tr)
    (hs : ks.all (fun k => !([.pool, .give, .write, .read, .cache].contains k))) :
    IdleTrace tr :=
  h.avoids (P := fun o => o.onConn = false ∧ o.cacheCall = none) _ hs fun o ho => by
    cases o <;> first | exact ⟨rfl, rfl⟩ | cases ho

theorem Footprint.uncached {p : Proc α} (h : Footprint ks p)
    (hs : ks.all (fun k => !([OpKind.cache].contains k))) : Uncached p :=
  fun tr a hr => Kinds.uncached (h tr a hr) hs

theorem Footprint.idle {p : Proc α} (h : Footprint ks p)
    (hs : ks.all (fun k => !([.pool, .give, .write, .read, .cache].contains k))) : Idle p :=
  fun tr a hr => Kinds.idle (h tr a hr) hs

theorem Uncached.trace {p : Proc α} (hp : Uncached p) (h : Runs p tr a) :
    UncachedTrace tr := hp tr a h

theorem Idle.trace {p : Proc α} (hp : Idle p) (h : Runs p tr a) : IdleTrace tr := hp tr a h

theorem IdleTrace.uncached (h : IdleTrace tr) : UncachedTrace tr := fun e he => (h e he).2

theorem IdleTrace.nil : IdleTrace ([] : Trace Ans) := fun _ he => nomatch he

theorem IdleTrace.append (h₁ : IdleTrace t₁) (h₂ : IdleTrace t₂) : IdleTrace (t₁ ++ t₂) :=
  List.forall_mem_append.mpr ⟨h₁, h₂⟩

theorem IdleTrace.cons {e : Event} (he : e.1.onConn = false ∧ e.1.cacheCall = none)
    (h : IdleTrace tr) : IdleTrace (e :: tr) :=
  List.forall_mem_cons.mpr ⟨he, h⟩

theorem UncachedTrace.append (h₁ : UncachedTrace t₁) (h₂ : UncachedTrace t₂) :
    UncachedTrace (t₁ ++ t₂) :=
  List.forall_mem_append.mpr ⟨h₁, h₂⟩

theorem UncachedTrace.cons {e : Event} (he : e.1.cacheCall = none) (h : UncachedTrace tr) :
    UncachedTrace (e :: tr) :=
  List.forall_mem_cons.mpr ⟨he, h⟩

theorem UncachedTrace.no_set (h : UncachedTrace tr) : ⟨.cacheSet key data tables, ()⟩ ∉ tr :=
  fun hm => absurd (h _ hm) (by simp [Op.cacheCall])

theorem UncachedTrace.set_behind (h : UncachedTrace t₁)
    (hm : ⟨.cacheSet key data tables, ()⟩ ∈ t₁ ++ t₂) : ⟨.cacheSet key data tables, ()⟩ ∈ t₂ :=
  (List.mem_append.mp hm).resolve_left h.no_set

theorem IdleTrace.conn (h : IdleTrace tr) : conn tr = [] :=
  List.filter_eq_nil_iff.mpr fun e he => by simp [(h e he).1]

theorem fallback_visits (h : Runs (fallback reset ms) tr ok) (hR : Configured R tr) :
    Visits R false ms (conn tr) := by
  cases fallback_ways h with
  | refused h₁ =>
    simpa [conn_cons, Op.onConn, (sendError_foot.quiet rfl).conn h₁] using
      Visits.cons .look Visit.refused.visits
  | failed h₁ h₂ =>
    simpa [conn_cons, Op.onConn, (discardToPool_conn h₂).1] using
      Visits.cons .look (Visit.failed (forwardAndRelay_exchange h₁)).visits
  | served h₁ h₂ =>
    have hb := (handBack_handedBack h₂ fun cfg hc => hR cfg (by simp [hc])).1
    simpa [conn_cons, Op.onConn] using
      Visits.cons .look (Visit.served (forwardAndRelay_exchange h₁) hb (by simp)).visits

section ReadPath

variable {relay : ConnId → Proc (Option (Option Bytes))} {store : Option Bytes → Proc Bool}
  {fb : Proc Bool}
  (hrelay : ∀ c tr r, Runs (relay c) tr r → Relayed c (conn tr) r.isSome)
  (hstore : ∀ data, Quiet (store data))
  (hfb : ∀ tr ok, Runs fb tr ok → Configured R tr → Visits R false ms (conn tr))

include hrelay hstore hfb

theorem serveReader_visits (h : Runs (serveReader addr p c ms breakOnSend relay store fb) tr ok)
    (hR : Configured R tr) : Visits R false ms (⟨.acquire p, some c⟩ :: conn tr) := by
  cases serveReader_ways h with
  | unsent h₁ h₂ h₃ h =>
    have hv := hfb _ _ h fun cfg hc => hR cfg (by simp [hc])
    simpa [conn_cons, Op.onConn, (discardToPool_conn h₂).1, (failReader_foot.quiet rfl).conn h₃]
      using Visits.cons (Visit.failed (.unsent (forwardAll_sent h₁)) (p := p)) hv
  | lost h₁ ht h₂ h₃ =>
    have hx := Exchange.sent (forwardAll_sent h₁) (hrelay _ _ _ ht)
    simpa [conn_cons, Op.onConn, (discardToPool_conn h₂).1, (failReader_foot.quiet rfl).conn h₃]
      using (Visit.failed hx (R := R) (p := p)).visits
  | served h₁ ht h₂ h₃ | panicked h₁ ht h₂ h₃ =>
    have hx := Exchange.sent (forwardAll_sent h₁) (hrelay _ _ _ ht)
    simpa [conn_cons, Op.onConn, (releaseToPool_conn h₂).1, (hstore _).conn h₃] using
      (Visit.served hx (.plain : HandedBack R c (some p) false _) (by simp)).visits

theorem readOn_visits (h : Runs (readOn addr ms breakOnSend relay store fb) tr ok)
    (hR : Configured R tr) : Visits R false ms (conn tr) := by
  cases readOn_ways h with
  | passed h₀ _ h =>
    rw [conn_append, h₀.conn rfl, List.nil_append]
    exact hfb _ _ h hR.right
  | refused _ h₁ h =>
    simpa [conn_cons, Op.onConn, (failReader_foot.quiet rfl).conn h₁] using
      Visits.cons Visit.refused (hfb _ _ h hR.tail.tail.tail.right)
  | reached _ h => exact serveReader_visits hrelay hstore hfb h hR.tail.tail.tail

end ReadPath

theorem fallbackToWriter_visits (h : Runs (fallbackToWriter msg) tr ok) (hR : Configured R tr) :
    Visits R false [msg] (conn tr) := fallback_visits h hR

theorem CachedWays.visits (h : CachedWays look pick ms breakOnSend store fb tr ok)
    (hlook : Quiet look) (hpick : ∀ addr, Kinds [.look] (pick addr))
    (hstore : ∀ data, Quiet (store data))
    (hfb : ∀ tr ok, Runs fb tr ok → Configured R tr → Visits R false ms (conn tr))
    (hR : Configured R tr) : Visits R false ms (conn tr) := by
  cases h with
  | hit h₁ =>
    rw [conn_append, hlook.conn h₁]
    exact .nil
  | missed h₁ h =>
    rw [conn_append, hlook.conn h₁, List.nil_append, conn_append, (hpick _).conn rfl,
      List.nil_append]
    exact readOn_visits (fun _ _ _ => relayCached_relayed) hstore hfb h hR.right.right

theorem handleReadQueryTraced_visits
    (h : Runs (handleReadQueryTraced msg query s pq cfg dbName) tr ok) (hR : Configured R tr) :
    Visits R false [msg] (conn tr) :=
  (handleReadQueryTraced_ways h).visits (lookupRead_foot.quiet rfl) (fun _ => pickReader_kinds)
    (fun _ => storeRead_foot.quiet rfl) (fun _ _ => fallbackToWriter_visits) hR

theorem handleExtendedRead_visits
    (h : Runs (handleExtendedRead buf syncMsg addr dbName) tr ok) (hR : Configured R tr) :
    Visits R false (buf ++ [syncMsg]) (conn tr) :=
  (handleExtendedRead_ways h).visits (lookupBatch_foot.quiet rfl) (fun _ => by simp [Kinds])
    (fun _ => storeBatch_foot.quiet rfl) (fun _ _ => fallback_visits) hR

theorem handleSynthesizedRead_visits (h : Runs (handleSynthesizedRead query addr) tr ok)
    (hR : Configured R tr) : Visits R false [queryMessage query] (conn tr) :=
  readOn_visits (fun _ _ _ => relayOnly_relayed) (fun _ => within_pure _)
    (fun _ _ => fallback_visits) h hR

end ReadPath

end Pgmux
