import Pgmux.ExchangeOutcome
import Pgmux.Script

namespace Pgmux

open Interaction

def Op.atWriterBreaker : Op → Bool
  | .writerAllow => true
  | .writerRecord _ => true
  | _ => false

section Accounting

variable [External]

abbrev Apart (p : Proc α) : Prop := Within (fun o => o.atWriterBreaker = false) p

theorem apart_ask (h : o.atWriterBreaker = false) : Apart (ask o) := within_perform h

theorem Kinds.apart (h : Kinds ks tr)
    (hs : ks.all (fun k => !([OpKind.breaker].contains k))) :
    ∀ e ∈ tr, e.1.atWriterBreaker = false :=
  h.avoids (P := fun o => o.atWriterBreaker = false) _ hs fun o ho => by
    cases o <;> first | rfl | cases ho

theorem Footprint.apart {p : Proc α} (h : Footprint ks p)
    (hs : ks.all (fun k => !([OpKind.breaker].contains k))) : Apart p :=
  fun tr a hr => Kinds.apart (h tr a hr) hs

def afterAllow : Trace Ans → Option (Trace Ans)
  | [] => none
  | ⟨.writerAllow, true⟩ :: t => some t
  | _ :: t => afterAllow t

def isRecord : Event → Bool
  | ⟨.writerRecord _, _⟩ => true
  | _ => false

def recorded (t : Trace Ans) : List Bool :=
  t.filterMap fun
    | ⟨.writerRecord ok, _⟩ => some ok
    | _ => none

def exchangeSucceeded (t : Trace Ans) : Bool := endsReady (t.takeWhile fun e => !isRecord e)

/-- The admission is followed by one record of how the exchange with the backend went. -/
def Accounted (tr : Trace Ans) : Prop :=
  ∀ t, afterAllow tr = some t → recorded t = [exchangeSucceeded t]

def PoolRefuses (t : Trace Ans) : Prop :=
  ∃ p t', t = ⟨.writerPool, p⟩ :: ⟨.acquire p, none⟩ :: t'

def SimplyServed (tr : Trace Ans) : Prop :=
  ∀ t, afterAllow tr = some t → PoolRefuses t ∨
    (∃ msg, received tr = some msg ∧ msg.type = msgQuery) ∧ ¬ ReadyLost t

/-- What follows an admission: the pool refuses; a simple query is executed and recorded; or
something else is executed, and nothing is recorded. -/
inductive Admission (simple : Bool) : Trace Ans → Prop
  | refused : (∀ e ∈ u, e.1.atWriterBreaker = false) → Admission simple
      (⟨.writerPool, p⟩ :: ⟨.acquire p, none⟩ :: ⟨.writerRecord false, ()⟩ :: u)
  | noted : simple = true → Runs (forwardAndRelay c ms) t ok →
      (∀ e ∈ u, e.1.atWriterBreaker = false) → (∀ e ∈ u, e.1.sendsReady = false) →
      Admission simple (⟨.writerPool, p⟩ :: ⟨.acquire p, some c⟩ :: ⟨.writerAddr, addr⟩ ::
        ⟨.setCancel addr c, ()⟩ :: (t ++ ⟨.writerRecord ok, ()⟩ :: u))
  | unnoted : simple = false → (∀ e ∈ u, e.1.atWriterBreaker = false) →
      Admission simple (⟨.writerPool, p⟩ :: ⟨.acquire p, some c⟩ :: u)

theorem recorded_apart (h : ∀ e ∈ t, e.1.atWriterBreaker = false) : recorded t = [] := by
  apply List.filterMap_eq_nil_iff.mpr
  intro e he
  have ha := h e he
  obtain ⟨o, x⟩ := e
  cases o with
  | writerRecord ok => cases ha
  | _ => rfl

theorem takeWhile_apart (h : ∀ e ∈ t, e.1.atWriterBreaker = false) (u : Trace Ans) :
    (t ++ u).takeWhile (fun e => !isRecord e) = t ++ u.takeWhile fun e => !isRecord e := by
  apply List.takeWhile_append_of_pos
  intro e he
  have ha := h e he
  obtain ⟨o, x⟩ := e
  cases o with
  | writerRecord ok => cases ha
  | _ => rfl

theorem Admission.accounted_iff (h : Admission simple t) :
    recorded t = [exchangeSucceeded t] ↔ PoolRefuses t ∨ simple = true ∧ ¬ ReadyLost t := by
  cases h with
  | refused hu =>
    have hr := recorded_apart hu
    refine iff_of_true ?_ (.inl ⟨_, _, rfl⟩)
    simp only [recorded, List.filterMap_cons] at hr ⊢
    rw [hr]
    rfl
  | unnoted hs hu =>
    refine iff_of_false ?_ ?_
    · have hr := recorded_apart hu
      simp only [recorded, List.filterMap_cons] at hr ⊢
      rw [hr]
      simp
    · rintro (⟨_, _, he⟩ | ⟨hs', -⟩)
      · simp at he
      · rw [hs] at hs'
        cases hs'
  | noted hs hx hu hsilent =>
    rename_i c ms t' ok u p addr
    have hw : ∀ e ∈ t', e.1.atWriterBreaker = false := (forwardAndRelay_foot.apart rfl) t' ok hx
    have hrec : recorded (⟨.writerPool, p⟩ :: ⟨.acquire p, some c⟩ :: ⟨.writerAddr, addr⟩ ::
        ⟨.setCancel addr c, ()⟩ :: (t' ++ ⟨.writerRecord ok, ()⟩ :: u)) = [ok] := by
      have hr := recorded_apart hu
      have hr' := recorded_apart hw
      simp only [recorded, List.filterMap_cons, List.filterMap_append] at hr hr' ⊢
      rw [hr, hr']
      rfl
    have hlost : ReadyLost (⟨.writerPool, p⟩ :: ⟨.acquire p, some c⟩ :: ⟨.writerAddr, addr⟩ ::
        ⟨.setCancel addr c, ()⟩ :: (t' ++ ⟨.writerRecord ok, ()⟩ :: u)) ↔ ReadyLost t' := by
      constructor
      · rintro ⟨m, hm, hmem⟩
        refine ⟨m, hm, ?_⟩
        have hno : ⟨.sendClient m, false⟩ ∉ u := by
          intro hmu
          have := hsilent _ hmu
          simp [Op.sendsReady, Message.isReady, hm] at this
        simpa [hno] using hmem
      · rintro ⟨m, hm, hmem⟩
        exact ⟨m, hm, by simp [hmem]⟩
    have hsucc : exchangeSucceeded (⟨.writerPool, p⟩ :: ⟨.acquire p, some c⟩ ::
        ⟨.writerAddr, addr⟩ :: ⟨.setCancel addr c, ()⟩ :: (t' ++ ⟨.writerRecord ok, ()⟩ :: u)) =
        endsReady t' := by
      have hpre : ∀ e ∈ ([⟨.writerPool, p⟩, ⟨.acquire p, some c⟩, ⟨.writerAddr, addr⟩,
          ⟨.setCancel addr c, ()⟩] ++ t' : Trace Ans), e.1.atWriterBreaker = false := by
        simpa [Op.atWriterBreaker] using hw
      have htake := takeWhile_apart hpre (⟨.writerRecord ok, ()⟩ :: u)
      rw [List.append_assoc, List.takeWhile_cons_of_neg (by simp [isRecord]), List.append_nil]
        at htake
      rw [exchangeSucceeded]
      exact (congrArg endsReady htake).trans (endsReady_unread (by simp [backendAnswers]) t')
    rw [hrec, hlost, hsucc, ← forwardAndRelay_reports hx]
    constructor
    · intro he
      exact .inr ⟨hs, List.cons.inj he |>.1⟩
    · rintro (⟨_, _, he⟩ | ⟨-, he⟩)
      · simp at he
      · rw [he]

def Admits (simple : Bool) (tr : Trace Ans) : Prop :=
  ∀ t, afterAllow tr = some t → Admission simple t

theorem afterAllow_skip {e : Event} (h : e ≠ ⟨.writerAllow, true⟩) (t : Trace Ans) :
    afterAllow (e :: t) = afterAllow t := by
  obtain ⟨o, x⟩ := e
  cases o with
  | writerAllow =>
    cases x with
    | true => exact absurd rfl h
    | false => rfl
  | _ => rfl

theorem afterAllow_apart (h : ∀ e ∈ t₀, e.1.atWriterBreaker = false) (t : Trace Ans) :
    afterAllow (t₀ ++ t) = afterAllow t := by
  induction t₀ with
  | nil => rfl
  | cons e t₀ ih =>
    have he : e ≠ ⟨.writerAllow, true⟩ := by
      rintro rfl
      cases h _ (.head _)
    rw [List.cons_append, afterAllow_skip he, ih fun e he => h e (.tail _ he)]

theorem afterAllow_none (h : ∀ e ∈ t, e.1.atWriterBreaker = false) : afterAllow t = none := by
  rw [← List.append_nil t, afterAllow_apart h]
  rfl

theorem admits_none (h : afterAllow t = none) : Admits simple t := by
  intro u hu
  rw [h] at hu
  cases hu

theorem Apart.admits {p : Proc α} (hp : Apart p) : Always (Admits simple) p :=
  fun tr a h => admits_none (afterAllow_none (hp tr a h))

theorem Apart.bind_admits {p : Proc α} {f : α → Proc β} (hp : Apart p)
    (hf : ∀ a, Always (Admits simple) (f a)) : Always (Admits simple) (p >>= f) := by
  intro tr b h
  obtain ⟨t₁, a, t₂, h₁, h₂, rfl⟩ := h.of_bind
  intro t ht
  rw [afterAllow_apart (hp t₁ a h₁)] at ht
  exact hf a t₂ b h₂ t ht

theorem admits_map {p : Proc α} {f : α → β} (hp : Always (Admits simple) p) :
    Always (Admits simple) (p >>= fun a => pure (f a)) := by
  intro tr b h
  obtain ⟨t₁, a, t₂, h₁, h₂, rfl⟩ := h.of_bind
  obtain ⟨rfl, -⟩ := runs_pure.mp h₂
  rw [List.append_nil]
  exact hp t₁ a h₁

/-- How a writer path talks to its connection: a simple query is recorded after the exchange,
anything else is not. -/
def Talks (simple : Bool) (c : ConnId) (tr : Trace Ans) : Prop :=
  (simple = true ∧ ∃ ms t ok u, Runs (forwardAndRelay c ms) t ok ∧
      tr = t ++ ⟨.writerRecord ok, ()⟩ :: u ∧ (∀ e ∈ u, e.1.atWriterBreaker = false) ∧
      ∀ e ∈ u, e.1.sendsReady = false) ∨
    simple = false ∧ ∀ e ∈ tr, e.1.atWriterBreaker = false

theorem Talks.afterAllow (h : Talks simple c tr) (t : Trace Ans) :
    afterAllow (tr ++ t) = Pgmux.afterAllow t := by
  rcases h with ⟨-, ms, t₁, ok, u, h₁, rfl, hu, -⟩ | ⟨-, ha⟩
  · rw [List.append_assoc, afterAllow_apart ((forwardAndRelay_foot.apart rfl) t₁ ok h₁),
      List.cons_append, afterAllow_skip (by simp), afterAllow_apart hu]
  · exact afterAllow_apart ha t

theorem handleWriteQuery_talks (h : Runs (handleWriteQuery c msg query s pq qtype cfg) tr r) :
    Talks true c tr := by
  cases handleWriteQuery_ways h with
  | failed h₁ =>
    exact .inl ⟨rfl, [msg], _, false, [], h₁, rfl, List.forall_mem_nil _, List.forall_mem_nil _⟩
  | relayed h₁ h₂ h₃ =>
    refine .inl ⟨rfl, [msg], _, true, _, h₁, rfl, ?_, ?_⟩ <;> rw [List.forall_mem_append]
    · exact ⟨trackWriteLSN_foot.apart rfl _ _ h₂, invalidateWrite_foot.apart rfl _ _ h₃⟩
    · exact ⟨trackWriteLSN_foot.silent rfl _ _ h₂, invalidateWrite_foot.silent rfl _ _ h₃⟩

theorem forwardFor_talks (h : Runs (forwardFor s ms c) tr r) : Talks false c tr := by
  have hapart : Apart (forwardFor s ms c) :=
    .bind (forwardAndRelay_foot.apart rfl) fun _ => .ite (within_pure _) (within_pure _)
  exact .inr ⟨rfl, hapart tr r h⟩

theorem Talks.admits (ht : Talks simple c t)
    (h : Runs (acquireWriterConn bound) t₀ (some (c, acquired)))
    (hu : ∀ e ∈ u, e.1.atWriterBreaker = false ∧ e.1.sendsReady = false) :
    Admits simple (⟨.writerPool, p⟩ :: (t₀ ++ ⟨.writerAddr, addr⟩ :: ⟨.setCancel addr c, ()⟩ ::
      (t ++ u))) := by
  intro v hv
  rw [afterAllow_skip (by simp)] at hv
  cases acquireWriterConn_ways h with
  | bound =>
    rw [List.nil_append, afterAllow_skip (by simp), afterAllow_skip (by simp), ht.afterAllow,
      afterAllow_none fun e he => (hu e he).1] at hv
    cases hv
  | fresh =>
    cases hv
    rcases ht with ⟨rfl, ms, t₂, ok, w, h₂, rfl, hw, hws⟩ | ⟨rfl, ha⟩
    · rw [List.append_assoc, List.cons_append]
      exact .noted rfl h₂ (List.forall_mem_append.mpr ⟨hw, fun e he => (hu e he).1⟩)
        (List.forall_mem_append.mpr ⟨hws, fun e he => (hu e he).2⟩)
    · exact .unnoted rfl (List.forall_mem_cons.mpr ⟨rfl, List.forall_mem_cons.mpr ⟨rfl,
        List.forall_mem_append.mpr ⟨ha, fun e he => (hu e he).1⟩⟩⟩)

theorem onWriter_admits {exchange : ConnId → Proc (Outcome Session)}
    {fin : Relay → ConnId → Bool → PoolId → Proc Flow}
    (hx : ∀ c tr x, Runs (exchange c) tr x → Talks simple c tr)
    (hfin : ∀ st c acquired p, Apart (fin st c acquired p) ∧ Silent (fin st c acquired p)) :
    Always (Admits simple) (onWriter st exchange fin) := by
  intro tr r h
  cases onWriter_ways h with
  | refused h₁ h₂ =>
    have hapart := sendError_foot.apart rfl _ _ h₂
    intro v hv
    rw [afterAllow_skip (by simp)] at hv
    generalize hb : st.boundConn = bound at h₁
    cases acquireWriterConn_ways h₁ with
    | denied =>
      rw [List.singleton_append, afterAllow_skip (by simp), afterAllow_none hapart] at hv
      cases hv
    | refused =>
      cases hv
      exact .refused hapart
  | panicked h₁ ht => simpa using (hx _ _ _ ht).admits h₁ (List.forall_mem_nil _)
  | dropped h₁ ht h₂ =>
    exact (hx _ _ _ ht).admits h₁ (List.forall_mem_cons.mpr ⟨⟨rfl, rfl⟩, fun e he =>
      ⟨dropWriter_foot.apart rfl _ _ h₂ e he, dropWriter_foot.silent rfl _ _ h₂ e he⟩⟩)
  | finished h₁ ht h₂ =>
    exact (hx _ _ _ ht).admits h₁ (List.forall_mem_cons.mpr ⟨⟨rfl, rfl⟩, fun e he =>
      ⟨(hfin _ _ _ _).1 _ _ h₂ e he, (hfin _ _ _ _).2 _ _ h₂ e he⟩⟩)

theorem writeQuery_admits :
    Always (Admits true) (writeQuery st msg query pq qtype cfg wasInTx nowInTx) :=
  onWriter_admits (fun _ _ _ => handleWriteQuery_talks) fun _ _ _ _ =>
    ⟨finishQuery_foot.apart rfl, finishQuery_foot.silent rfl⟩

theorem writeBatch_admits : Always (Admits false) (writeBatch st msg) :=
  onWriter_admits (fun _ _ _ => forwardFor_talks) fun _ _ _ _ =>
    ⟨finishBatch_foot.apart rfl, finishBatch_foot.silent rfl⟩

theorem executeSynthesizedQuery_admits :
    Always (Admits false) (executeSynthesizedQuery st query) := by
  apply Always.ite
  · exact Apart.admits (.bind (apart_ask rfl) fun _ =>
      .bind (handleSynthesizedRead_foot.apart rfl) fun _ => within_pure _)
  · exact onWriter_admits (fun _ _ _ => forwardFor_talks) fun _ _ _ _ =>
      ⟨finishSynthesized_foot.apart rfl, finishSynthesized_foot.silent rfl⟩

theorem routeQuery_admits : Always (Admits true) (routeQuery st msg query pq cfg) := by
  unfold routeQuery
  apply (apart_ask rfl).bind_admits
  intro now
  apply (routedType_foot.apart rfl).bind_admits
  intro qtype
  apply (apart_ask rfl).bind_admits
  intro readOnly
  apply Always.ite
  · exact Apart.admits (.bind (reject_foot.apart rfl) fun _ => within_pure _)
  · split
    · exact writeQuery_admits
    · exact Apart.admits (.bind (handleReadQueryTraced_foot.apart rfl) fun _ => within_pure _)

theorem handleQuery_admits : Always (Admits true) (handleQuery st msg) := by
  unfold handleQuery
  apply (apart_ask rfl).bind_admits
  intro cfg
  apply (rewriteQuery_foot.apart rfl).bind_admits
  intro rewritten
  dsimp only
  split
  · exact Apart.admits (.bind (reject_foot.apart rfl) fun _ => within_pure _)
  · split
    · exact Apart.admits (.bind (reject_foot.apart rfl) fun _ => within_pure _)
    · exact routeQuery_admits
    · exact routeQuery_admits

theorem executeSync_admits : Always (Admits false) (executeSync st msg) := by
  unfold executeSync
  split
  · unfold syncMultiplex
    split
    · exact Apart.admits (.bind (sendReadyForQuery_foot.apart rfl) fun _ => within_pure _)
    · split
      · exact Apart.admits (.bind (sendError_foot.apart rfl) fun _ =>
          .bind (sendReadyForQuery_foot.apart rfl) fun _ => within_pure _)
      · exact admits_map executeSynthesizedQuery_admits
  · exact admits_map (.ite (readBatch_foot.apart rfl).admits writeBatch_admits)

theorem handleSync_admits : Always (Admits false) (handleSync st msg) := by
  unfold handleSync
  apply (releaseStaleReader_foot.apart rfl).bind_admits
  intro st
  split
  · exact Apart.admits (.bind (rejectBatch_foot.apart rfl) fun _ => within_pure _)
  · apply (apart_ask rfl).bind_admits
    intro readOnly
    apply Always.ite
    · exact Apart.admits (.bind (rejectBatch_foot.apart rfl) fun _ => within_pure _)
    · exact executeSync_admits

theorem handleExtended_admits : Always (Admits false) (handleExtended st msg) := by
  by_cases ht : msg.type = msgSync
  · rw [handleExtended_sync ht]
    exact handleSync_admits
  · exact ((handleExtended_foot ht).apart rfl).admits

theorem relayStep_admits (h : Runs (relayStep st) tr r) :
    afterAllow tr = none ∨
      ∃ msg, received tr = some msg ∧ Admits (decide (msg.type = msgQuery)) tr := by
  have hpre {msg m t₁ x t simple} (h₁ : Runs rateLimited t₁ x) (ht : Admits simple t) :
      Admits simple (⟨.ctxDone, false⟩ :: ⟨.readClient, .message msg⟩ :: ⟨.inMaintenance, m⟩ ::
        (t₁ ++ t)) := by
    intro u hu
    rw [afterAllow_skip (by simp), afterAllow_skip (by simp), afterAllow_skip (by simp),
      afterAllow_apart (rateLimited_foot.apart rfl _ _ h₁)] at hu
    exact ht u hu
  cases relayStep_ways h with
  | ends hk => exact .inl (afterAllow_none (hk.apart rfl))
  | limited h₁ h₂ => exact .inr ⟨_, rfl, hpre h₁ ((reject_foot.apart rfl).admits _ _ h₂)⟩
  | query hq h₁ h₂ =>
    refine .inr ⟨_, rfl, hpre h₁ ?_⟩
    rw [decide_eq_true hq]
    exact handleQuery_admits _ _ h₂
  | extended hq _ h₁ h₂ =>
    refine .inr ⟨_, rfl, hpre h₁ ?_⟩
    rw [decide_eq_false hq]
    exact handleExtended_admits _ _ h₂

theorem relayStep_accounted_iff (h : Runs (relayStep st) tr r) :
    Accounted tr ↔ SimplyServed tr := by
  rcases relayStep_admits h with hn | ⟨msg, hmsg, hadm⟩
  · simp [Accounted, SimplyServed, hn]
  · refine forall_congr' fun t => forall_congr' fun ht => ?_
    rw [(hadm t ht).accounted_iff, hmsg]
    simp

end Accounting

/-- In every run of a session each round accounts for the request that the breaker of the writer
admits exactly when the pool refuses, or the request is a simple query whose ReadyForQuery the
client takes; the cleanup admits none. -/
theorem breaker_accounting_iff [External] {rs : List (Relay × Trace Ans)} {t : Trace Ans}
    (h : RelayRun dbName session multiplex rs t) :
    (∀ r ∈ rs, Accounted r.2 ↔ SimplyServed r.2) ∧ afterAllow t = none := by
  obtain ⟨st, hrs, hc⟩ := h
  refine ⟨?_, afterAllow_none ((cleanup_foot.apart rfl) t () hc)⟩
  intro r hr
  obtain ⟨x, hx⟩ := hrs.runs_of_mem hr
  exact relayStep_accounted_iff hx

def admittedAs [External] (records : List Bool) (succeeded : Bool)
    (rs : List (Relay × Trace Ans)) : Bool :=
  rs.any fun r => (afterAllow r.2).any fun t =>
    recorded t = records && exchangeSucceeded t = succeeded

theorem admittedAs_spec [External] {rs : List (Relay × Trace Ans)}
    (h : admittedAs records succeeded rs) :
    ∃ r ∈ rs, ∃ u, afterAllow r.2 = some u ∧ recorded u = records ∧
      exchangeSucceeded u = succeeded := by
  obtain ⟨r, hr, hc⟩ := List.any_eq_true.mp h
  obtain ⟨u, hu, hc⟩ := (Option.any_eq_true _ _).mp hc
  simp only [Bool.and_eq_true, decide_eq_true_eq] at hc
  exact ⟨r, hr, u, hu, hc⟩

/-- A simple query is admitted, and its success is recorded. -/
theorem breaker_accounting_iff_insert : ∃ (_ : External) (session : Session)
    (rs : List (Relay × Trace Ans)) (t : Trace Ans), RelayRun [] session false rs t ∧
      ∃ r ∈ rs, SimplyServed r.2 ∧ ∃ u, afterAllow r.2 = some u ∧ recorded u = [true] := by
  let _ := asciiExternal
  refine ⟨asciiExternal, ?_⟩
  obtain ⟨session, rs, t, h, hc⟩ := Script.play_check (n := 60)
    (s := Script.simple [queryMessage (ascii "INSERT INTO a VALUES (1)")] [readyMessage])
    (f := fun rs _ => admittedAs [true] true rs) (by decide +kernel)
  obtain ⟨r, hr, u, hu, hrec, hsucc⟩ := admittedAs_spec hc
  refine ⟨session, rs, t, h, r, hr, ((breaker_accounting_iff h).1 r hr).mp ?_, u, hu, hrec⟩
  intro v hv
  cases hu.symm.trans hv
  rw [hrec, hsucc]

/-- A batch is admitted and executed, and nothing is recorded. -/
theorem batch_not_recorded : ∃ (_ : External) (session : Session)
    (rs : List (Relay × Trace Ans)) (t : Trace Ans), RelayRun [] session false rs t ∧
      ∃ r ∈ rs, (∃ u, afterAllow r.2 = some u ∧ recorded u = [] ∧ exchangeSucceeded u = true) ∧
        ¬ Accounted r.2 := by
  let _ := asciiExternal
  refine ⟨asciiExternal, ?_⟩
  obtain ⟨session, rs, t, h, hc⟩ := Script.play_check (n := 60)
    (s := Script.simple [parseMessage [] (ascii "INSERT INTO a VALUES (1)"), bindMessage [],
      executeMessage, syncMessage] [readyMessage])
    (f := fun rs _ => admittedAs [] true rs) (by decide +kernel)
  obtain ⟨r, hr, u, hu, hrec, hsucc⟩ := admittedAs_spec hc
  refine ⟨session, rs, t, h, r, hr, ⟨u, hu, hrec, hsucc⟩, ?_⟩
  intro ha
  rw [ha u hu] at hrec
  cases hrec

end Pgmux
