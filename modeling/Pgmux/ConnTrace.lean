import Pgmux.Backend
import Pgmux.Cache

namespace Pgmux

open Interaction

def Op.cacheCall : Op → Option CacheCall
  | .cacheGet key => some (.get key)
  | .cacheSet key data tables => some (.set key data tables)
  | .invalidateTable table => some (.invalidateTable table)
  | _ => none

def Op.onConn : Op → Bool
  | .writerPool => true
  | .acquire _ => true
  | .release _ _ => true
  | .discard _ _ => true
  | .write _ _ => true
  | .read _ => true
  | _ => false

section ConnTrace

variable [External]

def conn (tr : Trace Ans) : Trace Ans := tr.filter fun e => e.1.onConn

@[simp] theorem conn_nil : conn ([] : Trace Ans) = [] := rfl

@[simp] theorem conn_append (t₁ t₂ : Trace Ans) : conn (t₁ ++ t₂) = conn t₁ ++ conn t₂ :=
  List.filter_append ..

theorem conn_cons (e : Event) (t : Trace Ans) :
    conn (e :: t) = if e.1.onConn then e :: conn t else conn t :=
  List.filter_cons ..

def Reads (c : ConnId) (t : Trace Ans) : Prop := ∀ e ∈ t, ∃ r, e = ⟨.read c, r⟩

theorem Reads.append {t₁ t₂ : Trace Ans} (h₁ : Reads c t₁) (h₂ : Reads c t₂) :
    Reads c (t₁ ++ t₂) := by
  exact List.forall_mem_append.mpr ⟨h₁, h₂⟩

theorem Reads.single (r : Option Message) : Reads c ([⟨.read c, r⟩] : Trace Ans) := by
  intro e he
  exact ⟨r, List.mem_singleton.mp he⟩

inductive Sent (c : ConnId) : List Message → Trace Ans → Bool → Prop
  | done : Sent c [] [] true
  | fail : Sent c (m :: ms) [⟨.write c m, false⟩] false
  | more : Sent c ms t ok → Sent c (m :: ms) (⟨.write c m, true⟩ :: t) ok

structure Relayed (c : ConnId) (t : Trace Ans) (ok : Bool) : Prop where
  reads : Reads c t
  ready : ok = true →
    ∃ t' m, t = t' ++ [⟨.read c, some m⟩] ∧ m.type = msgReadyForQuery

inductive Exchange (c : ConnId) (ms : List Message) : Trace Ans → Bool → Prop
  | unsent : Sent c ms t false → Exchange c ms t false
  | sent : Sent c ms t₁ true → Relayed c t₂ ok → Exchange c ms (t₁ ++ t₂) ok

inductive Drained (c : ConnId) : Trace Ans → Bool → Prop
  | broken : accepted x = none → Drained c [⟨.read c, x⟩] false
  | error : m.type = msgErrorResponse → Drained c [⟨.read c, some m⟩] false
  | ready : m.type = msgReadyForQuery → Drained c [⟨.read c, some m⟩] true
  | more : m.type ≠ msgErrorResponse → m.type ≠ msgReadyForQuery → Drained c t ok →
      Drained c (⟨.read c, some m⟩ :: t) ok

inductive Probed (c : ConnId) (query : Bytes) : Trace Ans → Bool → Prop
  | unsent : Probed c query [⟨.write c (queryMessage query), false⟩] false
  | sent : Drained c t ok → Probed c query (⟨.write c (queryMessage query), true⟩ :: t) ok

/-- Every configuration that the trace shows has a reset query in `R`. -/
def Configured (R : Bytes → Prop) (tr : Trace Ans) : Prop :=
  ∀ cfg : Config, ⟨.config, cfg⟩ ∈ tr → R cfg.resetQuery

theorem Configured.left {t₁ t₂ : Trace Ans} (h : Configured R (t₁ ++ t₂)) : Configured R t₁ :=
  fun cfg hc => h cfg (List.mem_append_left _ hc)

theorem Configured.right {t₁ t₂ : Trace Ans} (h : Configured R (t₁ ++ t₂)) : Configured R t₂ :=
  fun cfg hc => h cfg (List.mem_append_right _ hc)

theorem Configured.tail {t : Trace Ans} (h : Configured R (e :: t)) : Configured R t :=
  fun cfg hc => h cfg (.tail _ hc)

inductive HandedBack (R : Bytes → Prop) (c : ConnId) (p : Option PoolId) :
    Bool → Trace Ans → Prop
  | plain : HandedBack R c p false [⟨.release p c, ()⟩]
  | reset : R q → Probed c q t true → HandedBack R c p true (t ++ [⟨.release p c, ()⟩])
  | failed : R q → Probed c q t false → HandedBack R c p true (t ++ [⟨.discard p c, ()⟩])

/-- A look at the writer pool, a refused acquire, or a visit, in which a connection is acquired,
serves the messages and is given back, always after a reset when `strict`. -/
inductive Visit (R : Bytes → Prop) (strict : Bool) (ms : List Message) : Trace Ans → Prop
  | look : Visit R strict ms [⟨.writerPool, p⟩]
  | refused : Visit R strict ms [⟨.acquire p, none⟩]
  | failed : Exchange c ms t false →
      Visit R strict ms (⟨.acquire p, some c⟩ :: (t ++ [⟨.discard (some p) c, ()⟩]))
  | served : Exchange c ms t₁ true → HandedBack R c (some p) dirty t₂ →
      (strict = true → dirty = true) →
      Visit R strict ms (⟨.acquire p, some c⟩ :: (t₁ ++ t₂))

inductive Visits (R : Bytes → Prop) (strict : Bool) (ms : List Message) : Trace Ans → Prop
  | nil : Visits R strict ms []
  | cons : Visit R strict ms t₁ → Visits R strict ms t₂ → Visits R strict ms (t₁ ++ t₂)

theorem Visit.visits {t : Trace Ans} (h : Visit R strict ms t) : Visits R strict ms t := by
  simpa using Visits.cons h .nil

theorem Visits.append {t₁ t₂ : Trace Ans} (h₁ : Visits R strict ms t₁)
    (h₂ : Visits R strict ms t₂) : Visits R strict ms (t₁ ++ t₂) := by
  induction h₁ with
  | nil => exact h₂
  | cons h _ ih =>
    rw [List.append_assoc]
    exact .cons h ih

def ReadsOnly (c : ConnId) (o : Op) : Prop := o.onConn = true → o = .read c

theorem Within.reads {p : Proc α} (hp : Within (ReadsOnly c) p) (h : Runs p tr a) :
    Reads c (conn tr) := by
  intro e he
  obtain ⟨hm, hc⟩ := List.mem_filter.mp he
  obtain ⟨o, x⟩ := e
  obtain rfl : o = .read c := hp tr a h _ hm hc
  exact ⟨x, rfl⟩

omit [External] in
theorem readsOnly_read : ReadsOnly c (.read c) := fun _ => rfl

omit [External] in
theorem readsOnly_off (h : o.onConn = false) : ReadsOnly c o := by
  simp [ReadsOnly, h]

theorem fromClient_within {P : Op → Prop} {f : Message → α} (hclient : P .readClient)
    (hcopy : ∀ m, P (.copyTo c m)) : Within P (do
      match ← ask .readClient with
      | .message m => if ← ask (.copyTo c m) then return f m else return failed
      | _ => return failed : Proc α) := by
  refine .bind (within_perform hclient) fun r => ?_
  cases r with
  | message m =>
    exact .bind (within_perform (hcopy m)) fun _ => .ite (within_pure _) (within_pure _)
  | timeout => exact within_pure _
  | closed => exact within_pure _

theorem fromBackend_within {P : Op → Prop} {k : Message → Proc α} (hread : P (.read c))
    (hsend : ∀ m, P (.sendClient m)) (hk : ∀ m, Within P (k m)) : Within P (do
      match accepted (← ask (.read c)) with
      | some m => if ← ask (.sendClient m) then k m else return failed
      | none => return failed : Proc α) := by
  refine .bind (within_perform hread) fun r => ?_
  cases accepted r with
  | some m => exact .bind (within_perform (hsend m)) fun _ => .ite (hk m) (within_pure _)
  | none => exact within_pure _

/-- How one message of the backend fares: it is not read, it is not taken by the client, or it is
relayed. -/
inductive Hop (c : ConnId) : Trace Ans → Option Message → Prop
  | unread : accepted x = none → Hop c [⟨.read c, x⟩] none
  | untaken : accepted (some m) = some m →
      Hop c [⟨.read c, some m⟩, ⟨.sendClient m, false⟩] none
  | relayed : accepted (some m) = some m →
      Hop c [⟨.read c, some m⟩, ⟨.sendClient m, true⟩] (some m)

theorem fromBackend_hop {k : Message → Proc α} (h : Runs (do
      match accepted (← ask (.read c)) with
      | some m => if ← ask (.sendClient m) then k m else return failed
      | none => return failed : Proc α) tr r) :
    (r = failed ∧ Hop c tr none) ∨
      ∃ m u u', Hop c u (some m) ∧ Runs (k m) u' r ∧ tr = u ++ u' := by
  obtain ⟨x, t, h₁, rfl⟩ := runs_perform_bind.mp h
  rcases accepted_cases x with hx | ⟨m, rfl, hx⟩ <;> rw [hx] at h₁
  · obtain ⟨rfl, rfl⟩ := runs_pure.mp h₁
    exact .inl ⟨rfl, .unread hx⟩
  · obtain ⟨taken, t, h₂, rfl⟩ := runs_perform_bind.mp h₁
    cases taken with
    | true => exact .inr ⟨m, _, t, .relayed hx, h₂, rfl⟩
    | false =>
      obtain ⟨rfl, rfl⟩ := runs_pure.mp h₂
      exact .inl ⟨rfl, .untaken hx⟩

structure RelayOps (P : Op → Prop) (c : ConnId) : Prop where
  read : P (.read c)
  send : ∀ m, P (.sendClient m)
  client : P .readClient
  copy : ∀ m, P (.copyTo c m)
  schedule : P .schedule

section RelayOps

variable {P : Op → Prop} (hP : RelayOps P c)

include hP

theorem relayCopyIn_within : Within P (relayCopyIn c) :=
  .iterate (fun _ => fromClient_within hP.client hP.copy) ()

theorem relayCopyOut_within : Within P (relayCopyOut c) :=
  .iterate (fun _ => fromBackend_within hP.read hP.send fun _ => within_pure _) ()

theorem copyBothBackend_within : Within P (copyBothBackend c) :=
  fromBackend_within hP.read hP.send fun _ => within_pure _

theorem copyBothClient_within : Within P (copyBothClient c) :=
  fromClient_within hP.client hP.copy

theorem relayCopyBoth_within : Within P (relayCopyBoth c) := by
  refine .iterate (fun ends => ?_) (none, none)
  obtain ⟨a | a, b | b⟩ := ends
  · refine .bind (within_perform hP.schedule) fun turn => .ite ?_ ?_
    · exact .bind (copyBothBackend_within hP) fun _ => within_pure _
    · exact .bind (copyBothClient_within hP) fun _ => within_pure _
  · exact .bind (copyBothBackend_within hP) fun _ => within_pure _
  · exact .bind (copyBothClient_within hP) fun _ => within_pure _
  · exact within_pure _

theorem relayCopy_within : Within P (relayCopy c m) :=
  .ite (relayCopyIn_within hP)
    (.ite (relayCopyOut_within hP) (.ite (relayCopyBoth_within hP) (within_pure _)))

theorem relayRound_within {go : Message → σ} {done : Message → β} :
    Within P (relayRound c go done failed) :=
  fromBackend_within hP.read hP.send fun _ => .ite (within_pure _)
    (.bind (relayCopy_within hP) fun _ => .ite (within_pure _) (within_pure _))

end RelayOps

omit [External] in
theorem relayOps_readsOnly (c : ConnId) : RelayOps (ReadsOnly c) c where
  read := readsOnly_read
  send _ := readsOnly_off rfl
  client := readsOnly_off rfl
  copy _ := readsOnly_off rfl
  schedule := readsOnly_off rfl

/-- A round of a relay: the message does not pass, it ends the relay, or the COPY stream that it
opens is relayed or fails. -/
inductive HopWays (c : ConnId) (go : Message → σ) (done : Message → β) (failed : β) :
    Trace Ans → σ ⊕ β → Prop
  | stuck : Hop c t none → HopWays c go done failed t (.inr failed)
  | ready : m.type = msgReadyForQuery → Hop c t (some m) →
      HopWays c go done failed t (.inr (done m))
  | copied : m.type ≠ msgReadyForQuery → Hop c t (some m) → Runs (relayCopy c m) u true →
      HopWays c go done failed (t ++ u) (.inl (go m))
  | broken : m.type ≠ msgReadyForQuery → Hop c t (some m) → Runs (relayCopy c m) u false →
      HopWays c go done failed (t ++ u) (.inr failed)

theorem relayRound_ways {go : Message → σ} {done : Message → β}
    (h : Runs (relayRound c go done failed) tr r) : HopWays c go done failed tr r := by
  rcases fromBackend_hop h with ⟨rfl, hp⟩ | ⟨m, u, u', hp, hk, rfl⟩
  · exact .stuck hp
  split at hk
  · rename_i hm
    obtain ⟨rfl, rfl⟩ := runs_pure.mp hk
    rw [List.append_nil]
    exact .ready hm hp
  · rename_i hm
    obtain ⟨t₁, ok, t₂, h₁, h₂, rfl⟩ := hk.of_bind
    cases ok with
    | true =>
      obtain ⟨rfl, rfl⟩ := runs_pure.mp h₂
      rw [List.append_nil]
      exact .copied hm hp h₁
    | false =>
      obtain ⟨rfl, rfl⟩ := runs_pure.mp h₂
      rw [List.append_nil]
      exact .broken hm hp h₁

theorem relayRound_leave {go : Message → σ} {done : Message → β}
    (h : Runs (relayRound c go done failed) tr (.inr r)) :
    r = failed ∨ ∃ m, m.type = msgReadyForQuery ∧ r = done m ∧
      tr = [⟨.read c, some m⟩, ⟨.sendClient m, true⟩] := by
  generalize hx : Sum.inr r = x at h
  cases relayRound_ways h with
  | stuck => exact .inl (Sum.inr.inj hx)
  | ready hm hp =>
    cases hp
    exact .inr ⟨_, hm, Sum.inr.inj hx, rfl⟩
  | copied => cases hx
  | broken => exact .inl (Sum.inr.inj hx)

theorem relayRound_copied {go : Message → σ} {done : Message → β}
    (h : Runs (relayRound c go done failed) tr (.inl s)) :
    ∃ m t, m.type ≠ msgReadyForQuery ∧ s = go m ∧ Runs (relayCopy c m) t true ∧
      tr = ⟨.read c, some m⟩ :: ⟨.sendClient m, true⟩ :: t := by
  generalize hx : Sum.inl s = x at h
  cases relayRound_ways h with
  | stuck => cases hx
  | ready => cases hx
  | copied hm hp hc =>
    cases hp
    exact ⟨_, _, hm, Sum.inl.inj hx, hc, rfl⟩
  | broken => cases hx

theorem relayRound_again {go : Message → σ} {done : Message → β}
    (h : Runs (relayRound c go done failed) tr (.inl s)) :
    ∃ m t, m.type ≠ msgReadyForQuery ∧ s = go m ∧ (isCopyResponse m = false → t = []) ∧
      tr = ⟨.read c, some m⟩ :: ⟨.sendClient m, true⟩ :: t := by
  obtain ⟨m, t, hm, hs, hc, ht⟩ := relayRound_copied h
  refine ⟨m, t, hm, hs, fun hcopy => ?_, ht⟩
  simp only [isCopyResponse, decide_eq_false_iff_not, not_or] at hcopy
  rw [relayCopy, if_neg hcopy.1, if_neg hcopy.2.1, if_neg hcopy.2.2] at hc
  exact (runs_pure.mp hc).1

theorem relayed_of_iterate {go : σ → Message → σ} {done : σ → Message → β} (ok : β → Bool)
    (hf : ok failed = false)
    (h : Runs (iterate (fun s => relayRound c (go s) (done s) failed) s) tr r) :
    Relayed c (conn tr) (ok r) := by
  refine ⟨Within.reads (.iterate (fun _ => relayRound_within (relayOps_readsOnly c)) s) h,
    fun hr => ?_⟩
  obtain ⟨s', t, t', -, hb, rfl⟩ :=
    h.of_iterate (I := fun _ _ => True) trivial fun _ _ _ _ _ _ => trivial
  rcases relayRound_leave hb with rfl | ⟨m, hm, rfl, ht⟩
  · simp [hf] at hr
  · exact ⟨conn t, m, by rw [conn_append, ht]; rfl, hm⟩

theorem relayUntilReady_relayed (h : Runs (relayUntilReady c) tr ok) : Relayed c (conn tr) ok :=
  relayed_of_iterate id rfl h

theorem relayAndCollect_relayed (h : Runs (relayAndCollect c) tr r) :
    Relayed c (conn tr) r.isSome := by
  unfold relayAndCollect at h
  rw [runs_perform_bind] at h
  obtain ⟨cfg, t, h, rfl⟩ := h
  change Relayed c (conn t) r.isSome
  exact relayed_of_iterate Option.isSome rfl h

theorem relayOnly_relayed (h : Runs (relayOnly c) tr r) : Relayed c (conn tr) r.isSome := by
  obtain ⟨t₁, ok, t₂, h₁, h₂, rfl⟩ := h.of_bind
  have hr := relayUntilReady_relayed h₁
  cases ok <;> simp at h₂ <;> obtain ⟨rfl, rfl⟩ := h₂ <;> simpa using hr

theorem relayCached_relayed (h : Runs (relayCached c) tr r) : Relayed c (conn tr) r.isSome := by
  unfold relayCached at h
  rw [runs_perform_bind] at h
  obtain ⟨cached, t, h, rfl⟩ := h
  change Relayed c (conn t) r.isSome
  split at h
  · exact relayAndCollect_relayed h
  · exact relayOnly_relayed h

theorem forwardAll_sent (h : Runs (forwardAll c ms) tr ok) : Sent c ms (conn tr) ok := by
  induction ms generalizing tr with
  | nil =>
    simp only [forwardAll, runs_pure] at h
    obtain ⟨rfl, rfl⟩ := h
    exact .done
  | cons m ms ih =>
    unfold forwardAll at h
    rw [runs_perform_bind] at h
    obtain ⟨x, t, h, rfl⟩ := h
    cases x with
    | true => exact .more (ih h)
    | false =>
      simp only [Bool.false_eq_true, if_false, runs_pure] at h
      obtain ⟨rfl, rfl⟩ := h
      exact .fail

theorem forwardAndRelay_exchange (h : Runs (forwardAndRelay c ms) tr ok) :
    Exchange c ms (conn tr) ok := by
  obtain ⟨t₁, sent, t₂, h₁, h₂, rfl⟩ := h.of_bind
  have hs := forwardAll_sent h₁
  rw [conn_append]
  cases sent with
  | true => exact .sent hs (relayUntilReady_relayed h₂)
  | false =>
    simp only [Bool.false_eq_true, if_false, runs_pure] at h₂
    obtain ⟨rfl, rfl⟩ := h₂
    simpa using Exchange.unsent hs

theorem drainRound_again {go : Message → σ} {done : Message → β}
    (h : Runs (drainRound c go done failed) tr (.inl s)) :
    ∃ m, m.type ≠ msgErrorResponse ∧ m.type ≠ msgReadyForQuery ∧
      conn tr = [⟨.read c, some m⟩] := by
  unfold drainRound at h
  rw [runs_perform_bind] at h
  obtain ⟨x, t, h, rfl⟩ := h
  rcases accepted_cases x with hx | ⟨m, rfl, hx⟩ <;> rw [hx] at h
  · simp at h
  · dsimp only at h
    split at h
    · simp at h
    · split at h
      · simp at h
      · rename_i he hr
        simp only [runs_pure] at h
        obtain ⟨rfl, -⟩ := h
        exact ⟨m, he, hr, rfl⟩

theorem drainRound_leave {go : Message → σ} {done : Message → β}
    (h : Runs (drainRound c go done failed) tr (.inr r)) :
    (Drained c (conn tr) false ∧ r = failed) ∨
      (Drained c (conn tr) true ∧ ∃ m, r = done m) := by
  unfold drainRound at h
  rw [runs_perform_bind] at h
  obtain ⟨x, t, h, rfl⟩ := h
  rcases accepted_cases x with hx | ⟨m, rfl, hx⟩ <;> rw [hx] at h
  · simp only [runs_pure, Sum.inr.injEq] at h
    obtain ⟨rfl, rfl⟩ := h
    exact .inl ⟨.broken hx, rfl⟩
  · dsimp only at h
    split at h
    · rename_i he
      simp only [runs_pure, Sum.inr.injEq] at h
      obtain ⟨rfl, rfl⟩ := h
      exact .inl ⟨.error he, rfl⟩
    · split at h
      · rename_i hr
        simp only [runs_pure, Sum.inr.injEq] at h
        obtain ⟨rfl, rfl⟩ := h
        exact .inr ⟨.ready hr, m, rfl⟩
      · simp at h

theorem drained_of_iterate {go : σ → Message → σ} {done : σ → Message → β}
    (h : Runs (iterate (fun s => drainRound c (go s) (done s) failed) s) tr r) :
    (Drained c (conn tr) false ∧ r = failed) ∨
      (Drained c (conn tr) true ∧ ∃ s m, r = done s m) := by
  obtain ⟨s', t, t', hI, hb, rfl⟩ := h.of_iterate
    (I := fun _ t => ∀ t' ok, Drained c t' ok → Drained c (conn t ++ t') ok)
    (fun _ _ h => h) (by
      intro s t t' s' hI hb t'' ok hd
      obtain ⟨m, he, hr, ht'⟩ := drainRound_again hb
      rw [conn_append, ht', List.append_assoc]
      exact hI _ _ (.more he hr hd))
  rw [conn_append]
  rcases drainRound_leave hb with ⟨hd, rfl⟩ | ⟨hd, m, rfl⟩
  · exact .inl ⟨hI _ _ hd, rfl⟩
  · exact .inr ⟨hI _ _ hd, s', m, rfl⟩

theorem queryLSN_probed (h : Runs (queryLSN q c) tr r) :
    ∃ ok, Probed c q (conn tr) ok ∧ (r.isSome → ok = true) := by
  unfold queryLSN at h
  rw [runs_perform_bind] at h
  obtain ⟨x, t, h, rfl⟩ := h
  cases x with
  | true =>
    rcases drained_of_iterate h with ⟨hd, rfl⟩ | ⟨hd, -⟩
    · exact ⟨false, .sent hd, fun h => nomatch h⟩
    · exact ⟨true, .sent hd, fun _ => rfl⟩
  | false =>
    simp only [Bool.false_eq_true, if_false, runs_pure] at h
    obtain ⟨rfl, rfl⟩ := h
    exact ⟨false, .unsent, fun h => nomatch h⟩

theorem resetConn_probed (h : Runs (resetConn c) tr ok) (hR : Configured R tr) :
    ∃ q, R q ∧ Probed c q (conn tr) ok := by
  unfold resetConn at h
  rw [runs_perform_bind] at h
  obtain ⟨cfg, t, h, rfl⟩ := h
  refine ⟨cfg.resetQuery, hR cfg (.head _), ?_⟩
  change Probed c cfg.resetQuery (conn t) ok
  simp only [cfg.resetQuery_ne, if_false] at h
  rw [runs_perform_bind] at h
  obtain ⟨x, t', h, rfl⟩ := h
  cases x with
  | true =>
    rcases drained_of_iterate h with ⟨hd, rfl⟩ | ⟨hd, _, _, rfl⟩
    · exact .sent hd
    · exact .sent hd
  | false =>
    simp only [Bool.false_eq_true, if_false, runs_pure] at h
    obtain ⟨rfl, rfl⟩ := h
    exact .unsent

theorem releaseToPool_runs (h : Runs (releaseToPool c p) tr alive) :
    tr = [⟨.release p c, ()⟩] ∧ alive = p.isSome := by
  replace h := runs_perform_bind.mp h
  obtain ⟨_, _, h, rfl⟩ := h
  obtain ⟨rfl, rfl⟩ := runs_pure.mp h
  exact ⟨rfl, rfl⟩

theorem discardToPool_runs (h : Runs (discardToPool c p) tr alive) :
    tr = [⟨.discard p c, ()⟩] ∧ alive = p.isSome := by
  replace h := runs_perform_bind.mp h
  obtain ⟨_, _, h, rfl⟩ := h
  obtain ⟨rfl, rfl⟩ := runs_pure.mp h
  exact ⟨rfl, rfl⟩

theorem releaseToPool_conn (h : Runs (releaseToPool c p) tr alive) :
    conn tr = [⟨.release p c, ()⟩] ∧ alive = p.isSome :=
  ⟨congrArg conn (releaseToPool_runs h).1, (releaseToPool_runs h).2⟩

theorem discardToPool_conn (h : Runs (discardToPool c p) tr alive) :
    conn tr = [⟨.discard p c, ()⟩] ∧ alive = p.isSome :=
  ⟨congrArg conn (discardToPool_runs h).1, (discardToPool_runs h).2⟩

theorem resetAndReleaseToPool_handedBack (h : Runs (resetAndReleaseToPool c p) tr alive)
    (hR : Configured R tr) : HandedBack R c p true (conn tr) ∧ alive = p.isSome := by
  obtain ⟨t₁, ok, t₂, h₁, h₂, rfl⟩ := h.of_bind
  obtain ⟨q, hq, hp⟩ := resetConn_probed h₁ hR.left
  rw [conn_append]
  cases ok with
  | true =>
    obtain ⟨ht, ha⟩ := releaseToPool_conn h₂
    exact ⟨ht ▸ .reset hq hp, ha⟩
  | false =>
    obtain ⟨ht, ha⟩ := discardToPool_conn h₂
    exact ⟨ht ▸ .failed hq hp, ha⟩

theorem handBack_handedBack (h : Runs (handBack dirty c p) tr alive) (hR : Configured R tr) :
    HandedBack R c p dirty (conn tr) ∧ alive = p.isSome := by
  cases dirty with
  | true => exact resetAndReleaseToPool_handedBack h hR
  | false =>
    obtain ⟨ht, ha⟩ := releaseToPool_conn h
    exact ⟨ht ▸ .plain, ha⟩

end ConnTrace

end Pgmux
