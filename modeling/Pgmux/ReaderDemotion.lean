import Pgmux.PoolUsers
import Pgmux.Script

namespace Pgmux

open Interaction

section ReaderDemotion

variable [External]

def clientUp : Sigma Ans → Bool
  | ⟨.sendClient _, ok⟩ => ok
  | ⟨.readClient, .message _⟩ => true
  | ⟨.readClient, _⟩ => false
  | _ => true

def backendUp (c : ConnId) : Sigma Ans → Bool
  | ⟨.read c', m⟩ => c' ≠ c || m.isSome
  | ⟨.write c' _, ok⟩ => c' ≠ c || ok
  | ⟨.copyTo c' _, ok⟩ => c' ≠ c || ok
  | _ => true

def withinLimit (c : ConnId) : Sigma Ans → Bool
  | ⟨.read c', some m⟩ => c' ≠ c || m.payload.length ≤ maxMessageSize
  | _ => true

def relayUp (c : ConnId) (e : Sigma Ans) : Bool := backendUp c e && (withinLimit c e && clientUp e)

section Relays

@[simp] theorem relayUp_read (c : ConnId) (m : Option Message) :
    relayUp c ⟨.read c, m⟩ = (accepted m).isSome := by
  cases m with
  | none => simp [relayUp, backendUp, accepted]
  | some m => by_cases hm : m.payload.length ≤ maxMessageSize <;>
      simp [relayUp, backendUp, withinLimit, clientUp, accepted, Option.filter, hm]

@[simp] theorem relayUp_copyTo (c : ConnId) (m : Message) (ok : Bool) :
    relayUp c ⟨.copyTo c m, ok⟩ = ok := by
  simp [relayUp, backendUp, withinLimit, clientUp]

@[simp] theorem relayUp_sendClient (c : ConnId) (m : Message) (ok : Bool) :
    relayUp c ⟨.sendClient m, ok⟩ = ok := by
  simp [relayUp, backendUp, withinLimit, clientUp]

theorem tells_fromClient {f : Message → α} {good : α → Bool} (hgood : ∀ m, good (f m))
    (hbad : good failed = false) :
    Tells (relayUp c) good (do
      match ← ask .readClient with
      | .message m => if ← ask (.copyTo c m) then return f m else return failed
      | _ => return failed : Proc α) := by
  apply Tells.perform_bind
  · intro r hr
    cases r with
    | message m =>
      apply Tells.perform_bind
      · intro ok hok
        rw [relayUp_copyTo] at hok
        rw [if_pos hok]
        exact tells_pure (hgood m)
      · intro ok hok
        rw [relayUp_copyTo] at hok
        rw [hok]
        exact yields_pure hbad
    | timeout => cases hr
    | closed => cases hr
  · intro r hr
    cases r with
    | message m => cases hr
    | timeout => exact yields_pure hbad
    | closed => exact yields_pure hbad

theorem tells_fromBackend {k : Message → Proc α} {good : α → Bool}
    (hk : ∀ m, Tells (relayUp c) good (k m)) (hbad : good failed = false) :
    Tells (relayUp c) good (do
      match accepted (← ask (.read c)) with
      | some m => if ← ask (.sendClient m) then k m else return failed
      | none => return failed : Proc α) := by
  apply Tells.perform_bind
  · intro r hr
    rw [relayUp_read] at hr
    cases hm : accepted r with
    | some m =>
      apply Tells.perform_bind
      · intro ok hok
        rw [relayUp_sendClient] at hok
        rw [if_pos hok]
        exact hk m
      · intro ok hok
        rw [relayUp_sendClient] at hok
        rw [hok]
        exact yields_pure hbad
    | none => simp [hm] at hr
  · intro r hr
    rw [relayUp_read] at hr
    cases hm : accepted r with
    | some m => simp [hm] at hr
    | none => exact yields_pure hbad

theorem relayCopyIn_tells : Tells (relayUp c) id (relayCopyIn c) := by
  apply Tells.iterate
  intro _
  exact tells_fromClient (fun m => by split <;> rfl) rfl

theorem relayCopyOut_tells : Tells (relayUp c) id (relayCopyOut c) := by
  apply Tells.iterate
  intro _
  exact tells_fromBackend (fun m => tells_pure (by split <;> rfl)) rfl

def unfailed (ended : Option Bool) : Bool := ended.getD true

theorem copyBothBackend_tells : Tells (relayUp c) unfailed (copyBothBackend c) :=
  tells_fromBackend (fun m => tells_pure (by split <;> rfl)) rfl

theorem copyBothClient_tells : Tells (relayUp c) unfailed (copyBothClient c) :=
  tells_fromClient (fun m => by split <;> rfl) rfl

theorem relayCopyBoth_tells : Tells (relayUp c) id (relayCopyBoth c) := by
  have hbackend (b : Option Bool) (t : Trace Ans) (r : _ ⊕ Bool)
      (h : Runs (do
        let a ← copyBothBackend c
        return .inl (a, b) : Proc ((Option Bool × Option Bool) ⊕ Bool)) t r) :
      Sum.elim (fun s => unfailed s.1 && unfailed s.2) id r ↔
        unfailed b ∧ Smooth (relayUp c) t := by
    obtain ⟨t₁, a, t₂, h₁, h₂, rfl⟩ := h.of_bind
    obtain ⟨rfl, rfl⟩ := runs_pure.mp h₂
    rw [List.append_nil, ← copyBothBackend_tells t₁ a h₁]
    simp [and_comm]
  have hclient (a : Option Bool) (t : Trace Ans) (r : _ ⊕ Bool)
      (h : Runs (do
        let b ← copyBothClient c
        return .inl (a, b) : Proc ((Option Bool × Option Bool) ⊕ Bool)) t r) :
      Sum.elim (fun s => unfailed s.1 && unfailed s.2) id r ↔
        unfailed a ∧ Smooth (relayUp c) t := by
    obtain ⟨t₁, b, t₂, h₁, h₂, rfl⟩ := h.of_bind
    obtain ⟨rfl, rfl⟩ := runs_pure.mp h₂
    rw [List.append_nil, ← copyBothClient_tells t₁ b h₁]
    simp
  refine Tells.iterate_of (I := fun s => unfailed s.1 && unfailed s.2) ?_ rfl
  rintro ⟨a | a, b | b⟩ t r h
  · obtain ⟨turn, t₁, hturn, rfl⟩ := runs_perform_bind.mp h
    rw [smooth_cons]
    cases turn with
    | true =>
      simpa [unfailed, relayUp, backendUp, withinLimit, clientUp] using hbackend none t₁ r hturn
    | false =>
      simpa [unfailed, relayUp, backendUp, withinLimit, clientUp] using hclient none t₁ r hturn
  · exact hbackend (some b) t r h
  · simpa [unfailed] using hclient (some a) t r h
  · obtain ⟨rfl, rfl⟩ := runs_pure.mp h
    simp [unfailed, smooth_nil]

theorem relayCopy_tells : Tells (relayUp c) id (relayCopy c m) :=
  .ite relayCopyIn_tells (.ite relayCopyOut_tells (.ite relayCopyBoth_tells (tells_pure rfl)))

theorem relayRound_tells {go : Message → σ} {done : Message → β} {good : β → Bool}
    (hdone : ∀ m, good (done m)) (hfailed : good failed = false) :
    Tells (relayUp c) (Sum.elim (fun _ => true) good) (relayRound c go done failed) := by
  refine tells_fromBackend (fun m => ?_) hfailed
  apply Tells.ite
  · exact tells_pure (hdone m)
  · apply Tells.bind relayCopy_tells
    · intro ok hok
      rw [show ok = true from hok]
      exact tells_pure rfl
    · intro ok hok
      rw [show ok = false from hok]
      exact yields_pure hfailed

theorem relayUntilReady_tells : Tells (relayUp c) id (relayUntilReady c) :=
  .iterate (fun _ => relayRound_tells (fun _ => rfl) rfl) ()

theorem relayAndCollect_tells : Tells (relayUp c) Option.isSome (relayAndCollect c) := by
  apply Tells.perform_bind
  · intro cfg _
    exact .iterate (fun _ => relayRound_tells (fun _ => rfl) rfl) _
  · intro cfg h
    cases h

theorem relayOnly_tells : Tells (relayUp c) Option.isSome (relayOnly c) := by
  apply Tells.bind relayUntilReady_tells
  · intro ok hok
    rw [show ok = true from hok]
    exact tells_pure rfl
  · intro ok hok
    rw [show ok = false from hok]
    exact yields_pure rfl

theorem relayCached_tells : Tells (relayUp c) Option.isSome (relayCached c) := by
  apply Tells.perform_bind
  · intro cached _
    exact .ite relayAndCollect_tells relayOnly_tells
  · intro cached h
    cases h

theorem forwardAll_tells : Tells (backendUp c) id (forwardAll c ms) := by
  induction ms with
  | nil => exact tells_pure rfl
  | cons m ms ih =>
    apply Tells.perform_bind
    · intro ok hok
      rw [if_pos (by simpa [backendUp] using hok)]
      exact ih
    · intro ok hok
      obtain rfl : ok = false := by simpa [backendUp] using hok
      exact yields_pure rfl

end Relays

section Api

def plainAnswer (c : ConnId) : Sigma Ans → Bool
  | ⟨.read c', some m⟩ => c' ≠ c || (m.type ≠ msgErrorResponse && !isCopyResponse m)
  | _ => true

def uncancelled : Sigma Ans → Bool
  | ⟨.ctxDone, done⟩ => !done
  | _ => true

def rowsUp (c : ConnId) (e : Sigma Ans) : Bool :=
  backendUp c e && (withinLimit c e && plainAnswer c e)

/-- A panic is no failure: the rows up to it have come. -/
def Outcome.unfailed : Outcome α → Bool
  | .failed => false
  | _ => true

theorem rowsUp_read (c : ConnId) (r : Option Message) : rowsUp c ⟨.read c, r⟩ =
    match accepted r with
    | none => false
    | some m => m.type ≠ msgErrorResponse && !isCopyResponse m := by
  cases r with
  | none => simp [rowsUp, backendUp, accepted]
  | some m => by_cases hm : m.payload.length ≤ maxMessageSize <;>
      simp [rowsUp, backendUp, withinLimit, plainAnswer, accepted, Option.filter, hm]

theorem readResponse_tells : Tells (rowsUp c) Outcome.unfailed (readResponse c) := by
  apply Tells.iterate
  intro rows
  apply Tells.perform_bind
  · intro r hr
    rw [rowsUp_read] at hr
    cases hm : accepted r with
    | none => simp [hm] at hr
    | some m =>
      obtain ⟨herr, hcopy⟩ : m.type ≠ msgErrorResponse ∧ isCopyResponse m = false := by
        simpa [hm] using hr
      simp only [if_neg herr, hcopy]
      refine .ite (tells_pure rfl) ?_
      cases rows.add m <;> exact tells_pure rfl
  · intro r hr
    rw [rowsUp_read] at hr
    cases hm : accepted r with
    | none => exact yields_pure rfl
    | some m =>
      -- Both branches that drain the rest of the answer end without rows.
      by_cases herr : m.type = msgErrorResponse
      · simp only [if_pos herr]
        exact .bind fun _ => yields_pure rfl
      · have hcopy : isCopyResponse m := by simpa [hm, herr] using hr
        have hready : m.type ≠ msgReadyForQuery := by
          intro h
          rw [isCopyResponse, h] at hcopy
          exact absurd hcopy (by decide)
        simp only [if_neg herr, if_neg hready, if_pos hcopy]
        exact .bind fun _ => .bind fun _ => yields_pure rfl

theorem executeQuery_tells : Tells (rowsUp c) Outcome.unfailed (executeQuery c sql) := by
  apply Tells.ite readResponse_tells
  apply Tells.perform_bind
  · intro ok hok
    rw [if_pos (by simpa [rowsUp, backendUp, withinLimit, plainAnswer] using hok)]
    exact readResponse_tells
  · intro ok hok
    obtain rfl : ok = false := by simpa [rowsUp, backendUp, withinLimit, plainAnswer] using hok
    exact yields_pure rfl

theorem uncancelled_of_ne {e : Sigma Ans} (h : e.1 ≠ .ctxDone) : uncancelled e := by
  obtain ⟨o, x⟩ := e
  cases o <;> first | rfl | exact absurd rfl h

theorem Footprint.calm {q : Proc α} (h : Footprint ks q)
    (hs : ks.all (fun k => !([OpKind.ctx].contains k))) : Within (· ≠ .ctxDone) q := by
  refine h.avoids _ hs fun o ho => ?_
  rintro rfl
  cases ho

end Api

section Paths

inductive ReadPath where
  | simple (msg : Message) (query : Bytes) (session : Session) (pq : Option PgQuery.Tree)
    (cfg : Config) (dbName : Bytes)
  | extended (buf : List Message) (syncMsg : Message) (readerAddr : Option Addr) (dbName : Bytes)
  | synthesized (query : Bytes) (readerAddr : Option Addr)
  | api (sql : Bytes) (pq : Option PgQuery.Tree) (writerPool : PoolId) (dbName : Bytes)

def ReadPath.run : ReadPath → Proc Unit
  | .simple msg query session pq cfg dbName => do
    let _ ← handleReadQueryTraced msg query session pq cfg dbName
    return ()
  | .extended buf syncMsg readerAddr dbName => do
    let _ ← handleExtendedRead buf syncMsg readerAddr dbName
    return ()
  | .synthesized query readerAddr => do
    let _ ← handleSynthesizedRead query readerAddr
    return ()
  | .api sql pq writerPool dbName => do
    let _ ← executeRead sql pq writerPool dbName
    return ()

/-- The calls of the exchange with the reader. The Data API asks for cancellation when it is over.
-/
def ReadPath.exchange (path : ReadPath) (t : Trace Ans) : Trace Ans :=
  match path with
  | .api .. => t.takeWhile (·.1 ≠ .ctxDone)
  | _ => t

/-- No message of the answer is too long, and the client of the proxy stays, or the answer for the
Data API holds no error and no COPY and the request is not cancelled. -/
def ReadPath.Undisturbed (path : ReadPath) (c : ConnId) (t : Trace Ans) : Prop :=
  Smooth (withinLimit c) (path.exchange t) ∧
    match path with
    | .api .. => Smooth (plainAnswer c) (path.exchange t) ∧ Smooth uncancelled t
    | _ => Smooth clientUp t

def Op.demotes (addr : Addr) : Op → Bool
  | .markUnhealthy a => a = addr
  | .readerRecord a ok => a = addr && !ok
  | .acquire _ => true
  | _ => false

def Spared (addr : Addr) (t : Trace Ans) : Prop := ∀ e ∈ t, e.1.demotes addr = false

theorem Footprint.spared {q : Proc α} (h : Footprint ks q)
    (hs : ks.all (fun k => !([.mark, .pool].contains k))) (addr : Addr) :
    Within (fun o => o.demotes addr = false) q :=
  h.avoids _ hs fun o ho => by cases o <;> first | rfl | cases ho

def Op.atClient : Op → Bool
  | .sendClient _ => true
  | .readClient => true
  | _ => false

theorem clientUp_of_apart {e : Sigma Ans} (h : e.1.atClient = false) : clientUp e := by
  obtain ⟨o, x⟩ := e
  cases o <;> first | rfl | cases h

theorem Footprint.offClient {q : Proc α} (h : Footprint ks q)
    (hs : ks.all (fun k => !([.client, .send, .ready].contains k))) :
    Within (fun o => o.atClient = false) q :=
  h.avoids _ hs fun o ho => by
    cases o with
    | sendClient m => cases hm : m.isReady <;> simp [Op.kind, hm] at ho
    | readClient => cases ho
    | _ => rfl

theorem withinLimit_of_ne {e : Sigma Ans} (h : e.1 ≠ .read c) : withinLimit c e := by
  obtain ⟨o, x⟩ := e
  cases o <;> try rfl
  rename_i c'
  have hc : c' ≠ c := fun hc => h (congrArg Op.read hc)
  cases x with
  | none => rfl
  | some m => simp [withinLimit, hc]

theorem Footprint.unread {q : Proc α} (h : Footprint ks q)
    (hs : ks.all (fun k => !([OpKind.read].contains k))) (c : ConnId) : Within (· ≠ .read c) q := by
  refine h.avoids _ hs fun o ho => ?_
  rintro rfl
  cases ho

theorem failReader_demotes (h : Runs (failReader addr counts) tr u) : ¬ Spared addr tr := by
  have hm : ⟨.markUnhealthy addr, ()⟩ ∈ tr := by
    cases counts with
    | true =>
      obtain ⟨_, t, ht, rfl⟩ := runs_perform_bind.mp h
      simp [runs_perform.mp ht]
    | false => simp [runs_perform.mp h]
  intro hs
  simpa [Op.demotes] using hs _ hm

theorem serveReader_spared {relay : ConnId → Proc (Option (Option Bytes))}
    {store : Option Bytes → Proc Bool}
    (h : Runs (serveReader addr p c ms breakOnSend relay store fb) t ok)
    (hrelay : Tells (relayUp c) Option.isSome (relay c))
    (hspare : Footprint (.look :: relaying) (relay c))
    (hstore : ∀ data, Footprint [.look, .cache] (store data))
    (ha : Smooth (backendUp c) t) :
    Spared addr t ↔ Smooth (withinLimit c) t ∧ Smooth clientUp t := by
  have hend {t₁ t₂ t₃ t₄ data alive kept} (h₁ : Runs (forwardAll c ms) t₁ true)
      (ht : Runs (relay c) t₂ (some data)) (h₂ : Runs (releaseToPool c (some p)) t₃ alive)
      (h₃ : Runs (store data) t₄ kept) (rest : Trace Ans)
      (hrest : rest = [] ∨ rest = [⟨.readerRecord addr true, ()⟩]) :
      let t := ⟨.setCancel addr c, ()⟩ :: (t₁ ++ (t₂ ++ ⟨.clearCancel, ()⟩ :: (t₃ ++ (t₄ ++ rest))))
      Spared addr t ↔ Smooth (withinLimit c) t ∧ Smooth clientUp t := by
    have hup := (hrelay _ _ ht).mp rfl
    apply iff_of_true
    · have hforward := forwardAll_foot.spared rfl addr _ _ h₁
      have hrelayed := hspare.spared rfl addr _ _ ht
      have hrelease := releaseToPool_foot.spared rfl addr _ _ h₂
      have hstored := (hstore _).spared rfl addr _ _ h₃
      simp only [Spared, List.forall_mem_cons, List.forall_mem_append]
      exact ⟨rfl, hforward, hrelayed, rfl, hrelease, hstored,
        by rcases hrest with rfl | rfl <;> simp [Op.demotes]⟩
    · have hrelayed e he := Bool.and_eq_true_iff.mp (Bool.and_eq_true_iff.mp (hup e he)).2
      have hforward := forwardAll_foot.offClient rfl _ _ h₁
      have hrelease := releaseToPool_foot.offClient rfl _ _ h₂
      have hstored := (hstore _).offClient rfl _ _ h₃
      have hforward' := forwardAll_foot.unread rfl c _ _ h₁
      have hrelease' := releaseToPool_foot.unread rfl c _ _ h₂
      have hstored' := (hstore _).unread rfl c _ _ h₃
      simp only [smooth_cons, smooth_append]
      refine ⟨⟨rfl, fun e he => withinLimit_of_ne (hforward' e he), fun e he => (hrelayed e he).1,
        rfl, fun e he => withinLimit_of_ne (hrelease' e he),
        fun e he => withinLimit_of_ne (hstored' e he), ?_⟩, rfl,
        fun e he => clientUp_of_apart (hforward e he), fun e he => (hrelayed e he).2, rfl,
        fun e he => clientUp_of_apart (hrelease e he),
        fun e he => clientUp_of_apart (hstored e he), ?_⟩ <;>
      · rcases hrest with rfl | rfl
        · exact smooth_nil
        · simp [smooth_cons, smooth_nil, withinLimit, clientUp]
  cases serveReader_ways h with
  | unsent h₁ =>
    cases (forwardAll_tells _ false h₁).mpr fun e he => ha e (by simp [he])
  | @lost _ t₁ _ _ _ h₁ ht h₂ h₃ =>
    -- The relay failed, and not at the reader.
    have hdown : ¬ Smooth (relayUp c) t₁ := fun hs => by cases (hrelay _ _ ht).mpr hs
    constructor
    · intro hs
      exact absurd (fun e he => hs e (by simp [he])) (failReader_demotes h₃)
    · rintro ⟨hl, hs⟩
      refine absurd (fun e he => ?_) hdown
      rw [relayUp, ha e (by simp [he]), hl e (by simp [he]), hs e (by simp [he])]
      rfl
  | panicked h₁ ht h₂ h₃ => simpa using hend h₁ ht h₂ h₃ [] (.inl rfl)
  | served h₁ ht h₂ h₃ => exact hend h₁ ht h₂ h₃ _ (.inr rfl)

def Op.asksPool : Op → Bool
  | .readerPool _ => true
  | _ => false

abbrev Poolless (p : Proc α) : Prop := Within (fun o => o.asksPool = false) p

theorem Footprint.poolless {q : Proc α} (h : Footprint ks q)
    (hs : ks.all (fun k => !([OpKind.readerPool].contains k))) : Poolless q :=
  h.avoids _ hs fun o ho => by cases o <;> first | rfl | cases ho

theorem Poolless.notMem {q : Proc α} (hq : Poolless q) (h : Runs q tr a) :
    ⟨.readerPool addr, x⟩ ∉ tr := by
  intro hm
  cases hq tr a h _ hm

omit [External] in
theorem exists_of_notMem_front {x : α} (hx : x ∉ front)
    (h : front ++ back = pre ++ x :: post) : ∃ pre', back = pre' ++ x :: post := by
  rcases List.append_eq_append_iff.mp h with ⟨l, -, hl⟩ | ⟨l, rfl, hl⟩
  · exact ⟨l, hl⟩
  · cases l with
    | nil => exact ⟨[], by simpa using hl.symm⟩
    | cons y l =>
      obtain ⟨rfl, -⟩ := List.cons.inj hl
      simp at hx

theorem readOn_acquired {relay : ConnId → Proc (Option (Option Bytes))}
    {store : Option Bytes → Proc Bool}
    (h : Runs (readOn addr' ms breakOnSend relay store fb) tr ok)
    (hrelay : ∀ c, Footprint (exchanging ++ [.cache]) (relay c))
    (hstore : ∀ data, Footprint (exchanging ++ [.cache]) (store data))
    (hfb : Footprint (exchanging ++ [.cache]) fb)
    (htr : tr = pre ++ ⟨.readerPool addr, some p⟩ :: ⟨.acquire p, some c⟩ :: t) :
    Runs (serveReader addr p c ms breakOnSend relay store fb) t ok := by
  -- the pool of a reader is asked for once
  have hone {a q x u} (hu : ⟨.readerPool addr, some p⟩ ∉ u)
      (he : ⟨.readerAllow a, true⟩ :: ⟨.readerPool a, some q⟩ :: ⟨.acquire q, x⟩ :: u = tr) :
      a = addr ∧ q = p ∧ x = some c ∧ u = t := by
    have hsplit : [⟨.readerAllow a, true⟩] ++ ⟨.readerPool a, some q⟩ :: ⟨.acquire q, x⟩ :: u =
        pre ++ ⟨.readerPool addr, some p⟩ :: ⟨.acquire p, some c⟩ :: t := he.trans htr
    rw [List.append_cons_inj_of_notMem (by simp) (by simpa using hu)] at hsplit
    obtain ⟨-, hpool, hrest⟩ := hsplit
    cases hpool
    cases hrest
    exact ⟨rfl, rfl, rfl, rfl⟩
  cases readOn_ways h with
  | passed _ hno h₁ =>
    have hmem := htr ▸ List.mem_append_right pre (.head _)
    rcases List.mem_append.mp hmem with hm | hm
    · exact absurd hm (hno _ _)
    · exact absurd hm ((hfb.poolless rfl).notMem h₁)
  | refused _ h₁ h₂ =>
    cases (hone (List.not_mem_append ((failReader_foot.poolless rfl).notMem h₁)
      ((hfb.poolless rfl).notMem h₂)) rfl).2.2.1
  | reached _ h₁ =>
    obtain ⟨rfl, rfl, hx, rfl⟩ :=
      hone (((serveReader_foot hrelay hstore hfb).poolless rfl).notMem h₁) rfl
    cases hx
    exact h₁

theorem executeOnPool_exchange
    (h : Runs (executeOnPool sql p) (⟨.acquire p, some c⟩ :: t) rows) :
    ∃ t₁ result t₂, Runs (executeQuery c sql) t₁ result ∧ t = t₁ ++ t₂ ∧
      (∀ u : Trace Ans, (rows = .panicked → u = []) →
        (t₁ ++ (t₂ ++ u)).takeWhile (·.1 ≠ .ctxDone) = t₁) ∧
      (∀ addr, Spared addr t₂) ∧ (rows.unfailed ↔ result.unfailed ∧ Smooth uncancelled t₂) := by
  have htake {t₁ u : Trace Ans} {result d} (h₁ : Runs (executeQuery c sql) t₁ result)
      (v : Trace Ans) :
      (t₁ ++ (⟨.ctxDone, d⟩ :: u ++ v)).takeWhile (·.1 ≠ .ctxDone) = t₁ := by
    rw [List.takeWhile_append_of_pos (by simpa using executeQuery_foot.calm rfl t₁ _ h₁)]
    simp
  generalize htr : ⟨.acquire p, some c⟩ :: t = tr at h
  cases executeOnPool_ways h with
  | refused => cases htr
  | panicked h₁ =>
    cases htr
    refine ⟨_, _, [], h₁, by simp, fun u hu => ?_, by simp [Spared], by simp [Outcome.unfailed,
      smooth_nil]⟩
    rw [hu rfl, List.append_nil, List.append_nil]
    exact List.takeWhile_eq_self_iff.mpr (by simpa using executeQuery_foot.calm rfl _ _ h₁)
  | stopped hd h₁ =>
    cases htr
    refine ⟨_, _, _, h₁, rfl, fun u _ => htake h₁ u, by simp [Spared, Op.demotes], ?_⟩
    rcases hd with ⟨rfl, -⟩ | rfl <;> simp [smooth_cons, uncancelled, Outcome.unfailed]
  | unsent h₁ =>
    cases htr
    exact ⟨_, _, _, h₁, rfl, fun u _ => htake h₁ u, by simp [Spared, Op.demotes],
      by simp [smooth_cons, smooth_nil, uncancelled, Outcome.unfailed]⟩
  | @answered _ _ _ t₂ drained cancelled _ h₁ h₂ =>
    cases htr
    have hspared (addr : Addr) : Spared addr t₂ := drainUntilReady_foot.spared rfl addr _ _ h₂
    have hcalm : Smooth uncancelled t₂ := fun e he =>
      uncancelled_of_ne (drainUntilReady_foot.calm rfl _ _ h₂ e he)
    refine ⟨_, _, _, h₁, rfl, fun u _ => htake h₁ u, fun addr => ?_, ?_⟩
    · have := hspared addr
      simp only [Spared, List.forall_mem_cons, List.forall_mem_append] at this ⊢
      exact ⟨rfl, rfl, rfl, this, rfl, by split <;> rfl, List.forall_mem_nil _⟩
    · cases cancelled <;> cases drained <;>
        simp [smooth_cons, smooth_append, smooth_nil, uncancelled, hcalm, Outcome.unfailed]

theorem executeOnPool_spared (h : Runs (executeOnPool sql p) t₁ rows)
    (he : t₁ ++ t₂ = ⟨.acquire p, some c⟩ :: t) (hpanic : rows = .panicked → t₂ = [])
    (hgood : rows.unfailed → Spared addr t₂ ∧ Smooth uncancelled t₂)
    (hbad : rows.unfailed = false → ¬ Spared addr t₂)
    (ha : Smooth (backendUp c) (t.takeWhile (·.1 ≠ .ctxDone))) :
    Spared addr t ↔ Smooth (withinLimit c) (t.takeWhile (·.1 ≠ .ctxDone)) ∧
      Smooth (plainAnswer c) (t.takeWhile (·.1 ≠ .ctxDone)) ∧ Smooth uncancelled t := by
  obtain ⟨x, u, -, rfl⟩ := runs_perform_bind.mp h
  rw [List.cons_append] at he
  obtain ⟨hx, rfl⟩ := List.cons.inj he
  cases hx
  obtain ⟨t₃, result, t₄, h₃, rfl, htake, hspared, hrows⟩ := executeOnPool_exchange h
  rw [List.append_assoc, htake _ hpanic] at ha ⊢
  have hanswer : result.unfailed ↔ Smooth (withinLimit c) t₃ ∧ Smooth (plainAnswer c) t₃ := by
    rw [executeQuery_tells t₃ result h₃]
    constructor
    · intro hs
      have hboth e he := Bool.and_eq_true_iff.mp (Bool.and_eq_true_iff.mp (hs e he)).2
      exact ⟨fun e he => (hboth e he).1, fun e he => (hboth e he).2⟩
    · rintro ⟨hl, hs⟩ e he
      rw [rowsUp, ha e he, hl e he, hs e he]
      rfl
  have hcalm : Smooth uncancelled t₃ := fun e he =>
    uncancelled_of_ne (executeQuery_foot.calm rfl t₃ _ h₃ e he)
  rw [← and_assoc, ← hanswer, smooth_append, smooth_append]
  cases hr : rows.unfailed with
  | true =>
    obtain ⟨hresult, hend⟩ := hrows.mp hr
    obtain ⟨hs, hu⟩ := hgood hr
    apply iff_of_true
    · have hquery := executeQuery_foot.spared rfl addr t₃ _ h₃
      exact List.forall_mem_append.mpr ⟨hquery, List.forall_mem_append.mpr ⟨hspared addr, hs⟩⟩
    · exact ⟨hresult, hcalm, hend, hu⟩
  | false =>
    apply iff_of_false
    · exact fun hs => hbad hr fun e he => hs e (by simp [he])
    · rintro ⟨hresult, -, hend, -⟩
      rw [hrows.mpr ⟨hresult, hend⟩] at hr
      cases hr

theorem executeRead_spared (h : Runs (executeRead sql pq w dbName) tr r)
    (htr : tr = pre ++ ⟨.readerPool addr, some p⟩ :: ⟨.acquire p, some c⟩ :: t)
    (ha : Smooth (backendUp c) (t.takeWhile (·.1 ≠ .ctxDone))) :
    Spared addr t ↔ Smooth (withinLimit c) (t.takeWhile (·.1 ≠ .ctxDone)) ∧
      Smooth (plainAnswer c) (t.takeWhile (·.1 ≠ .ctxDone)) ∧ Smooth uncancelled t := by
  have hlook {t x} (h : Runs (lookupResponse sql pq dbName) t x) :
      ⟨.readerPool addr, some p⟩ ∉ t := (lookupResponse_foot.poolless rfl).notMem h
  have hexec {q t rows} (h : Runs (executeOnPool sql q) t rows) :
      ⟨.readerPool addr, some p⟩ ∉ t := (executeOnPool_foot.poolless rfl).notMem h
  have hmem : ⟨.readerPool addr, some p⟩ ∈ tr := htr ▸ by simp
  -- the pool of a reader is asked for once
  have hone {t₀ u : Trace Ans} {a q} (h₀ : ⟨.readerPool addr, some p⟩ ∉ t₀)
      (hu : ⟨.readerPool addr, some p⟩ ∉ u)
      (he : t₀ ++ ⟨.nextReader none, some a⟩ :: ⟨.readerPool a, some q⟩ :: u = tr) :
      a = addr ∧ q = p ∧ u = ⟨.acquire p, some c⟩ :: t := by
    have hsplit : (t₀ ++ [⟨.nextReader none, some a⟩]) ++ ⟨.readerPool a, some q⟩ :: u =
        pre ++ ⟨.readerPool addr, some p⟩ :: ⟨.acquire p, some c⟩ :: t := by simp [he, htr]
    rw [List.append_cons_inj_of_notMem (by simp [h₀]) hu] at hsplit
    obtain ⟨-, hpool, hrest⟩ := hsplit
    cases hpool
    exact ⟨rfl, rfl, hrest⟩
  cases executeRead_ways h with
  | hit h₀ => exact absurd hmem (hlook h₀)
  | passed h₀ _ hno h₁ => simp [hlook h₀, hno, hexec h₁] at hmem
  | panicked h₀ h₁ =>
    obtain ⟨rfl, rfl, he⟩ := hone (hlook h₀) (hexec h₁) rfl
    exact executeOnPool_spared h₁ ((List.append_nil _).trans he) (fun _ => rfl)
      (fun _ => ⟨by simp [Spared], smooth_nil⟩) (fun hr => by cases hr) ha
  | failed h₀ h₁ h₂ =>
    obtain ⟨rfl, rfl, he⟩ := hone (hlook h₀) (by simp [hexec h₁, hexec h₂]) rfl
    refine executeOnPool_spared h₁ he nofun (fun hr => by cases hr) (fun _ hs => ?_) ha
    simpa [Op.demotes] using hs _ (.head _)
  | served h₀ h₁ h₂ =>
    obtain ⟨rfl, rfl, he⟩ := hone (hlook h₀) (List.not_mem_append (hexec h₁)
      ((storeResponse_foot.poolless rfl).notMem h₂)) rfl
    refine executeOnPool_spared h₁ he nofun (fun _ => ?_) (fun hr => by cases hr) ha
    exact ⟨storeResponse_foot.spared rfl _ _ _ h₂, fun e he =>
      uncancelled_of_ne (storeResponse_foot.calm rfl _ _ h₂ e he)⟩

theorem CachedWays.acquired (h : CachedWays look pick ms breakOnSend store fb tr ok)
    (hlook : Poolless look) (hpick : ∀ addr, Kinds [.look] (pick addr))
    (hstore : ∀ data, Footprint [.look, .cache] (store data))
    (hfb : Footprint (exchanging ++ [.cache]) fb)
    (htr : tr = pre ++ ⟨.readerPool addr, some p⟩ :: ⟨.acquire p, some c⟩ :: t) :
    Runs (serveReader addr p c ms breakOnSend relayCached store fb) t ok := by
  cases h with
  | hit h₁ =>
    have hmem := htr ▸ List.mem_append_right pre (.head _)
    rcases List.mem_append.mp hmem with hm | hm
    · exact absurd hm (hlook.notMem h₁)
    · simp at hm
  | missed h₁ h₂ =>
    obtain ⟨pre₁, ht₁⟩ := exists_of_notMem_front (hlook.notMem h₁) htr
    obtain ⟨pre₂, ht₂⟩ := exists_of_notMem_front (fun hm => by cases hpick _ _ hm) ht₁
    exact readOn_acquired h₂ (fun _ => relayCached_foot.wider rfl) (fun _ => (hstore _).wider rfl)
      hfb ht₂

/-- A reader that answers is spared exactly when the path is not disturbed otherwise. -/
theorem reader_spared_iff (path : ReadPath) (h : Runs path.run tr u)
    (htr : tr = pre ++ ⟨.readerPool addr, some p⟩ :: ⟨.acquire p, some c⟩ :: t)
    (ha : Smooth (backendUp c) (path.exchange t)) : Spared addr t ↔ path.Undisturbed c t := by
  cases path with
  | simple msg query session pq cfg dbName =>
    obtain ⟨ok, hrun, -⟩ := h.of_map
    have hserve := (handleReadQueryTraced_ways hrun).acquired (lookupRead_foot.poolless rfl)
      (fun _ => pickReader_kinds) (fun _ => storeRead_foot) (fallback_foot.wider rfl) htr
    exact serveReader_spared hserve relayCached_tells relayCached_foot (fun _ => storeRead_foot) ha
  | extended buf syncMsg readerAddr dbName =>
    obtain ⟨ok, hrun, -⟩ := h.of_map
    have hserve := (handleExtendedRead_ways hrun).acquired (lookupBatch_foot.poolless rfl)
      (fun _ => by simp [Kinds]) (fun _ => storeBatch_foot) (fallback_foot.wider rfl) htr
    exact serveReader_spared hserve relayCached_tells relayCached_foot (fun _ => storeBatch_foot) ha
  | synthesized query readerAddr =>
    obtain ⟨ok, hrun, -⟩ := h.of_map
    exact serveReader_spared (readOn_acquired hrun (fun _ => relayOnly_foot.wider rfl)
      (fun _ => within_pure _) (fallback_foot.wider rfl) htr) relayOnly_tells
      (relayOnly_foot.wider rfl) (fun _ => within_pure _) ha
  | api sql pq w dbName =>
    obtain ⟨ok, hrun, -⟩ := h.of_map
    exact executeRead_spared hrun htr ha

end Paths

end ReaderDemotion

def misspelled [External] : Script :=
  { Script.simple [] [errorMessage, readyMessage, errorMessage, readyMessage] with
    reader := some (ascii "r") }

def misspelledCalls [External] : Trace Ans :=
  let query := queryMessage (ascii "SELEC 1")
  [⟨.write 7 query, true⟩, ⟨.read 7, some errorMessage⟩, ⟨.read 7, some readyMessage⟩,
    ⟨.ctxDone, false⟩, ⟨.discard (some 100) 7, ()⟩, ⟨.markUnhealthy (ascii "r"), ()⟩,
    ⟨.acquire 1, some 8⟩, ⟨.write 8 query, true⟩, ⟨.read 8, some errorMessage⟩,
    ⟨.read 8, some readyMessage⟩, ⟨.ctxDone, false⟩, ⟨.discard (some 1) 8, ()⟩]

section Misspelled

def misspelledLookup [External] : Trace Ans :=
  [⟨.queryCache, false⟩, ⟨.nextReader none, some (ascii "r")⟩]

theorem misspelled_runs : ∃ _ : External,
    Runs (ReadPath.api (ascii "SELEC 1") none 1 []).run (misspelledLookup ++
      ⟨.readerPool (ascii "r"), some 100⟩ :: ⟨.acquire 100, some 7⟩ :: misspelledCalls) () := by
  let _ := asciiExternal
  obtain ⟨s, hdrive⟩ : ∃ s,
      (ReadPath.api (ascii "SELEC 1") none 1 []).run.drive Script.answer 60 misspelled = some ((),
        misspelledLookup ++ ⟨.readerPool (ascii "r"), some 100⟩ :: ⟨.acquire 100, some 7⟩ ::
          misspelledCalls, s) := ⟨_, rfl⟩
  exact ⟨asciiExternal, Prog.drive_runs hdrive⟩

variable [External]

theorem misspelled_exchange : misspelledCalls.takeWhile (·.1 ≠ .ctxDone) =
    [⟨.write 7 (queryMessage (ascii "SELEC 1")), true⟩, ⟨.read 7, some errorMessage⟩,
      ⟨.read 7, some readyMessage⟩] := rfl

theorem misspelled_answered :
    Smooth (backendUp 7) (misspelledCalls.takeWhile (·.1 ≠ .ctxDone)) := by
  rw [misspelled_exchange]
  exact smooth_cons.mpr ⟨rfl, smooth_cons.mpr ⟨rfl, smooth_cons.mpr ⟨rfl, smooth_nil⟩⟩⟩

end Misspelled

/-- The reader answers a syntax error and is ready; the Data API marks it unhealthy and asks the
writer the same. -/
theorem syntax_error_demotes : ∃ (_ : External) (path : ReadPath) (tr pre t : Trace Ans) (u : Unit)
    (addr : Addr) (p : PoolId) (c w : ConnId), Runs path.run tr u ∧
      tr = pre ++ ⟨.readerPool addr, some p⟩ :: ⟨.acquire p, some c⟩ :: t ∧
      Smooth (backendUp c) (path.exchange t) ∧
      path.exchange t = [⟨.write c (queryMessage (ascii "SELEC 1")), true⟩,
        ⟨.read c, some errorMessage⟩, ⟨.read c, some readyMessage⟩] ∧
      ⟨.markUnhealthy addr, ()⟩ ∈ t ∧ ⟨.write w (queryMessage (ascii "SELEC 1")), true⟩ ∈ t ∧
      c ≠ w ∧ ¬ Spared addr t := by
  obtain ⟨ext, hrun⟩ := misspelled_runs
  have hmark : ⟨.markUnhealthy (ascii "r"), ()⟩ ∈ misspelledCalls := by simp [misspelledCalls]
  refine ⟨ext, _, _, misspelledLookup, misspelledCalls, (), _, _, 7, 8, hrun, rfl,
    misspelled_answered, misspelled_exchange, hmark, ?_, by decide, ?_⟩
  · simp [misspelledCalls]
  · intro hs
    simpa [Op.demotes] using hs _ hmark

theorem misspelled_spared_iff : ∃ (_ : External) (path : ReadPath) (tr t : Trace Ans),
    Runs path.run tr () ∧ t.length = 12 ∧ (Spared (ascii "r") t ↔ path.Undisturbed 7 t) := by
  obtain ⟨ext, hrun⟩ := misspelled_runs
  exact ⟨ext, _, _, misspelledCalls, hrun, rfl, reader_spared_iff _ hrun rfl misspelled_answered⟩

end Pgmux
