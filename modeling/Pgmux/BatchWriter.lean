import Pgmux.BatchRoute

namespace Pgmux

open Interaction

section BatchWriter

variable [External] {W : PoolId → Prop}

def WriterSide (W : PoolId → Prop) (st : Relay) (tr : Trace Ans) (c : ConnId) : Prop :=
  st.boundConn = some c ∨ (∃ l, st.boundReader = some l ∧ l.conn = c ∧ W l.pool) ∨
    ∃ p, W p ∧ ⟨.acquire p, some c⟩ ∈ tr

def OnWriter (W : PoolId → Prop) (st : Relay) (ms : List Message) (tr : Trace Ans) : Prop :=
  ∀ c m, (c, m) ∈ writes tr → m ∈ ms → WriterSide W st tr c

theorem handleSync_onWriter (h : Runs (handleSync st msg) tr r) (hs : st.synth = none)
    (hms : ∀ m ∈ st.extBuf ++ [msg], m.type ≠ msgQuery)
    (hW : ∀ p, ⟨.writerPool, p⟩ ∈ tr → W p)
    (hc : st.readsBatch → st.extSessionBlocked = none →
      ∃ l, st.boundReader = some l ∧ W l.pool) : OnWriter W st (st.extBuf ++ [msg]) tr := by
  have hw : Written (fun c m => m ∈ st.extBuf ++ [msg] → WriterSide W st tr c) (conn tr) := by
    refine (handleSync_step h (configured_resetsSeen tr)).written ?_ ?_ ?_ ?_ ?_
    · refine ownQueries_of fun c m ho hm => ?_
      rcases ho with rfl | ⟨_, _, rfl⟩ <;> exact (hms _ hm rfl).elim
    · intro synth _ _ hy
      simp [hs] at hy
    · intro _ hb l hl hr m _ _
      obtain ⟨l', hl', hp⟩ := hc hr hb.1
      cases hl.symm.trans hl'
      exact .inr (.inl ⟨l, hl, rfl, hp⟩)
    · intro _ hb hn hr
      obtain ⟨l, hl, -⟩ := hc hr hb.1
      simp [hn] at hl
    · rintro _ _ _ c (hb | ⟨p, hp, ha⟩) m _ _
      · exact .inl hb
      · exact .inr (.inr ⟨p, hW p (List.mem_of_mem_filter hp), List.mem_of_mem_filter ha⟩)
  intro c m hm
  exact (written_conn hw).of_mem hm

def sentAll (c : ConnId) (ms : List Message) : Trace Ans :=
  ms.map fun m => ⟨.write c m, true⟩

theorem runs_forwardAll (c : ConnId) (ms : List Message) :
    Runs (forwardAll c ms) (sentAll c ms) true := by
  induction ms with
  | nil => exact runs_pure.mpr ⟨rfl, rfl⟩
  | cons m ms ih => exact runs_perform_bind.mpr ⟨true, _, ih, rfl⟩

theorem runs_relayUntilReady (c : ConnId) : Runs (relayUntilReady c) [⟨.read c, none⟩] false := by
  refine runs_iterate.mpr ⟨[((), [⟨.read c, none⟩])], .leave ?_, rfl⟩
  exact runs_perform_bind.mpr ⟨none, [], .ret, rfl⟩

def brokenBatch (addr : Addr) (c : ConnId) (ms : List Message) : Trace Ans :=
  ⟨.setCancel addr c, ()⟩ :: ((sentAll c ms ++ [⟨.read c, none⟩]) ++ [⟨.clearCancel, ()⟩])

theorem runs_exchangeBatch (st : Relay) (msg : Message) (addr : Addr) (c : ConnId) :
    Runs (exchangeBatch st msg addr c) (brokenBatch addr c (st.extBuf ++ [msg])) false := by
  refine runs_perform_bind.mpr ⟨(), _, runs_bind.mpr ⟨_, false, _, ?_, ?_, rfl⟩, rfl⟩
  · exact runs_bind.mpr ⟨_, _, _, runs_forwardAll c _, runs_relayUntilReady c, rfl⟩
  · exact runs_perform_bind.mpr ⟨(), [], .ret, rfl⟩

/-- A run that forwards the whole batch on a connection of a pool that is not the writer pool. -/
def Misrouted (st : Relay) (ms : List Message) (c : ConnId) (p : PoolId) (tr : Trace Ans) : Prop :=
  (∀ m ∈ ms, ⟨.write c m, true⟩ ∈ tr) ∧ (∀ q, ⟨.writerPool, q⟩ ∉ tr) ∧
    ∀ q x, ⟨.acquire q, x⟩ ∈ tr → q = p ∧ st.boundReader = none

theorem readBatch_bound (hl : st.boundReader = some l) (msg : Message) (p : PoolId) : ∃ tr r,
    Runs (readBatch st msg) tr r ∧ Misrouted st (st.extBuf ++ [msg]) l.conn p tr := by
  have h : Runs (readBatch st msg) (brokenBatch l.addr l.conn (st.extBuf ++ [msg]) ++
      [⟨.discard (some l.pool) l.conn, ()⟩]) (.inr { st with boundReader := none }) := by
    unfold readBatch
    rw [hl]
    refine runs_bind.mpr ⟨_, _, _, runs_exchangeBatch st msg l.addr l.conn, ?_, rfl⟩
    exact .call .ret
  exact ⟨_, _, h, by simp [Misrouted, brokenBatch, sentAll]⟩

theorem runs_acquireReader (addr : Addr) (p : PoolId) (c : ConnId) :
    Runs (acquireReader (some addr))
      [⟨.readerAllow addr, true⟩, ⟨.readerPool addr, some p⟩, ⟨.acquire p, some c⟩]
      (some ⟨c, p, addr⟩) := by
  refine runs_perform_bind.mpr ⟨true, _, ?_, rfl⟩
  refine runs_perform_bind.mpr ⟨some p, _, ?_, rfl⟩
  exact runs_perform_bind.mpr ⟨some c, [], .ret, rfl⟩

theorem readBatch_binding (hn : st.boundReader = none) (hx : st.extHasExecute = false)
    (hb : st.extBuf ≠ []) (msg : Message) (p : PoolId) (c : ConnId) : ∃ tr r,
    Runs (readBatch st msg) tr r ∧ Misrouted st (st.extBuf ++ [msg]) c p tr := by
  have h : Runs (readBatch st msg) (⟨.nextReader none, some []⟩ ::
      ([⟨.readerAllow [], true⟩, ⟨.readerPool [], some p⟩, ⟨.acquire p, some c⟩] ++
        (brokenBatch [] c (st.extBuf ++ [msg]) ++ [⟨.discard (some p) c, ()⟩]))) (.inr st) := by
    unfold readBatch
    rw [hn]
    refine runs_perform_bind.mpr ⟨some [], _, ?_, rfl⟩
    simp only [hx, hb, Bool.not_false, ne_eq, not_false_eq_true, decide_true, Bool.and_self,
      if_true]
    refine runs_bind.mpr ⟨_, some ⟨c, p, []⟩, _, ?_, ?_, rfl⟩
    · exact runs_bind.mpr ⟨_, _, [], runs_acquireReader [] p c, .ret, rfl⟩
    · refine runs_bind.mpr ⟨_, _, _, runs_exchangeBatch st msg [] c, ?_, rfl⟩
      exact .call .ret
  exact ⟨_, _, h, by simp [Misrouted, brokenBatch, sentAll, hn]⟩

theorem runs_lookupBatch (buf : List Message) (dbName : Bytes) : ∃ t,
    Runs (lookupBatch buf dbName) t none ∧ (t = [] ∨ t = [⟨.queryCache, false⟩]) := by
  unfold lookupBatch
  split
  · exact ⟨[], .ret, .inl rfl⟩
  · exact ⟨_, runs_perform_bind.mpr ⟨false, [], .ret, rfl⟩, .inr rfl⟩

def brokenVisit (addr : Addr) (p : PoolId) (c : ConnId) (ms : List Message) : Trace Ans :=
  ⟨.setCancel addr c, ()⟩ :: (sentAll c ms ++ ([⟨.queryCache, false⟩, ⟨.read c, none⟩] ++
    [⟨.clearCancel, ()⟩, ⟨.discard (some p) c, ()⟩, ⟨.readerRecord addr false, ()⟩,
      ⟨.markUnhealthy addr, ()⟩]))

theorem runs_serveReader (addr : Addr) (p : PoolId) (c : ConnId) (ms : List Message) (b : Bool)
    (store : Option Bytes → Proc Bool) (fallback : Proc Bool) :
    Runs (serveReader addr p c ms b relayCached store fallback) (brokenVisit addr p c ms)
      false := by
  refine runs_perform_bind.mpr ⟨(), _, runs_bind.mpr ⟨_, _, _, runs_forwardAll c ms, ?_, rfl⟩, rfl⟩
  refine runs_bind.mpr ⟨_, none, _, ?_, ?_, rfl⟩
  · refine runs_perform_bind.mpr ⟨false, [⟨.read c, none⟩], ?_, rfl⟩
    exact runs_bind.mpr ⟨_, _, [], runs_relayUntilReady c, .ret, rfl⟩
  · exact .call (.call (.call (.call .ret)))

theorem readBatch_visit (hn : st.boundReader = none)
    (hx : ¬ (st.extHasExecute = false ∧ st.extBuf ≠ [])) (msg : Message) (p : PoolId)
    (c : ConnId) : ∃ tr r,
    Runs (readBatch st msg) tr r ∧ Misrouted st (st.extBuf ++ [msg]) c p tr := by
  obtain ⟨t, ht, hq⟩ := runs_lookupBatch st.extBuf st.dbName
  have hr : Runs (handleExtendedRead st.extBuf msg (some []) st.dbName) (t ++
      (⟨.readerAllow [], true⟩ :: ⟨.readerPool [], some p⟩ :: ⟨.acquire p, some c⟩ ::
        brokenVisit [] p c (st.extBuf ++ [msg]))) false := by
    refine runs_bind.mpr ⟨_, none, _, ht, ?_, rfl⟩
    refine runs_perform_bind.mpr ⟨true, _, ?_, rfl⟩
    refine runs_perform_bind.mpr ⟨some p, _, ?_, rfl⟩
    refine runs_perform_bind.mpr ⟨some c, _, ?_, rfl⟩
    exact runs_serveReader [] p c _ true _ _
  have h : Runs (readBatch st msg) (⟨.nextReader none, some []⟩ :: (t ++
      (⟨.readerAllow [], true⟩ :: ⟨.readerPool [], some p⟩ :: ⟨.acquire p, some c⟩ ::
        brokenVisit [] p c (st.extBuf ++ [msg])))) (.inr st) := by
    unfold readBatch
    rw [hn]
    refine runs_perform_bind.mpr ⟨some [], _, ?_, rfl⟩
    rw [if_neg (by simpa using hx)]
    exact runs_bind.mpr ⟨_, _, [], hr, .ret, (List.append_nil _).symm⟩
  refine ⟨_, _, h, ?_⟩
  rcases hq with rfl | rfl <;> simp [Misrouted, brokenVisit, sentAll, hn]

theorem readBatch_misrouted (st : Relay) (msg : Message) (p : PoolId) : ∃ tr r c,
    Runs (readBatch st msg) tr r ∧ Misrouted st (st.extBuf ++ [msg]) c p tr ∧
      ∀ l, st.boundReader = some l → l.conn = c := by
  cases hl : st.boundReader with
  | some l =>
    obtain ⟨tr, r, h, hm⟩ := readBatch_bound hl msg p
    exact ⟨tr, r, l.conn, h, hm, by simp⟩
  | none =>
    by_cases hx : st.extHasExecute = false ∧ st.extBuf ≠ []
    · obtain ⟨tr, r, h, hm⟩ := readBatch_binding hl hx.1 hx.2 msg p 0
      exact ⟨tr, r, 0, h, hm, by simp⟩
    · obtain ⟨tr, r, h, hm⟩ := readBatch_visit hl hx msg p 0
      exact ⟨tr, r, 0, h, hm, by simp⟩

theorem handleSync_reads (hs : st.synth = none) (hr : st.readsBatch)
    (hn : st.extSessionBlocked = none) (h : Runs (readBatch st msg) tr r) :
    ∃ r', Runs (handleSync st msg) (⟨.inReadOnly, false⟩ :: tr) r' := by
  have hread := hr
  simp only [Relay.readsBatch, Bool.and_eq_true, decide_eq_true_eq, Bool.not_eq_true',
    Option.isNone_iff_eq_none] at hr
  obtain ⟨⟨hroute, htx⟩, hb⟩ := hr
  refine ⟨r.map Relay.endBatch id, runs_bind.mpr ⟨[], st, _, ?_, ?_, rfl⟩⟩
  · rw [releaseStaleReader, if_neg (by simp [hroute, htx, hb])]
    exact .ret
  · simp only [hn]
    refine runs_perform_bind.mpr ⟨false, tr, ?_, rfl⟩
    simp only [executeSync, hs, Bool.false_and, Bool.false_eq_true, if_false, syncProxy, runBatch,
      hread, if_true]
    exact runs_bind.mpr ⟨tr, r, [], h, .ret, by simp⟩

theorem handleSync_misrouted (msg : Message) (hs : st.synth = none) (hr : st.readsBatch)
    (hn : st.extSessionBlocked = none) (hp : ¬ W p)
    (hl : ∀ l, st.boundReader = some l → ¬ W l.pool) : ∃ tr r,
    Runs (handleSync st msg) tr r ∧ (∀ p, ⟨.writerPool, p⟩ ∈ tr → W p) ∧
      ¬ OnWriter W st (st.extBuf ++ [msg]) tr := by
  obtain ⟨tr, r, c, h, ⟨hm, hpool, hacq⟩, hc⟩ := readBatch_misrouted st msg p
  obtain ⟨r', hrun⟩ := handleSync_reads hs hr hn h
  refine ⟨_, r', hrun, fun q hq => ?_, fun hw => ?_⟩
  · rcases List.mem_cons.mp hq with hq | hq
    · cases hq
    · exact (hpool q hq).elim
  · have hmem : msg ∈ st.extBuf ++ [msg] := by simp
    have hwrite : (c, msg) ∈ writes (⟨.inReadOnly, false⟩ :: tr) :=
      mem_writes.mpr ⟨true, .tail _ (hm msg hmem)⟩
    rcases hw c msg hwrite hmem with hb | ⟨l, hb, -, hq⟩ | ⟨q, hq, ha⟩
    · have hb' : st.boundWriter = none := by
        simp only [Relay.readsBatch, Bool.and_eq_true, Option.isNone_iff_eq_none] at hr
        exact hr.2
      simp [Relay.boundConn, hb'] at hb
    · exact hl l hb hq
    · rcases List.mem_cons.mp ha with ha | ha
      · cases ha
      · exact hp ((hacq q _ ha).1 ▸ hq)

/-- What keeps a batch with a writer-routed statement on the writer: a transaction or a bound
writer, the order of its messages, or a bound connection that is no reader's; or the session guard
rejects it. -/
def KeptOnWriter (W : PoolId → Prop) (st : Relay) (marks : List Mark) : Prop :=
  st.session.inTransaction = true ∨ st.boundWriter.isSome = true ∨ Survives marks ∨
    (∃ l, st.boundReader = some l ∧ W l.pool) ∨ st.extSessionBlocked.isSome = true

omit [External] in
theorem readsBatch_eq_survives (h : InBatch st marks st')
    (hw : ∃ m ∈ marks, m.route = some .writer) : st'.readsBatch ↔
      ¬ (st'.session.inTransaction ∨ st'.boundWriter.isSome ∨ Survives marks) := by
  unfold Relay.readsBatch
  cases htx : st'.session.inTransaction with
  | true => simp
  | false =>
    cases hb : st'.boundWriter with
    | some l => simp
    | none =>
      have hr := h.extRoute (h.inTransaction ▸ htx) (h.boundWriter ▸ hb)
      rw [← foldl_after_survives hw st.extRoute, ← hr]
      cases st'.extRoute <;> simp

/-- A batch with a writer-routed statement goes to the writer, in every run of its Sync, exactly if
something keeps it there. -/
theorem batch_onWriter_iff (hb : Batch st marks st') (hs : st.synth = none)
    (hbuf : st.extBuf = []) (hw : ∃ m ∈ marks, m.route = some .writer)
    (hsync : sync.type = msgSync) (hp : ¬ W p) :
    (∀ tr r, Runs (handleSync st' sync) tr r → (∀ p, ⟨.writerPool, p⟩ ∈ tr → W p) →
      OnWriter W st' (st'.extBuf ++ [sync]) tr) ↔ KeptOnWriter W st' marks := by
  have hin := hb.inBatch hs
  have hreads := readsBatch_eq_survives hin hw
  have hms : ∀ m ∈ st'.extBuf ++ [sync], m.type ≠ msgQuery := by
    obtain ⟨ms, he, hm⟩ := hin.extBuf
    rw [he, hbuf]
    intro m hmem
    rcases List.mem_append.mp hmem with h | h
    · exact hm m h
    · obtain rfl := List.mem_singleton.mp h
      rw [hsync]
      decide
  constructor
  · intro h
    by_contra hk
    simp only [KeptOnWriter, not_or] at hk
    obtain ⟨htx, hbw, hsv, hrd, hbl⟩ := hk
    obtain ⟨tr, r, hrun, hpool, hbad⟩ := handleSync_misrouted (W := W) sync hin.synth
      (hreads.mpr (by simp [htx, hbw, hsv])) (by simpa using hbl) hp
      fun l hl hq => hrd ⟨l, hl, hq⟩
    exact hbad (h tr r hrun hpool)
  · intro hk tr r hrun hW
    refine handleSync_onWriter hrun hin.synth hms hW fun hr hn => ?_
    rcases hk with h | h | h | h | h
    · exact (hreads.mp hr (.inl h)).elim
    · exact (hreads.mp hr (.inr (.inl h))).elim
    · exact (hreads.mp hr (.inr (.inr h))).elim
    · exact h
    · simp [hn] at h

def Script.driveBatch (n : Nat) : Script → Relay → List Message →
    Option (List Mark × Relay × Script)
  | s, st, [] => some ([], st, s)
  | s, st, m :: ms =>
    if m.type = msgQuery ∨ m.type = msgSync then none
    else match (handleExtended st m).drive Script.answer n s with
      | some (.inl st₁, tr, s₁) =>
        (driveBatch n s₁ st₁ ms).map fun r => (batchMark st m tr st₁ :: r.1, r.2)
      | _ => none

theorem Script.driveBatch_batch (h : driveBatch n s st ms = some (marks, st', s')) :
    Batch st marks st' := by
  induction ms generalizing s st marks with
  | nil =>
    cases h
    exact .nil
  | cons m ms ih =>
    simp only [driveBatch] at h
    split at h
    · cases h
    rename_i ht
    split at h
    · rename_i hd
      obtain ⟨⟨marks', r⟩, hr, he⟩ := Option.map_eq_some_iff.mp h
      cases he
      exact .cons (fun h => ht (.inl h)) (fun h => ht (.inr h)) (Prog.drive_runs hd) (ih hr)
    · cases h

theorem Script.driveBatch_check {x : Relay} {l : List Message}
    {f : List Mark → Relay → Script → Bool}
    (h : (driveBatch n s x l).any (fun r => f r.1 r.2.1 r.2.2)) :
    ∃ marks st' s', Batch x marks st' ∧ f marks st' s' := by
  obtain ⟨⟨marks, st', s'⟩, hr, hc⟩ := (Option.any_eq_true _ _).mp h
  exact ⟨marks, st', s', driveBatch_batch hr, hc⟩

end BatchWriter

theorem batch_onWriter_iff_insert : ∃ (_ : External) (marks : List Mark) (st : Relay),
    Batch plainRelay marks st ∧ ∀ tr r, Runs (handleSync st syncMessage) tr r →
      (∀ p, ⟨.writerPool, p⟩ ∈ tr → p = 1) →
        OnWriter (· = 1) st (st.extBuf ++ [syncMessage]) tr := by
  let _ := asciiExternal
  refine ⟨asciiExternal, ?_⟩
  obtain ⟨marks, st, _, h, hc⟩ := Script.driveBatch_check (n := 60) (s := .simple [] [])
    (x := plainRelay) (l := [parseMessage [] (ascii "SELECT 1"),
      parseMessage [] (ascii "INSERT INTO t VALUES (1)")])
    (f := fun marks _ _ => decide (marks = [.parse .reader false, .parse .writer false]))
    (by decide +kernel)
  obtain rfl := of_decide_eq_true hc
  refine ⟨_, st, h, (batch_onWriter_iff h rfl rfl ⟨.parse .writer false, by simp, rfl⟩ rfl
    (p := 100) (by decide)).mpr ?_⟩
  exact .inr (.inr (.inl ⟨[.parse .reader false], _, [], rfl, .inl rfl, by simp⟩))

/-- The Parse of a SELECT after the Parse of an INSERT takes the whole batch to a reader. -/
theorem insert_select_batch_on_reader : ∃ (_ : External) (marks : List Mark) (st : Relay)
    (tr : Trace Ans) (r : Flow), Batch plainRelay marks st ∧
      (∃ m ∈ marks, m.route = some .writer) ∧ Runs (handleSync st syncMessage) tr r ∧
      (∀ p, ⟨.writerPool, p⟩ ∈ tr → p = 1) ∧
      ¬ OnWriter (· = 1) st (st.extBuf ++ [syncMessage]) tr := by
  let _ := asciiExternal
  refine ⟨asciiExternal, ?_⟩
  obtain ⟨marks, st, s, h, hc⟩ := Script.driveBatch_check (n := 60)
    (s := { Script.simple [] [readyMessage] with reader := some (ascii "r") })
    (x := plainRelay) (l := [parseMessage (ascii "a") (ascii "INSERT INTO t VALUES (1)"),
      parseMessage (ascii "b") (ascii "SELECT 1")])
    (f := fun marks st s => decide (∃ m ∈ marks, m.route = some .writer) &&
      ((handleSync st syncMessage).drive Script.answer 60 s).any fun r =>
        decide (poolsSeen r.2.1 = [] ∧ (7, syncMessage) ∈ writes r.2.1 ∧
          some 7 ∉ acquiredFrom 1 r.2.1 ∧ st.boundWriter = none ∧ st.boundReader = none))
    (by decide +kernel)
  rw [Bool.and_eq_true] at hc
  obtain ⟨r, tr, hr, ht⟩ := Script.run_check (f := fun _ tr => decide (poolsSeen tr = [] ∧
    (7, syncMessage) ∈ writes tr ∧ some 7 ∉ acquiredFrom 1 tr ∧ st.boundWriter = none ∧
      st.boundReader = none)) hc.2
  obtain ⟨hp, hw, ha, hbw, hbr⟩ := of_decide_eq_true ht
  refine ⟨marks, st, tr, r, h, of_decide_eq_true hc.1, hr, fun p hq => ?_, fun ho => ?_⟩
  · have hq' : p ∈ poolsSeen tr := mem_answers.mpr hq
    simp [hp] at hq'
  · rcases ho 7 syncMessage hw (by simp) with hb | ⟨l, hl, -⟩ | ⟨_, rfl, hq⟩
    · simp [Relay.boundConn, hbw] at hb
    · simp [hbr] at hl
    · exact ha (mem_answers.mpr hq)

end Pgmux
