import Pgmux.RelayReadies

namespace Pgmux

open Interaction

section Answered

variable [External] {st st' : Relay} {tr t : Trace Ans} {Q : Bytes → Prop}

theorem relayCached_answered (h : Runs (relayCached c) tr (some data)) (hone : OneReady tr) :
    Answered 1 Q tr := by
  unfold relayCached at h
  rw [runs_perform_bind] at h
  obtain ⟨cached, t, h, rfl⟩ := h
  refine .cons rfl ?_
  split at h
  · exact relayAndCollect_answered h hone.tail
  · exact relayUntilReady_answered (relayOnly_runs h) hone.tail

theorem forwardAndRelay_answered (h : Runs (forwardAndRelay c ms) tr true) (hone : OneReady tr) :
    Answered 1 Q tr := by
  obtain ⟨t₁, t₂, h₁, h₂, rfl⟩ := forwardAndRelay_runs h
  exact (forwardAll_foot.answered rfl h₁).append (relayUntilReady_answered h₂ hone.right)

theorem handleWriteQuery_answered
    (h : Runs (handleWriteQuery c msg query s pq qtype cfg) tr (.done s')) (hone : OneReady tr) :
    Answered 1 Q tr := by
  generalize hr : Outcome.done s' = r at h
  cases handleWriteQuery_ways h with
  | failed => cases hr
  | relayed h₁ h₂ h₃ =>
    exact (forwardAndRelay_answered h₁ hone.left).append (k := 0) (.cons rfl
      ((trackWriteLSN_foot.answered rfl h₂).append (k := 0)
        (invalidateWrite_foot.answered rfl h₃)))

theorem onWriter_answered {exchange : ConnId → Proc (Outcome Session)}
    (hx : ∀ c t s, Runs (exchange c) t (.done s) → OneReady t → Answered 1 Q t)
    (hfin : ∀ st c acquired p, Silent (fin st c acquired p))
    (h : Runs (onWriter st exchange fin) tr (.inl st')) (hone : OneReady tr) :
    Answered 1 Q tr := by
  cases onWriter_ways h with
  | finished h₁ ht h₂ =>
    have hx' := hx _ _ _ ht hone.tail.right.tail.tail.left
    exact .cons rfl ((acquireWriterConn_foot.answered rfl h₁).append (k := 1)
      (.cons rfl (.cons rfl (hx'.append (k := 0) (.cons rfl ((hfin _ _ _ _).answered h₂))))))

theorem fallback_answered (h : Runs (fallback reset ms) tr true) (hone : OneReady tr) :
    Answered 1 Q tr := by
  cases fallback_ways h with
  | served h₁ h₂ =>
    refine .cons rfl (.cons rfl (.cons rfl (.cons rfl ?_)))
    exact (forwardAndRelay_answered h₁ hone.tail.tail.tail.tail.left).append (k := 0)
      (.cons rfl (handBack_foot.answered rfl h₂))

section ReadOn

variable {relay : ConnId → Proc (Option (Option Bytes))} {store : Option Bytes → Proc Bool}
  {fb : Proc Bool}
  (hrelay : ∀ c t data, Runs (relay c) t (some data) → OneReady t → Answered 1 Q t)
  (hstore : ∀ data, Silent (store data))
  (hfb : ∀ t, Runs fb t true → OneReady t → Answered 1 Q t)

include hrelay hstore hfb

theorem serveReader_answered
    (h : Runs (serveReader addr p c ms breakOnSend relay store fb) tr true) (hone : OneReady tr) :
    Answered 1 Q tr := by
  cases serveReader_ways h with
  | unsent h₁ h₂ h₃ h =>
    have hfall := hfb _ h hone.tail.right.tail.right.right
    refine .cons rfl ((forwardAll_foot.answered rfl h₁).append (k := 1) (.cons rfl ?_))
    exact (discardToPool_foot.answered rfl h₂).append (k := 1)
      ((failReader_foot.answered rfl h₃).append hfall)
  | served h₁ ht h₂ h₃ =>
    refine .cons rfl ((forwardAll_foot.answered rfl h₁).append (k := 1) ?_)
    refine (hrelay _ _ _ ht hone.tail.right.left).append (k := 0) (.cons rfl ?_)
    exact (releaseToPool_foot.answered rfl h₂).append (k := 0)
      (((hstore _).answered h₃).append (k := 0) (answered_silent (by simp [Op.sendsReady])))

theorem readOn_answered (h : Runs (readOn addr ms breakOnSend relay store fb) tr true)
    (hone : OneReady tr) : Answered 1 Q tr := by
  cases readOn_ways h with
  | passed hk _ h => exact (hk.answered rfl).append (hfb _ h hone.right)
  | refused _ h₁ h =>
    exact .cons rfl (.cons rfl (.cons rfl ((failReader_foot.answered rfl h₁).append
      (hfb _ h hone.tail.tail.tail.right))))
  | reached _ h =>
    exact .cons rfl (.cons rfl (.cons rfl
      (serveReader_answered hrelay hstore hfb h hone.tail.tail.tail)))

end ReadOn

theorem answered_cached (h : readiesIn data = 1) :
    Answered 1 Q [⟨.sendCached data, b⟩] := by
  refine ⟨by simp [readies, eventReadies, h], ?_⟩
  rintro p ⟨pre, b', post, he, -⟩
  rcases pre with _ | ⟨e, pre⟩
  · cases he
  · cases pre <;> cases he

theorem lookupRead_hit (h : Runs (lookupRead query pq dbName) tr (some data)) :
    data ∈ cacheHits tr := by
  unfold lookupRead at h
  rw [runs_perform_bind] at h
  obtain ⟨cached, t, h, rfl⟩ := h
  split at h
  · rw [runs_bind] at h
    obtain ⟨t₁, key, t₂, -, h, rfl⟩ := h
    obtain rfl := runs_perform.mp h
    change data ∈ cacheHits (t₁ ++ [⟨.cacheGet key, some data⟩])
    rw [cacheHits_append]
    exact List.mem_append_right _ (List.mem_singleton.mpr rfl)
  · simp at h

theorem lookupBatch_hit (h : Runs (lookupBatch buf dbName) tr (some data)) :
    data ∈ cacheHits tr := by
  unfold lookupBatch at h
  split at h
  · simp at h
  rw [runs_perform_bind] at h
  obtain ⟨cached, t, h, rfl⟩ := h
  split at h
  · rw [runs_bind] at h
    obtain ⟨t₁, key, t₂, -, h, rfl⟩ := h
    obtain rfl := runs_perform.mp h
    change data ∈ cacheHits (t₁ ++ [⟨.cacheGet (key ^^^ nsExtended), some data⟩])
    rw [cacheHits_append]
    exact List.mem_append_right _ (List.mem_singleton.mpr rfl)
  · simp at h

theorem CachedWays.answered (h : CachedWays look pick ms breakOnSend store fb tr true)
    (hlook : Silent look) (hhit : ∀ t data, Runs look t (some data) → data ∈ cacheHits t)
    (hpick : ∀ addr, Kinds [.look] (pick addr)) (hstore : ∀ data, Silent (store data))
    (hfb : ∀ t, Runs fb t true → OneReady t → Answered 1 Q t) (hone : OneReady tr) :
    Answered 1 Q tr := by
  cases h with
  | hit h₁ =>
    exact (hlook.answered h₁).append (answered_cached (hone.left.2 _ (hhit _ _ h₁)))
  | missed h₁ h =>
    refine (hlook.answered h₁).append (k := 1) (((hpick _).answered rfl).append (k := 1) ?_)
    exact readOn_answered (fun _ _ _ => relayCached_answered) hstore hfb h hone.right.right

theorem handleReadQueryTraced_answered
    (h : Runs (handleReadQueryTraced msg query s pq cfg dbName) tr true) (hone : OneReady tr) :
    Answered 1 Q tr :=
  (handleReadQueryTraced_ways h).answered (lookupRead_foot.silent rfl)
    (fun _ _ => lookupRead_hit) (fun _ => pickReader_kinds) (fun _ => storeRead_foot.silent rfl)
    (fun _ => fallback_answered) hone

theorem handleExtendedRead_answered
    (h : Runs (handleExtendedRead buf syncMsg addr dbName) tr true) (hone : OneReady tr) :
    Answered 1 Q tr :=
  (handleExtendedRead_ways h).answered (lookupBatch_foot.silent rfl) (fun _ _ => lookupBatch_hit)
    (fun _ => by simp [Kinds]) (fun _ => storeBatch_foot.silent rfl) (fun _ => fallback_answered)
    hone

theorem handleSynthesizedRead_answered (h : Runs (handleSynthesizedRead query addr) tr true)
    (hone : OneReady tr) : Answered 1 Q tr :=
  readOn_answered (fun _ _ _ h => relayUntilReady_answered (relayOnly_runs h))
    (fun _ => within_pure _)
    (fun _ => fallback_answered) h hone

def readyStatus (inTransaction : Bool) : Bytes :=
  [(if inTransaction then 'T' else 'I').toUInt8]

theorem sendReadyForQuery_answered (h : Runs (sendReadyForQuery b) tr ()) :
    Answered 1 (· = readyStatus b) tr := by
  unfold sendReadyForQuery at h
  rw [runs_perform_bind] at h
  obtain ⟨ok, t, h, rfl⟩ := h
  obtain ⟨rfl, -⟩ := runs_pure.mp h
  refine ⟨rfl, ?_⟩
  rintro p ⟨pre, b', post, he, -⟩
  rcases pre with _ | ⟨e, pre⟩
  · cases he
    rfl
  · cases pre <;> cases he

theorem reject_answered (h : Runs (reject text) tr ()) :
    Answered 1 (· = readyStatus false) tr := by
  obtain ⟨t₁, _, t₂, rfl, h₁, h₂⟩ := h.of_seq
  exact (sendError_foot.answered rfl h₁).append (sendReadyForQuery_answered h₂)

theorem exchangeBatch_answered (h : Runs (exchangeBatch st msg addr c) tr true)
    (hone : OneReady tr) : Answered 1 Q tr := by
  unfold exchangeBatch at h
  rw [runs_perform_bind] at h
  obtain ⟨_, t, h, rfl⟩ := h
  rw [runs_bind] at h
  obtain ⟨t₁, ok, t₂, h₁, h, rfl⟩ := h
  rw [runs_perform_bind] at h
  obtain ⟨_, t, h, rfl⟩ := h
  obtain ⟨rfl, rfl⟩ := runs_pure.mp h
  refine .cons rfl ?_
  exact (forwardAndRelay_answered h₁ hone.tail.left).append (k := 0)
    (.cons rfl (answered_silent fun _ h => nomatch h))

theorem readBatch_answered (h : Runs (readBatch st msg) tr (.inl st')) (hone : OneReady tr) :
    Answered 1 Q tr := by
  unfold readBatch at h
  split at h
  · rw [runs_bind] at h
    obtain ⟨t₁, ok, t₂, h₁, h, rfl⟩ := h
    cases ok with
    | true =>
      refine (exchangeBatch_answered h₁ hone.left).append (k := 0) ?_
      simp only [if_true] at h
      split at h
      · rw [runs_bind] at h
        obtain ⟨t₃, alive, t₄, h₃, h, rfl⟩ := h
        obtain ⟨rfl, -⟩ := runs_pure.mp h
        rw [List.append_nil]
        exact releaseToPool_foot.answered rfl h₃
      · obtain ⟨rfl, -⟩ := runs_pure.mp h
        exact answered_silent fun _ h => nomatch h
    | false =>
      simp only [Bool.false_eq_true, if_false] at h
      rw [runs_bind] at h
      obtain ⟨t₃, alive, t₄, -, h, -⟩ := h
      simp at h
  · rw [runs_perform_bind] at h
    obtain ⟨addr, t, h, rfl⟩ := h
    refine .cons rfl ?_
    replace hone := hone.tail
    split at h
    · rw [runs_bind] at h
      obtain ⟨t₁, x, t₂, h₁, h, rfl⟩ := h
      refine (acquireReaderForBind_foot.answered rfl h₁).append (k := 1) ?_
      cases x with
      | none =>
        dsimp only at h
        rw [runs_bind] at h
        obtain ⟨t₃, _, t₄, -, h, -⟩ := h
        simp at h
      | some l =>
        dsimp only at h
        rw [runs_bind] at h
        obtain ⟨t₃, ok, t₄, h₃, h, rfl⟩ := h
        cases ok with
        | true =>
          obtain ⟨rfl, -⟩ := runs_pure.mp h
          rw [List.append_nil] at hone ⊢
          exact exchangeBatch_answered h₃ hone.right
        | false =>
          simp only [Bool.false_eq_true, if_false] at h
          rw [runs_bind] at h
          obtain ⟨t₅, alive, t₆, -, h, -⟩ := h
          simp at h
    · rw [runs_bind] at h
      obtain ⟨t₁, ok, t₂, h₁, h, rfl⟩ := h
      obtain ⟨rfl, he⟩ := runs_pure.mp h
      obtain ⟨rfl, -⟩ := proceed_inl he.symm
      rw [List.append_nil] at hone ⊢
      exact handleExtendedRead_answered h₁ hone

theorem executeSynthesizedQuery_answered
    (h : Runs (executeSynthesizedQuery st query) tr (.inl st')) (hone : OneReady tr) :
    Answered 1 Q tr := by
  unfold executeSynthesizedQuery at h
  split at h
  · rw [runs_perform_bind] at h
    obtain ⟨addr, t, h, rfl⟩ := h
    rw [runs_bind] at h
    obtain ⟨t₁, ok, t₂, h₁, h, rfl⟩ := h
    obtain ⟨rfl, he⟩ := runs_pure.mp h
    obtain ⟨rfl, -⟩ := proceed_inl he.symm
    rw [List.append_nil] at hone ⊢
    exact .cons rfl (handleSynthesizedRead_answered h₁ hone.tail)
  · exact onWriter_answered (fun _ _ _ h => forwardAndRelay_answered (forwardFor_runs h))
      (fun _ _ _ _ => finishSynthesized_foot.silent rfl) h hone

end Answered

end Pgmux
