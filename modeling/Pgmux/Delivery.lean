import Pgmux.RelayReadies

namespace Pgmux

open Interaction

section Delivery

variable [External] {st st' : Relay} {tr t t₁ t₂ : Trace Ans} {ms ms₁ ms₂ : List Message}

def noWrite : Event → Bool
  | ⟨.write _ _, _⟩ => false
  | _ => true

/-- The messages that were written and then answered: a ReadyForQuery went to the client before
anything else was written. -/
def answeredWrites : Trace Ans → List Message
  | [] => []
  | ⟨.write _ m, ok⟩ :: t =>
    if ok && decide (0 < readies (t.takeWhile noWrite)) then m :: answeredWrites t
    else answeredWrites t
  | _ :: t => answeredWrites t

structure Delivers (ms : List Message) (tr : Trace Ans) : Prop where
  answered : answeredWrites tr = ms
  unready : readies (tr.takeWhile noWrite) = 0

theorem answeredWrites_skip (h : noWrite e) (t : Trace Ans) :
    answeredWrites (e :: t) = answeredWrites t := by
  obtain ⟨o, x⟩ := e
  cases o with
  | write c m => cases h
  | _ => rfl

theorem readies_takeWhile_append (h : readies (t₂.takeWhile noWrite) = 0) :
    readies ((t₁ ++ t₂).takeWhile noWrite) = readies (t₁.takeWhile noWrite) := by
  induction t₁ with
  | nil => rw [List.nil_append, h]; rfl
  | cons e t ih =>
    rw [List.cons_append, List.takeWhile_cons, List.takeWhile_cons]
    split
    · rw [readies_cons, readies_cons, ih]
    · rfl

theorem Delivers.append (h₁ : Delivers ms₁ t₁) (h₂ : Delivers ms₂ t₂) :
    Delivers (ms₁ ++ ms₂) (t₁ ++ t₂) := by
  refine ⟨?_, (readies_takeWhile_append h₂.unready).trans h₁.unready⟩
  rw [← h₁.answered, ← h₂.answered]
  clear h₁
  induction t₁ with
  | nil => rfl
  | cons e t ih =>
    obtain ⟨o, x⟩ := e
    cases o with
    | write c m =>
      simp only [List.cons_append, answeredWrites, readies_takeWhile_append h₂.unready]
      split
      · rw [ih, List.cons_append]
      · exact ih
    | _ => exact ih

theorem readies_silent (h : ∀ e ∈ tr, e.1.sendsReady = false) : readies tr = 0 :=
  (answered_silent (Q := fun _ => True) h).count

theorem delivers_silent (h : ∀ e ∈ tr, e.1.sendsReady = false) : Delivers [] tr := by
  refine ⟨?_, readies_silent fun e he => h e ((List.takeWhile_prefix _).subset he)⟩
  induction tr with
  | nil => rfl
  | cons e t ih =>
    have ht : ∀ e ∈ t, e.1.sendsReady = false := fun e he => h e (.tail _ he)
    obtain ⟨o, x⟩ := e
    cases o with
    | write c m =>
      have hr : readies (t.takeWhile noWrite) = 0 :=
        readies_silent fun e he => ht e ((List.takeWhile_prefix _).subset he)
      simp only [answeredWrites, hr, ih ht]
      simp
    | _ => exact ih ht

theorem Silent.delivers {p : Proc α} (hp : Silent p) (h : Runs p tr a) : Delivers [] tr :=
  delivers_silent (hp tr a h)

theorem Footprint.delivers {p : Proc α} (hp : Footprint ks p)
    (hs : ks.all (fun k => !([.ready, .cached].contains k))) (h : Runs p tr a) :
    Delivers [] tr := (hp.silent hs).delivers h

theorem Delivers.cons (he : e.1.sendsReady = false) (h : Delivers ms t) : Delivers ms (e :: t) := by
  have hs : Delivers [] [e] := delivers_silent fun e' h' => by rwa [List.mem_singleton.mp h']
  exact hs.append h

theorem Delivers.silent (h : Delivers ms t₁) (hs : Delivers [] t₂) : Delivers ms (t₁ ++ t₂) := by
  have ha := h.append hs
  rwa [List.append_nil] at ha

theorem answeredWrites_eq_nil (h : ∀ e ∈ tr, noWrite e) : answeredWrites tr = [] := by
  induction tr with
  | nil => rfl
  | cons e t ih =>
    rw [answeredWrites_skip (h e (.head _))]
    exact ih fun e he => h e (.tail _ he)

theorem answeredWrites_append (h : ∀ e ∈ t₁, noWrite e) :
    answeredWrites (t₁ ++ t₂) = answeredWrites t₂ := by
  induction t₁ with
  | nil => rfl
  | cons e t ih =>
    rw [List.cons_append, answeredWrites_skip (h e (.head _))]
    exact ih fun e he => h e (.tail _ he)

theorem takeWhile_noWrite (h : ∀ e ∈ t, noWrite e) : t.takeWhile noWrite = t :=
  List.takeWhile_eq_self_iff.mpr h

theorem delivers_exchange (hw : ∀ e ∈ t, noWrite e) (hr : 0 < readies t) :
    Delivers [m] (⟨.write c m, true⟩ :: t) := by
  refine ⟨?_, rfl⟩
  simp only [answeredWrites, takeWhile_noWrite hw, answeredWrites_eq_nil hw]
  simp [hr]

theorem relayUntilReady_noWrite (h : Runs (relayUntilReady c) tr ok) :
    ∀ e ∈ tr, noWrite e := by
  intro ⟨o, x⟩ he
  cases o with
  | write d m =>
    obtain ⟨r, hr⟩ := (relayUntilReady_relayed h).reads _ (List.mem_filter.mpr ⟨he, rfl⟩)
    cases hr
  | _ => rfl

theorem relayUntilReady_ready (h : Runs (relayUntilReady c) tr true) : 0 < readies tr := by
  obtain ⟨s, t, t', -, hb, rfl⟩ := h.of_iterate (I := fun _ _ => True) trivial
    fun _ _ _ _ _ _ => trivial
  rcases relayRound_leave hb with he | ⟨m, hm, -, rfl⟩
  · cases he
  · have hr : m.isReady := decide_eq_true hm
    rw [readies_append]
    simp only [readies_cons, eventReadies, hr, if_true]
    omega

theorem forwardAll_one (h : Runs (forwardAll c [m]) tr ok) : tr = [⟨.write c m, ok⟩] := by
  unfold forwardAll at h
  rw [runs_perform_bind] at h
  obtain ⟨sent, t, h, rfl⟩ := h
  cases sent with
  | true =>
    obtain ⟨rfl, rfl⟩ := runs_pure.mp h
    rfl
  | false =>
    obtain ⟨rfl, rfl⟩ := runs_pure.mp h
    rfl

theorem delivers_relayed (h₁ : Runs (forwardAll c [m]) t₁ true)
    (h₂ : Runs (relayUntilReady c) t₂ true) : Delivers [m] (t₁ ++ t₂) := by
  rw [forwardAll_one h₁]
  exact delivers_exchange (relayUntilReady_noWrite h₂) (relayUntilReady_ready h₂)

theorem forwardAndRelay_delivers (h : Runs (forwardAndRelay c [m]) tr true) :
    Delivers [m] tr := by
  obtain ⟨t₁, t₂, h₁, h₂, rfl⟩ := forwardAndRelay_runs h
  exact delivers_relayed h₁ h₂

theorem fallback_delivers (h : Runs (fallback reset [m]) tr true) : Delivers [m] tr := by
  cases fallback_ways h with
  | served h₁ h₂ =>
    refine .cons rfl (.cons rfl (.cons rfl (.cons rfl ?_)))
    exact (forwardAndRelay_delivers h₁).silent (.cons rfl (handBack_foot.delivers rfl h₂))

theorem serveReader_delivers (h : Runs (serveReader addr p c [m] breakOnSend relayOnly
    (fun _ => return true) (fallback reset [m])) tr true) : Delivers [m] tr := by
  cases serveReader_ways h with
  | unsent h₁ h₂ h₃ h =>
    refine .cons rfl ((forwardAll_foot.delivers rfl h₁).append (.cons rfl ?_))
    refine (discardToPool_foot.delivers rfl h₂).append ?_
    exact (failReader_foot.delivers rfl h₃).append (fallback_delivers h)
  | served h₁ ht h₂ h₃ =>
    obtain ⟨rfl, -⟩ := runs_pure.mp h₃
    refine .cons rfl ?_
    rw [← List.append_assoc]
    refine (delivers_relayed h₁ (relayOnly_runs ht)).silent (.cons rfl ?_)
    exact (releaseToPool_foot.delivers rfl h₂).silent (delivers_silent (by simp [Op.sendsReady]))

theorem readOn_delivers (h : Runs (readOn addr [m] breakOnSend relayOnly (fun _ => return true)
    (fallback reset [m])) tr true) : Delivers [m] tr := by
  cases readOn_ways h with
  | passed hk _ h =>
    exact (delivers_silent (hk.avoids _ rfl fun _ => sendsReady_of_kind)).append
      (fallback_delivers h)
  | refused _ h₁ h =>
    refine .cons rfl (.cons rfl (.cons rfl ?_))
    exact (failReader_foot.delivers rfl h₁).append (fallback_delivers h)
  | reached _ h => exact .cons rfl (.cons rfl (.cons rfl (serveReader_delivers h)))

theorem onWriter_delivers {exchange : ConnId → Proc (Outcome Session)}
    {finish : Relay → ConnId → Bool → PoolId → Proc Flow}
    (hx : ∀ c t s, Runs (exchange c) t (.done s) → Delivers ms t)
    (hf : ∀ st c acquired p, Silent (finish st c acquired p))
    (h : Runs (onWriter st exchange finish) tr (.inl st')) : Delivers ms tr := by
  cases onWriter_ways h with
  | finished h₁ ht h₂ =>
    refine .cons rfl ((acquireWriterConn_foot.delivers rfl h₁).append (.cons rfl (.cons rfl ?_)))
    exact (hx _ _ _ ht).silent (.cons rfl ((hf _ _ _ _).delivers h₂))

theorem executeSynthesizedQuery_delivers
    (h : Runs (executeSynthesizedQuery st query) tr (.inl st')) :
    Delivers [queryMessage query] tr := by
  unfold executeSynthesizedQuery at h
  split at h
  · rw [runs_perform_bind] at h
    obtain ⟨addr, t, h, rfl⟩ := h
    rw [runs_bind] at h
    obtain ⟨t₁, ok, t₂, h₁, h, rfl⟩ := h
    obtain ⟨rfl, he⟩ := runs_pure.mp h
    obtain ⟨rfl, -⟩ := proceed_inl he.symm
    rw [List.append_nil]
    exact .cons rfl (readOn_delivers h₁)
  · exact onWriter_delivers (fun _ _ _ h => forwardAndRelay_delivers (forwardFor_runs h))
      (fun _ _ _ _ => finishSynthesized_foot.silent rfl) h

end Delivery

end Pgmux
