import Pgmux.Readies

namespace Pgmux

open Interaction

section RelayReadies

variable [External] {tr t t₁ t₂ : Trace Ans} {Q : Bytes → Prop}

def Op.toClient : Op → Bool
  | .sendClient _ => true
  | .sendCached _ => true
  | _ => false

def Echo (tr : Trace Ans) : Prop :=
  ∀ e ∈ tr, (∀ m, e.1 = .sendClient m → m ∈ backendReads tr) ∧ ∀ data, e.1 ≠ .sendCached data

theorem echo_joins : Joins Echo where
  nil _ he := nomatch he
  append {t₁ t₂} h₁ h₂ := by
    intro e he
    rw [backendReads_append]
    rcases List.mem_append.mp he with he | he
    · exact ⟨fun m hm => List.mem_append_left _ ((h₁ e he).1 m hm), (h₁ e he).2⟩
    · exact ⟨fun m hm => List.mem_append_right _ ((h₂ e he).1 m hm), (h₂ e he).2⟩

theorem Hop.echo (h : Hop c t x) : Echo t := by
  cases h <;> simp [Echo, backendReads]

theorem Within.echo {p : Proc α} (h : Within (fun o => o.toClient = false) p) : Always Echo p := by
  intro tr a hr e he
  have ho := h tr a hr e he
  refine ⟨fun m hm => ?_, fun data hd => ?_⟩
  · rw [hm] at ho
    cases ho
  · rw [hd] at ho
    cases ho

theorem fromBackend_echo {f : Message → α} : Always Echo (do
      match accepted (← ask (.read c)) with
      | some m => if ← ask (.sendClient m) then return f m else return failed
      | none => return failed : Proc α) := by
  intro tr r h
  rcases fromBackend_hop h with ⟨-, hp⟩ | ⟨m, u, u', hp, hk, rfl⟩
  · exact hp.echo
  · obtain ⟨rfl, -⟩ := runs_pure.mp hk
    exact echo_joins.append hp.echo echo_joins.nil

theorem echo_ask (h : o.toClient = false) : Always Echo (ask o) := Within.echo (within_perform h)

theorem relayCopyIn_echo : Always Echo (relayCopyIn c) :=
  echo_joins.iterate (fun _ => Within.echo (fromClient_within rfl fun _ => rfl)) ()

theorem relayCopyOut_echo : Always Echo (relayCopyOut c) :=
  echo_joins.iterate (fun _ => fromBackend_echo) ()

theorem copyBothBackend_echo : Always Echo (copyBothBackend c) := fromBackend_echo

theorem copyBothClient_echo : Always Echo (copyBothClient c) :=
  Within.echo (fromClient_within rfl fun _ => rfl)

theorem relayCopyBoth_echo : Always Echo (relayCopyBoth c) := by
  refine echo_joins.iterate (fun ends => ?_) (none, none)
  obtain ⟨a | a, b | b⟩ := ends
  · refine echo_joins.bind (echo_ask rfl) fun turn => .ite ?_ ?_
    · exact echo_joins.bind copyBothBackend_echo fun _ => echo_joins.pure _
    · exact echo_joins.bind copyBothClient_echo fun _ => echo_joins.pure _
  · exact echo_joins.bind copyBothBackend_echo fun _ => echo_joins.pure _
  · exact echo_joins.bind copyBothClient_echo fun _ => echo_joins.pure _
  · exact echo_joins.pure _

theorem relayCopy_echo : Always Echo (relayCopy c m) :=
  .ite relayCopyIn_echo (.ite relayCopyOut_echo (.ite relayCopyBoth_echo (echo_joins.pure _)))

theorem Echo.answered (h : Echo tr) (hr : ∀ m ∈ backendReads tr, m.isReady = false) :
    Answered 0 Q tr := by
  apply answered_silent
  intro e he
  obtain ⟨h₁, h₂⟩ := h e he
  obtain ⟨o, x⟩ := e
  cases o with
  | sendClient m => exact hr m (h₁ m rfl)
  | sendCached data => exact (h₂ data rfl).elim
  | _ => rfl

theorem Hop.reads (h : Hop c t (some m)) : backendReads t = [m] := by
  cases h
  rfl

theorem relayCopyOut_reads (h : Runs (relayCopyOut c) tr true) : ∃ ds m,
    backendReads tr = ds ++ [m] ∧ (∀ d ∈ ds, d.type = msgCopyData) ∧ m.type ≠ msgCopyData := by
  obtain ⟨_, t, t', hI, hb, rfl⟩ := h.of_iterate
    (I := fun _ t => ∀ d ∈ backendReads t, d.type = msgCopyData) (fun _ h => nomatch h) (by
      intro _ t t' _ hI hb
      rcases fromBackend_hop hb with ⟨hs, -⟩ | ⟨m, u, u', hp, hk, rfl⟩
      · cases hs
      obtain ⟨rfl, hs⟩ := runs_pure.mp hk
      split at hs
      · rename_i hm
        rw [List.append_nil, backendReads_append, hp.reads]
        exact List.forall_mem_append.mpr ⟨hI, by simpa using hm⟩
      · cases hs)
  rcases fromBackend_hop hb with ⟨hs, -⟩ | ⟨m, u, u', hp, hk, rfl⟩
  · cases hs
  obtain ⟨rfl, hs⟩ := runs_pure.mp hk
  split at hs
  · cases hs
  · rename_i hm
    exact ⟨backendReads t, m, by rw [List.append_nil, backendReads_append, hp.reads], hI, hm⟩

theorem copyBothBackend_hop (h : Runs (copyBothBackend c) t r) :
    r = some false ∧ Hop c t none ∨
      ∃ m, Hop c t (some m) ∧ r = if m.type = msgCopyDone then some true else none := by
  rcases fromBackend_hop h with hf | ⟨m, u, u', hp, hk, rfl⟩
  · exact .inl hf
  · obtain ⟨rfl, rfl⟩ := runs_pure.mp hk
    exact .inr ⟨m, by rwa [List.append_nil], rfl⟩

theorem Within.unread {p : Proc α} (hp : Within (fun o => ∀ c, o ≠ .read c) p)
    (h : Runs p tr r) : backendReads tr = [] := by
  apply List.filterMap_eq_nil_iff.mpr
  intro e he
  have hr := hp tr r h e he
  obtain ⟨o, x⟩ := e
  cases o with
  | read c => exact (hr c rfl).elim
  | _ => rfl

theorem copyBothClient_reads (h : Runs (copyBothClient c) tr r) : backendReads tr = [] :=
  Within.unread (fromClient_within nofun fun _ => nofun) h

/-- What the backend has sent in a streaming replication: up to CopyDone, once its side has
ended. -/
def Streamed (a : Option Bool) (ms : List Message) : Prop :=
  (a = none → ∀ m ∈ ms, m.type ≠ msgCopyDone) ∧
    (a = some true → ∃ ds m, ms = ds ++ [m] ∧ (∀ d ∈ ds, d.type ≠ msgCopyDone) ∧
      m.type = msgCopyDone)

theorem Streamed.backend (h : Streamed none ms) (hr : Runs (copyBothBackend c) tr a) :
    Streamed a (ms ++ backendReads tr) := by
  rcases copyBothBackend_hop hr with ⟨rfl, -⟩ | ⟨m, hp, rfl⟩
  · exact ⟨nofun, nofun⟩
  rw [hp.reads]
  split
  · rename_i hm
    exact ⟨nofun, fun _ => ⟨ms, m, rfl, h.1 rfl, hm⟩⟩
  · rename_i hm
    exact ⟨fun _ => List.forall_mem_append.mpr ⟨h.1 rfl, by simpa using hm⟩, nofun⟩

theorem Streamed.client (h : Streamed a ms) (hr : Runs (copyBothClient c) tr b) :
    Streamed a (ms ++ backendReads tr) := by
  rw [copyBothClient_reads hr, List.append_nil]
  exact h

theorem relayCopyBoth_invariant {I : Option Bool → Trace Ans → Prop} (init : I none [])
    (schedule : ∀ t b, I none t → I none (t ++ [⟨.schedule, b⟩]))
    (backend : ∀ t t' a, I none t → Runs (copyBothBackend c) t' a → I a (t ++ t'))
    (client : ∀ a t t' b, I a t → Runs (copyBothClient c) t' b → I a (t ++ t'))
    (h : Runs (relayCopyBoth c) tr ok) : ∃ a, I (some a) tr ∧ (ok = true → a = true) := by
  obtain ⟨⟨a, b⟩, t, t', hI, hb, rfl⟩ := h.of_iterate (I := fun ends t => I ends.1 t) init (by
    rintro ⟨a | a, b | b⟩ t t' s' hI hb
    · dsimp only at hb
      rw [runs_perform_bind] at hb
      obtain ⟨turn, u, hb, rfl⟩ := hb
      rw [← List.singleton_append, ← List.append_assoc]
      replace hI := schedule t turn hI
      split at hb
      · obtain ⟨x, h₁, hs⟩ := hb.of_map
        cases hs
        exact backend _ _ _ hI h₁
      · obtain ⟨x, h₁, hs⟩ := hb.of_map
        cases hs
        exact client _ _ _ _ hI h₁
    · obtain ⟨x, h₁, hs⟩ := hb.of_map
      cases hs
      exact backend _ _ _ hI h₁
    · obtain ⟨x, h₁, hs⟩ := hb.of_map
      cases hs
      exact client _ _ _ _ hI h₁
    · simp at hb)
  rcases a with _ | a
  · rcases b with _ | b
    · dsimp only at hb
      rw [runs_perform_bind] at hb
      obtain ⟨turn, u, hb, rfl⟩ := hb
      split at hb
      · simp at hb
      · simp at hb
    · simp at hb
  · rcases b with _ | b
    · simp at hb
    · obtain ⟨rfl, hs⟩ := runs_pure.mp hb
      rw [List.append_nil]
      refine ⟨a, hI, fun hok => ?_⟩
      simp only [Sum.inr.injEq] at hs
      rw [hok] at hs
      exact ((Bool.and_eq_true a b).mp hs.symm).1

theorem relayCopyBoth_reads (h : Runs (relayCopyBoth c) tr true) : ∃ ds m,
    backendReads tr = ds ++ [m] ∧ (∀ d ∈ ds, d.type ≠ msgCopyDone) ∧ m.type = msgCopyDone := by
  obtain ⟨a, hI, ha⟩ := relayCopyBoth_invariant (I := fun a t => Streamed a (backendReads t))
    ⟨fun _ _ h => (nomatch h), nofun⟩
    (fun t b hI => by
      rw [backendReads_append]
      change Streamed none (backendReads t ++ [])
      rwa [List.append_nil])
    (fun t t' a hI hb => by
      rw [backendReads_append]
      exact hI.backend hb)
    (fun a t t' b hI hb => by
      rw [backendReads_append]
      exact hI.client hb) h
  rw [ha rfl] at hI
  exact hI.2 rfl

theorem relayCopyIn_reads (h : Runs (relayCopyIn c) tr r) : backendReads tr = [] :=
  Within.unread (.iterate (fun _ => fromClient_within nofun fun _ => nofun) ()) h

theorem relayCopy_reads (h : Runs (relayCopy c m) tr true)
    (hm : readyOutsideCopy (m :: backendReads tr)) :
    ∀ x ∈ backendReads tr, x.isReady = false := by
  simp only [readyOutsideCopy, Bool.and_eq_true, Bool.or_eq_true, decide_eq_true_eq] at hm
  obtain ⟨⟨hout, hboth⟩, -⟩ := hm
  intro x hx
  unfold relayCopy at h
  split at h
  · rw [relayCopyIn_reads h] at hx
    cases hx
  split at h
  · rename_i ht
    obtain ⟨ds, y, hr, hds, hy⟩ := relayCopyOut_reads h
    rw [hr] at hx hout
    rcases List.mem_append.mp hx with hx | hx
    · rw [Message.isReady, hds x hx]
      decide
    · rw [List.mem_singleton.mp hx]
      have hd : (ds ++ [y]).dropWhile (fun m => decide (m.type = msgCopyData)) = [y] := by
        rw [List.dropWhile_append_of_pos (by simpa using hds)]
        simp [hy]
      rw [hd] at hout
      simpa using hout.resolve_left (not_not.mpr ht)
  split at h
  · rename_i ht
    obtain ⟨ds, y, hr, hds, hy⟩ := relayCopyBoth_reads h
    rw [hr] at hx hboth
    rcases List.mem_append.mp hx with hx | hx
    · have hd : (ds ++ [y]).takeWhile (fun m => decide (m.type ≠ msgCopyDone)) = ds := by
        rw [List.takeWhile_append_of_pos (by simpa using hds)]
        simp [hy]
      rw [hd] at hboth
      have := List.all_eq_true.mp (hboth.resolve_left (not_not.mpr ht)) x hx
      simpa using this
    · rw [List.mem_singleton.mp hx, Message.isReady, hy]
      decide
  · obtain ⟨rfl, -⟩ := runs_pure.mp h
    cases hx

theorem relayCopy_answered (h : Runs (relayCopy c m) tr true)
    (hm : readyOutsideCopy (m :: backendReads tr)) : Answered 0 Q tr :=
  (relayCopy_echo _ _ h).answered (relayCopy_reads h hm)

theorem answered_relayed (hm : m.type = msgReadyForQuery) :
    Answered 1 Q [⟨.read c, some m⟩, ⟨.sendClient m, b⟩] := by
  obtain ⟨type, payload⟩ := m
  obtain rfl : type = msgReadyForQuery := hm
  refine ⟨rfl, ?_⟩
  rintro p ⟨pre, b', post, he, hown⟩
  rcases pre with _ | ⟨e₁, _ | ⟨e₂, pre⟩⟩
  · cases he
  · cases he
    exact (hown c [] rfl).elim
  · cases pre <;> cases he

theorem relayLoop_answered {go : σ → Message → σ} {done : σ → Message → β}
    (h : Runs (iterate (fun s => relayRound c (go s) (done s) failed) s) tr r) (hr : r ≠ failed)
    (hone : OneReady tr) : Answered 1 Q tr := by
  obtain ⟨s', t, t', hI, hb, rfl⟩ := h.of_iterate
    (I := fun _ t => OneReady t → Answered 0 Q t) (fun _ => answered_silent fun _ h => nomatch h)
    (by
      intro s t t' s' hI hb hone
      obtain ⟨m, u, hm, -, hc, rfl⟩ := relayRound_copied hb
      refine (hI hone.left).append (k := 0) ?_
      refine .cons rfl (.cons ?_ (relayCopy_answered hc hone.right.1))
      simp [Op.sendsReady, Message.isReady, hm])
  rcases relayRound_leave hb with he | ⟨m, hm, -, rfl⟩
  · exact (hr he).elim
  · have h₁ := (hI hone.left).append (answered_relayed (Q := Q) (c := c) (b := true) hm)
    exact h₁

theorem relayUntilReady_answered (h : Runs (relayUntilReady c) tr true) (hone : OneReady tr) :
    Answered 1 Q tr := relayLoop_answered h nofun hone

theorem relayAndCollect_answered (h : Runs (relayAndCollect c) tr (some buf))
    (hone : OneReady tr) : Answered 1 Q tr := by
  unfold relayAndCollect at h
  rw [runs_perform_bind] at h
  obtain ⟨cfg, t, h, rfl⟩ := h
  have hs : Answered 0 Q [⟨.config, cfg⟩] := answered_silent (by simp [Op.sendsReady])
  have hl := relayLoop_answered (Q := Q) h (by simp) hone.tail
  exact hs.append hl

end RelayReadies

end Pgmux
