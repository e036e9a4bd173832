import Pgmux.RelayReadies

namespace Pgmux

open Interaction

section Outcome

variable [External]

/-- What the reads from a backend give; a message that is too long is refused. -/
def backendAnswers (t : Trace Ans) : List (Option Message) :=
  t.filterMap fun
    | ⟨.read _, x⟩ => some (accepted x)
    | _ => none

def endsReady (t : Trace Ans) : Bool :=
  match (backendAnswers t).getLast? with
  | some (some m) => m.type = msgReadyForQuery
  | _ => false

def ReadyLost (t : Trace Ans) : Prop := ∃ m, m.type = msgReadyForQuery ∧ ⟨.sendClient m, false⟩ ∈ t

def AllSent (t : Trace Ans) : Prop := ∀ m, ⟨.sendClient m, false⟩ ∉ t

theorem backendAnswers_append (t₁ t₂ : Trace Ans) :
    backendAnswers (t₁ ++ t₂) = backendAnswers t₁ ++ backendAnswers t₂ :=
  List.filterMap_append

theorem endsReady_append (t₁ t₂ : Trace Ans) :
    endsReady (t₁ ++ t₂) = if backendAnswers t₂ = [] then endsReady t₁ else endsReady t₂ := by
  unfold endsReady
  rw [backendAnswers_append, List.getLast?_append]
  by_cases h : backendAnswers t₂ = []
  · rw [if_pos h, h, List.getLast?_nil, Option.none_or]
  · rw [if_neg h, List.getLast?_eq_some_getLast h, Option.some_or]

theorem endsReady_unread {t₁ : Trace Ans} (h : backendAnswers t₁ = []) (t₂ : Trace Ans) :
    endsReady (t₁ ++ t₂) = endsReady t₂ := by
  rw [endsReady, backendAnswers_append, h, List.nil_append, endsReady]

theorem ReadyLost.append_iff {t₁ t₂ : Trace Ans} (h : AllSent t₁) :
    ReadyLost (t₁ ++ t₂) ↔ ReadyLost t₂ := by
  constructor
  · rintro ⟨m, hm, hmem⟩
    rcases List.mem_append.mp hmem with hmem | hmem
    · exact absurd hmem (h m)
    · exact ⟨m, hm, hmem⟩
  · rintro ⟨m, hm, hmem⟩
    exact ⟨m, hm, List.mem_append_right _ hmem⟩

theorem AllSent.append {t₁ t₂ : Trace Ans} (h₁ : AllSent t₁) (h₂ : AllSent t₂) :
    AllSent (t₁ ++ t₂) := by
  intro m hmem
  rcases List.mem_append.mp hmem with hmem | hmem
  · exact h₁ m hmem
  · exact h₂ m hmem

theorem AllSent.not_lost (h : AllSent t) : ¬ ReadyLost t := fun ⟨m, _, hm⟩ => h m hm

def Op.isAside : Op → Prop
  | .sendClient _ => False
  | .read _ => False
  | _ => True

theorem aside_allSent (h : ∀ e ∈ t, e.1.isAside) : AllSent t :=
  fun _ hm => h _ hm

theorem aside_answers (h : ∀ e ∈ t, e.1.isAside) : backendAnswers t = [] := by
  apply List.filterMap_eq_nil_iff.mpr
  intro e he
  have ha := h e he
  obtain ⟨o, x⟩ := e
  cases o with
  | read c => exact ha.elim
  | _ => rfl

theorem relayCopyIn_aside : Within Op.isAside (relayCopyIn c) :=
  .iterate (fun _ => fromClient_within trivial fun _ => trivial) ()

theorem copyBothClient_aside : Within Op.isAside (copyBothClient c) :=
  fromClient_within trivial fun _ => trivial

theorem Hop.failed (h : Hop c t none) (t₀ : Trace Ans) (h₀ : AllSent t₀) :
    ReadyLost (t₀ ++ t) ↔ endsReady (t₀ ++ t) := by
  rw [ReadyLost.append_iff h₀, endsReady_append]
  cases h with
  | unread hx => simp [ReadyLost, backendAnswers, endsReady, hx]
  | untaken hm => simp [ReadyLost, backendAnswers, endsReady, hm]

theorem Hop.sent (h : Hop c t (some m)) : AllSent t := by
  cases h
  simp [AllSent]

theorem Hop.last (h : Hop c t (some m)) (t₀ : Trace Ans) :
    endsReady (t₀ ++ t) = decide (m.type = msgReadyForQuery) := by
  cases h with
  | relayed hm => simp [backendAnswers, endsReady, hm]

/-- How a COPY stream ends: well, with all sent, or with a ReadyForQuery as the last message only
if the client did not take it. -/
def CopyEnd (ok : Bool) (t : Trace Ans) : Prop :=
  (ok = true → AllSent t) ∧ (ok = false → (ReadyLost t ↔ endsReady t = true))

theorem hopLoop_end {body : Unit → Proc (Unit ⊕ Bool)} (hround : ∀ u x, Runs (body ()) u x →
      x = .inr false ∧ Hop c u none ∨ x ≠ .inr false ∧ ∃ m, Hop c u (some m))
    (h : Runs (iterate body ()) t ok) : CopyEnd ok t := by
  obtain ⟨_, t, t', hI, hb, rfl⟩ := h.of_iterate (I := fun _ t => AllSent t) (by simp [AllSent]) (by
    intro _ t t' _ hI hb
    rcases hround _ _ hb with ⟨hx, -⟩ | ⟨-, m, hp⟩
    · cases hx
    · exact hI.append hp.sent)
  rcases hround _ _ hb with ⟨hx, hp⟩ | ⟨hx, m, hp⟩
  · cases hx
    exact ⟨fun h => absurd h Bool.false_ne_true, fun _ => hp.failed t hI⟩
  · refine ⟨fun _ => hI.append hp.sent, ?_⟩
    rintro rfl
    exact absurd rfl hx

theorem relayCopyOut_end (h : Runs (relayCopyOut c) t ok) : CopyEnd ok t := by
  refine hopLoop_end (c := c) ?_ h
  intro u x hb
  rcases fromBackend_hop hb with hf | ⟨m, u, u', hp, hk, rfl⟩
  · exact .inl hf
  · obtain ⟨rfl, rfl⟩ := runs_pure.mp hk
    rw [List.append_nil]
    refine .inr ⟨?_, m, hp⟩
    split <;> simp

def BothSide (a : Option Bool) (t : Trace Ans) : Prop :=
  (a ≠ some false → AllSent t) ∧ (a = some true → endsReady t = false) ∧
    (a = some false → (ReadyLost t ↔ endsReady t = true))

theorem BothSide.aside (h : BothSide a t) (ht : ∀ e ∈ t', e.1.isAside) : BothSide a (t ++ t') := by
  have hready : endsReady (t ++ t') = endsReady t := by
    rw [endsReady_append, if_pos (aside_answers ht)]
  refine ⟨fun ha => (h.1 ha).append (aside_allSent ht), fun ha => ?_, fun ha => ?_⟩
  · rw [hready]
    exact h.2.1 ha
  · rw [hready, ← h.2.2 ha]
    constructor
    · rintro ⟨m, hm, hmem⟩
      rcases List.mem_append.mp hmem with hmem | hmem
      · exact ⟨m, hm, hmem⟩
      · exact absurd hmem (aside_allSent ht m)
    · rintro ⟨m, hm, hmem⟩
      exact ⟨m, hm, List.mem_append_left _ hmem⟩

theorem relayCopyBoth_end (h : Runs (relayCopyBoth c) t ok) : CopyEnd ok t := by
  obtain ⟨a, hI, ha⟩ := relayCopyBoth_invariant (I := BothSide)
    ⟨fun _ => by simp [AllSent], nofun, nofun⟩
    (fun t b hI => hI.aside (by simp [Op.isAside]))
    (fun t t' a hI hb => by
      have hsent : AllSent t := hI.1 nofun
      rcases copyBothBackend_hop hb with ⟨rfl, hp⟩ | ⟨m, hp, rfl⟩
      · exact ⟨fun hne => absurd rfl hne, nofun, fun _ => hp.failed t hsent⟩
      · refine ⟨fun _ => hsent.append hp.sent, fun hd => ?_, fun hf => ?_⟩
        · split at hd
          · rename_i hm
            rw [hp.last, hm]
            decide
          · cases hd
        · split at hf
          · cases hf
          · cases hf)
    (fun a t t' b hI hb => hI.aside (copyBothClient_aside t' b hb)) h
  refine ⟨fun hok => hI.1 (by simp [ha hok]), fun hok => ?_⟩
  cases a with
  | false => exact hI.2.2 rfl
  | true =>
    rw [hI.2.1 rfl]
    exact ⟨fun hl => absurd hl (hI.1 (by simp)).not_lost, nofun⟩

theorem relayCopy_end (h : Runs (relayCopy c m) t ok) : CopyEnd ok t := by
  unfold relayCopy at h
  split at h
  · have ha : ∀ e ∈ t, e.1.isAside := relayCopyIn_aside t ok h
    refine ⟨fun _ => aside_allSent ha, fun _ => ?_⟩
    simp [endsReady, aside_answers ha, (aside_allSent ha).not_lost]
  split at h
  · exact relayCopyOut_end h
  split at h
  · exact relayCopyBoth_end h
  · obtain ⟨rfl, rfl⟩ := runs_pure.mp h
    exact ⟨fun _ => by simp [AllSent], nofun⟩

/-- The relay reports whether the backend has come to its ReadyForQuery, unless the client does not
take that message. -/
theorem relayUntilReady_reports (h : Runs (relayUntilReady c) t ok) :
    ok = endsReady t ↔ ¬ ReadyLost t := by
  obtain ⟨_, t, t', hI, hb, rfl⟩ := h.of_iterate (I := fun _ t => AllSent t) (by simp [AllSent]) (by
    intro _ t t' _ hI hb
    obtain ⟨m, u, -, -, hcopy, rfl⟩ := relayRound_copied hb
    have hm : AllSent [⟨.read c, some m⟩, ⟨.sendClient m, true⟩] := by simp [AllSent]
    exact hI.append (hm.append ((relayCopy_end hcopy).1 rfl)))
  generalize hx : Sum.inr ok = x at hb
  cases relayRound_ways hb with
  | copied => cases hx
  | ready hm hp =>
    cases hx
    rw [hp.last, hm]
    simp [(hI.append hp.sent).not_lost]
  | stuck hp =>
    cases hx
    rw [hp.failed t hI]
    simp
  | @broken m t' u' hm hp hcopy =>
    cases hx
    -- The message that opens the COPY stream is no ReadyForQuery, so the stream decides.
    have hend := (relayCopy_end hcopy).2 rfl
    rw [← List.append_assoc, endsReady_append, hp.last, ReadyLost.append_iff (hI.append hp.sent),
      hend]
    by_cases hu : backendAnswers u' = []
    · simp [hu, hm, endsReady]
    · simp [hu]

theorem forwardAll_aside : Within Op.isAside (forwardAll c ms) :=
  forwardAll_foot.avoids [.send, .ready, .read] rfl fun o ho => by
    cases o with
    | sendClient m => cases hm : m.isReady <;> simp [Op.kind, hm] at ho
    | read c => cases ho
    | _ => trivial

theorem forwardAndRelay_reports (h : Runs (forwardAndRelay c ms) t ok) :
    ok = endsReady t ↔ ¬ ReadyLost t := by
  obtain ⟨t₁, sent, t₂, rfl, h₁, h⟩ := h.of_seq
  have ha : ∀ e ∈ t₁, e.1.isAside := forwardAll_aside t₁ sent h₁
  rw [ReadyLost.append_iff (aside_allSent ha), endsReady_unread (aside_answers ha)]
  cases sent with
  | true => exact relayUntilReady_reports h
  | false =>
    obtain ⟨rfl, rfl⟩ := runs_pure.mp h
    simp [endsReady, backendAnswers, ReadyLost]

end Outcome

end Pgmux
