import Pgmux.SafeRelay
import Pgmux.Script

namespace Pgmux

open Interaction Custody

/-- A connection is handed back to the pool that it was taken from, and never lost. -/
def conservation : Rules PoolId Traffic PoolId where
  fresh p s := s = p
  allowed _ _ := True
  step s _ s' := s' = s
  back p s := s = p
  gone p s := s = p
  lost := False

theorem conservation_steady : Steady conservation where
  use _ _ := ⟨trivial, fun _ h => h⟩
  back _ _ h := h
  gone _ _ h := h

section Conservation

variable [External]

/-- Every connection that the trace acquires is handed back exactly once, to its own pool, and no
pool call is on a nil pool. -/
def Conserved (tr : Trace Ans) : Prop :=
  ∀ c, Safe conservation (· = none) none (connActs c tr)

def OnePool (tr : Trace Ans) : Prop := ∀ p ∈ poolsSeen tr, ∀ q ∈ poolsSeen tr, p = q

instance (tr : Trace Ans) : Decidable (OnePool tr) :=
  inferInstanceAs (Decidable (∀ p ∈ poolsSeen tr, ∀ q ∈ poolsSeen tr, p = q))

def QueryEndsBound (st : Relay) (tr : Trace Ans) : Prop :=
  ∀ msg ∈ received tr, msg.type = msgQuery → ∀ rules ∈ rulesSeen tr,
    st.session.inTransaction = true → routedTx true (checkedText rules msg) = false →
    st.boundWriter.isSome = true

instance (st : Relay) (tr : Trace Ans) : Decidable (QueryEndsBound st tr) :=
  inferInstanceAs (Decidable (∀ _ ∈ received tr, _))

def BatchEndsBound (st : Relay) (tr : Trace Ans) : Prop :=
  ∀ msg ∈ received tr, msg.type = msgSync → st.readsBatch = false → st.extTxEnd = true →
    st.boundWriter.isSome = true

instance (st : Relay) (tr : Trace Ans) : Decidable (BatchEndsBound st tr) :=
  inferInstanceAs (Decidable (∀ _ ∈ received tr, _))

def BeginsInPool (st : Relay) (tr : Trace Ans) : Prop :=
  ∀ msg ∈ received tr, msg.type = msgSync → st.synth.isSome = true → st.extTxStart = true →
    st.extTxEnd = false → ∀ lease ∈ st.boundWriter, ∀ p ∈ poolsSeen tr, p = lease.pool

instance (st : Relay) (tr : Trace Ans) : Decidable (BeginsInPool st tr) :=
  inferInstanceAs (Decidable (∀ _ ∈ received tr, _))

/-- A write on a new connection does not panic. -/
def QuerySurvives (st : Relay) (tr : Trace Ans) : Prop :=
  ∀ msg ∈ received tr, msg.type = msgQuery → st.boundWriter = none →
    ∀ rules ∈ rulesSeen tr, Extractable tr (checkedText rules msg)

instance (st : Relay) (tr : Trace Ans) : Decidable (QuerySurvives st tr) :=
  inferInstanceAs (Decidable (∀ _ ∈ received tr, _))

def Orderly (st : Relay) (tr : Trace Ans) : Prop :=
  OnePool tr ∧ QueryEndsBound st tr ∧ BatchEndsBound st tr ∧ BeginsInPool st tr ∧
    QuerySurvives st tr

instance (st : Relay) (tr : Trace Ans) : Decidable (Orderly st tr) :=
  inferInstanceAs (Decidable (_ ∧ _ ∧ _ ∧ _ ∧ _))

theorem conservation_repool (h : p = q) :
    (conservation_steady.policy (R := R) (c := c)).Repool p q := by
  subst h
  exact fun s => ⟨fun _ h => h, fun h => h⟩

omit [External] in
theorem Guarded.inTransaction (h : Guarded st st₁) :
    st₁.session.inTransaction = st.session.inTransaction := by
  rcases h with rfl | ⟨_, rfl⟩
  · rfl
  · simp only [Relay.pin, Session.pin]
    split <;> rfl

theorem Orderly.admits (h : Orderly st tr) :
    (conservation_steady.policy (R := R) (c := c)).Admits st tr := by
  obtain ⟨hpool, hquery, hsync, hmux, hlive⟩ := h
  have hpools : ∀ p₁ p₂, ⟨.writerPool, p₁⟩ ∈ conn tr → ⟨.writerPool, p₂⟩ ∈ conn tr →
      (conservation_steady.policy (R := R) (c := c)).Repool p₂ p₁ := fun p₁ p₂ h₁ h₂ =>
    conservation_repool (hpool p₂ (mem_answers.mpr (List.mem_of_mem_filter h₂)) p₁
      (mem_answers.mpr (List.mem_of_mem_filter h₁)))
  refine ⟨?_, ?_, ?_, ?_, ?_, ?_, ?_⟩
  · intros
    exact conservation_steady.serves
  · intro msg rules now st₁ hm ht hrules _ hg _
    refine conservation_steady.writes hpools (fun _ _ _ h => h.elim) (.inr ?_) fun hp hb =>
      (hlive msg hm ht (hg.kept.1 ▸ hb) rules (mem_answers.mpr hrules)).survives hp
    rintro ⟨hin, hout⟩
    rw [routeQueryLocked_inTransaction, hin] at hout
    rw [hg.kept.1]
    exact hquery msg hm ht rules (mem_answers.mpr hrules) (hg.inTransaction ▸ hin) hout
  · intros
    exact conservation_steady.serves
  · intros
    exact conservation_steady.serves
  · intro msg synth detail query hm ht hy _ _ hr
    refine conservation_steady.writes hpools ?_ (.inr fun he => hsync msg hm ht hr he) nofun
    rintro lease p hl ⟨hs, he⟩ hp
    have := hmux msg hm ht (by simp [hy]) hs he lease hl p
      (mem_answers.mpr (List.mem_of_mem_filter hp))
    exact conservation_repool this.symm
  · intros
    exact conservation_steady.serves
  · intro msg hm ht _ hr
    exact conservation_steady.writes hpools (fun _ _ _ h => h.elim)
      (.inr fun he => hsync msg hm ht hr he) nofun

/-- In every run with orderly rounds each connection goes back, once, to the pool that it came
from. -/
theorem relayRun_conserved (h : RelayRun dbName session multiplex rs t)
    (hrs : ∀ r ∈ rs, Orderly r.1 r.2) : Conserved (flat rs ++ t) := by
  intro c
  refine (relayRun_safe (R := fun _ => True) h (fun _ _ => trivial)
    (P := conservation_steady.policy) fun r hr => (hrs r hr).admits).mono ?_
  rintro S (hS | hS)
  · exact hS
  · exact hS.elim

end Conservation

theorem relayRun_conserved_begin_commit : ∃ (_ : External) (session : Session)
    (rs : List (Relay × Trace Ans)) (t : Trace Ans), RelayRun [] session false rs t ∧
      connActs 7 (flat rs ++ t) ≠ [] ∧ Conserved (flat rs ++ t) := by
  let _ := asciiExternal
  refine ⟨asciiExternal, ?_⟩
  obtain ⟨session, rs, t, h, hc⟩ := Script.play_check (n := 60)
    (s := .simple [queryMessage (ascii "BEGIN"), queryMessage (ascii "COMMIT")]
      [readyMessage, readyMessage])
    (f := fun rs t => decide (∀ r ∈ rs, Orderly r.1 r.2) &&
      decide (connActs 7 (flat rs ++ t) ≠ [])) (by decide +kernel)
  simp only [Bool.and_eq_true, decide_eq_true_eq] at hc
  exact ⟨session, rs, t, h, hc.2, relayRun_conserved h hc.1⟩

/-- A COMMIT in a batch of its own, outside of a transaction, is released to a nil pool. -/
theorem commit_batch_not_conserved : ∃ (_ : External) (session : Session)
    (rs : List (Relay × Trace Ans)) (t : Trace Ans), RelayRun [] session false rs t ∧
      ¬ Conserved (flat rs ++ t) := by
  let _ := asciiExternal
  refine ⟨asciiExternal, ?_⟩
  obtain ⟨session, rs, t, h, hc⟩ := Script.play_check (n := 60)
    (s := .simple [parseMessage [] (ascii "COMMIT"), bindMessage [], executeMessage, syncMessage]
      [readyMessage])
    (f := fun rs t => decide (connActs 7 (flat rs ++ t) =
      [.take 1, .use (.wrote (parseMessage [] (ascii "COMMIT")) true),
        .use (.wrote (bindMessage []) true), .use (.wrote executeMessage true),
        .use (.wrote syncMessage true), .use (.got (some readyMessage)), .lose]))
    (by decide +kernel)
  refine ⟨session, rs, t, h, fun hcons => ?_⟩
  have hs := hcons 7
  rw [of_decide_eq_true hc] at hs
  simp [Safe, conservation] at hs

end Pgmux
