import Pgmux.Custody
import Pgmux.Step

namespace Pgmux

open Interaction Custody

inductive Traffic where
  | wrote (m : Message) (ok : Bool)
  | got (r : Option Message)
  deriving DecidableEq

section Tenure

variable [External]

def eventConn : Event → Option ConnId
  | ⟨.acquire _, some c⟩ => some c
  | ⟨.release _ c, _⟩ => some c
  | ⟨.discard _ c, _⟩ => some c
  | ⟨.write c _, _⟩ => some c
  | ⟨.read c, _⟩ => some c
  | _ => none

/-- What an event does to the connection that it is about. -/
def eventAct : Event → Option (Act PoolId Traffic)
  | ⟨.acquire p, some _⟩ => some (.take p)
  | ⟨.release (some p) _, _⟩ => some (.give p)
  | ⟨.release none _, _⟩ => some .lose
  | ⟨.discard (some p) _, _⟩ => some (.toss p)
  | ⟨.discard none _, _⟩ => some .lose
  | ⟨.write _ m, ok⟩ => some (.use (.wrote m ok))
  | ⟨.read _, r⟩ => some (.use (.got r))
  | _ => none

def connActs (c : ConnId) (tr : Trace Ans) : List (Act PoolId Traffic) :=
  tr.filterMap fun e => if eventConn e = some c then eventAct e else none

@[simp] theorem connActs_nil : connActs c ([] : Trace Ans) = [] := rfl

@[simp] theorem connActs_append (t₁ t₂ : Trace Ans) :
    connActs c (t₁ ++ t₂) = connActs c t₁ ++ connActs c t₂ := List.filterMap_append

theorem connActs_cons (e : Event) (t : Trace Ans) (h : eventConn e = some c)
    (ha : eventAct e = some a) : connActs c (e :: t) = a :: connActs c t := by
  simp [connActs, h, ha]

theorem connActs_skip (e : Event) (t : Trace Ans) (h : eventConn e ≠ some c) :
    connActs c (e :: t) = connActs c t := by
  simp [connActs, h]

@[simp] theorem connActs_release (p : PoolId) :
    connActs c ([⟨.release (some p) c, ()⟩] : Trace Ans) = [.give p] := by
  rw [connActs_cons _ _ rfl rfl, connActs_nil]

@[simp] theorem connActs_release_nil :
    connActs c ([⟨.release none c, ()⟩] : Trace Ans) = [.lose] := by
  rw [connActs_cons _ _ rfl rfl, connActs_nil]

@[simp] theorem connActs_discard (p : PoolId) :
    connActs c ([⟨.discard (some p) c, ()⟩] : Trace Ans) = [.toss p] := by
  rw [connActs_cons _ _ rfl rfl, connActs_nil]

@[simp] theorem connActs_discard_nil :
    connActs c ([⟨.discard none c, ()⟩] : Trace Ans) = [.lose] := by
  rw [connActs_cons _ _ rfl rfl, connActs_nil]

@[simp] theorem connActs_conn (tr : Trace Ans) : connActs c (conn tr) = connActs c tr := by
  induction tr with
  | nil => rfl
  | cons e t ih =>
    rw [conn_cons]
    split
    · simp only [connActs, List.filterMap_cons] at ih ⊢
      rw [ih]
    · rename_i h
      rw [connActs_skip, ih]
      obtain ⟨o, x⟩ := e
      cases o <;> simp_all [eventConn, Op.onConn]

def Only (c : ConnId) (t : Trace Ans) : Prop := ∀ e ∈ t, eventConn e = some c

theorem Only.append {t₁ t₂ : Trace Ans} (h₁ : Only c t₁) (h₂ : Only c t₂) : Only c (t₁ ++ t₂) := by
  exact List.forall_mem_append.mpr ⟨h₁, h₂⟩

theorem Only.cons {t : Trace Ans} (h : eventConn e = some c) (ht : Only c t) : Only c (e :: t) := by
  exact List.forall_mem_cons.mpr ⟨h, ht⟩

theorem Only.nil : Only c ([] : Trace Ans) := fun _ h => nomatch h

theorem Only.connActs {t : Trace Ans} (h : Only c t) (hc : c ≠ d) : connActs d t = [] := by
  unfold Pgmux.connActs
  rw [List.filterMap_eq_nil_iff]
  intro e he
  simp [h e he, hc]

def Talk (c : ConnId) (t : Trace Ans) : Prop :=
  ∀ e ∈ t, (∃ m ok, e = ⟨.write c m, ok⟩) ∨ ∃ r, e = ⟨.read c, r⟩

theorem Talk.only (h : Talk c t) : Only c t := by
  intro e he
  rcases h e he with ⟨m, ok, rfl⟩ | ⟨r, rfl⟩ <;> rfl

theorem Talk.nil : Talk c ([] : Trace Ans) := fun _ h => nomatch h

theorem Talk.write {t : Trace Ans} (h : Talk c t) : Talk c (⟨.write c m, ok⟩ :: t) := by
  exact List.forall_mem_cons.mpr ⟨.inl ⟨m, ok, rfl⟩, h⟩

theorem Talk.append {t₁ t₂ : Trace Ans} (h₁ : Talk c t₁) (h₂ : Talk c t₂) : Talk c (t₁ ++ t₂) := by
  exact List.forall_mem_append.mpr ⟨h₁, h₂⟩

theorem Reads.talk (h : Reads c t) : Talk c t := fun e he => .inr (h e he)

theorem Sent.talk (h : Sent c ms t ok) : Talk c t := by
  induction h with
  | done => exact .nil
  | fail => exact Talk.nil.write
  | more _ ih => exact ih.write

theorem Exchange.talk (h : Exchange c ms t ok) : Talk c t := by
  cases h with
  | unsent h => exact h.talk
  | sent h hr => exact h.talk.append hr.reads.talk

theorem Drained.reads (h : Drained c t ok) : Reads c t := by
  induction h with
  | broken => exact .single _
  | error => exact .single _
  | ready => exact .single _
  | more _ _ _ ih => exact (Reads.single _).append ih

theorem Drained.talk (h : Drained c t ok) : Talk c t := h.reads.talk

theorem Probed.talk (h : Probed c q t ok) : Talk c t := by
  cases h with
  | unsent => exact Talk.nil.write
  | sent h => exact h.talk.write

theorem Tracked.talk (h : Tracked c t) : Talk c t := by
  rcases h with rfl | ⟨ok, h⟩
  · exact .nil
  · exact h.talk

theorem Exchange.only (h : Exchange c ms t ok) : Only c t := h.talk.only

theorem HandedBack.only (h : HandedBack R c p dirty t) : Only c t := by
  cases h with
  | plain => exact .cons rfl .nil
  | reset _ h => exact h.talk.only.append (.cons rfl .nil)
  | failed _ h => exact h.talk.only.append (.cons rfl .nil)

theorem Talk.safe {D : Rules PoolId Traffic σ} {I : σ → Prop} (h : Talk c t)
    (hw : ∀ s m ok, ⟨.write c m, ok⟩ ∈ t → I s →
      D.allowed s (.wrote m ok) ∧ ∀ s', D.step s (.wrote m ok) s' → I s')
    (hr : ∀ s r, I s → D.allowed s (.got r) ∧ ∀ s', D.step s (.got r) s' → I s') (hi : I s) :
    Safe D (fun x => ∃ s', x = some s' ∧ I s') (some s) (connActs c t) := by
  induction t generalizing s with
  | nil => exact ⟨s, rfl, hi⟩
  | cons e t ih =>
    have ht : Talk c t := fun e he => h e (.tail _ he)
    have hwt := fun s m ok hm => hw s m ok (.tail _ hm)
    rcases h e (.head _) with ⟨m, ok, rfl⟩ | ⟨r, rfl⟩
    · rw [connActs_cons _ _ rfl rfl]
      have hs := hw s m ok (.head _) hi
      exact ⟨hs.1, fun s' hs' => ih ht hwt (hs.2 s' hs')⟩
    · rw [connActs_cons _ _ rfl rfl]
      exact ⟨(hr s r hi).1, fun s' hs' => ih ht hwt ((hr s r hi).2 s' hs')⟩

end Tenure

end Pgmux
