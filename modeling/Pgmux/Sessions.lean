import Pgmux.SafeRelay

namespace Pgmux

open Interaction Custody

section Sessions

variable [External] {I : Type} [DecidableEq I] {R : Bytes → Prop} {c : ConnId} {σ : Type}
  {D : Rules PoolId Traffic σ}

def Sessions (R : Bytes → Prop) (c : ConnId) (ok : Relay → Trace Ans → Prop)
    (history : List (I × Act PoolId Traffic)) : Prop :=
  ∀ i, ∃ dbName session multiplex rs t, RelayRun dbName session multiplex rs t ∧
    Configured R (flat rs ++ t) ∧ (∀ r ∈ rs, ok r.1 r.2) ∧
    acts i history <+: connActs c (flat rs ++ t)

theorem RelayRun.safe_prefix (h : RelayRun dbName session multiplex rs t)
    (hR : Configured R (flat rs ++ t)) {P : Policy R c D} (hp : ∀ r ∈ rs, P.Admits r.1 r.2)
    (ha : a <+: connActs c (flat rs ++ t)) : Safe D (fun _ => True) none a := by
  obtain ⟨b, hb⟩ := ha
  have hs := relayRun_safe h hR hp
  rw [← hb] at hs
  exact hs.left

theorem Sessions.obedient {ok : Relay → Trace Ans → Prop}
    {history : List (I × Act PoolId Traffic)} (h : Sessions R c ok history) (P : Policy R c D)
    (hp : ∀ st tr, ok st tr → P.Admits st tr) (hD : ∀ p s, D.back p s → D.fresh p s) :
    Obedient D (.away : Place I PoolId σ) history := by
  refine obedient_of_safe hD (fun p s hw => nomatch hw) fun i => ?_
  obtain ⟨_, _, _, rs, t, hrun, hR, hok, ha⟩ := h i
  exact hrun.safe_prefix hR (P := P) (fun r hr => hp _ _ (hok r hr)) ha

def soleHistory (l : List (Act PoolId Traffic)) : List (Unit × Act PoolId Traffic) :=
  l.map fun a => ((), a)

omit [External] in
theorem acts_soleHistory (l : List (Act PoolId Traffic)) (i : Unit) :
    acts i (soleHistory l) = l := by
  simp [acts, soleHistory, Function.comp_def]

theorem sessions_sole {ok : Relay → Trace Ans → Prop} {rs : List (Relay × Trace Ans)}
    (h : RelayRun dbName session multiplex rs t)
    (hR : ∀ cfg ∈ configsSeen (flat rs ++ t), cfg.resetQuery = q) (hok : ∀ r ∈ rs, ok r.1 r.2) :
    Sessions (· = q) c ok (soleHistory (connActs c (flat rs ++ t))) := by
  intro i
  refine ⟨dbName, session, multiplex, rs, t, h, fun cfg hc => hR cfg (mem_answers.mpr hc), hok, ?_⟩
  exact ⟨[], by rw [acts_soleHistory, List.append_nil]⟩

end Sessions

end Pgmux
