import Pgmux.Script
import Pgmux.Written

namespace Pgmux

open Interaction

section CheckedText

variable [External]

def Unrewritten (rules : Option External.Rules) (msg : Message) : Prop :=
  ∀ text, rules.bind (fun rules => External.applyRules rules (extractQueryText msg.payload)) =
    some text → text = extractQueryText msg.payload

theorem checkedText_eq_iff : extractQueryText msg.payload = checkedText rules msg ↔
    Unrewritten rules msg := by
  unfold checkedText Unrewritten
  dsimp only
  cases rules.bind fun rules => External.applyRules rules (extractQueryText msg.payload) with
  | none => simp
  | some text => simp [eq_comm]

/-- The text passed the firewall and the session guard and was routed: to the writer past the
read-only check, or to a reader past the cache. -/
def Checked (tr : Trace Ans) (st : Relay) (text : Bytes) : Prop :=
  ∃ st₁ now, Passed (· ∈ tr) st text st₁ ∧ ⟨.now, now⟩ ∈ tr ∧
    match (st₁.session.routeQueryLocked now text).1 with
    | .writer => ∃ (cfg : Config) (b : Bool), ⟨.config, cfg⟩ ∈ tr ∧ ⟨.inReadOnly, b⟩ ∈ tr ∧
        (b = true → classifyBy cfg.astParser text = .read)
    | .reader => CacheLookup (· ∈ tr) st₁ text

theorem QueryStep.checked (h : QueryStep R (· ∈ tr) st msg t r) (hw : (c, m) ∈ writes t) :
    ∃ rules, ⟨.rewriter, rules⟩ ∈ tr ∧ Checked tr st (checkedText rules msg) := by
  obtain ⟨ok, hm⟩ := mem_writes.mp hw
  cases h with
  | blocked => cases hm
  | readOnly => cases hm
  | write hrules hnow hp hcfg hro hb hroute hx =>
    refine ⟨_, hrules, _, _, hp, hnow, ?_⟩
    rw [hroute]
    exact ⟨_, _, hcfg, hro, hb⟩
  | read hrules hnow hp hroute hlook hv =>
    refine ⟨_, hrules, _, _, hp, hnow, ?_⟩
    rw [hroute]
    exact hlook

theorem QueryStep.writes_message (h : QueryStep (resetsSeen tr) seen st msg t r)
    (hw : (c, m) ∈ writes t) : OwnQuery tr m ∨ m = msg := by
  have hx : Written (fun _ m => OwnQuery tr m ∨ m = msg) t :=
    h.written (ownQueries_of fun _ _ ho => .inl ho) fun _ => .inr rfl
  exact hx.of_mem hw

/-- A forwarded Query has the text that was checked exactly when the rules did not change it. -/
theorem forwarded_checked_iff (h : Runs (handleQuery st msg) tr r)
    (hw : (c, m) ∈ writes tr) (ho : ¬ OwnQuery tr m) :
    ∃ rules, ⟨.rewriter, rules⟩ ∈ tr ∧ Checked tr st (checkedText rules msg) ∧
      (extractQueryText m.payload = checkedText rules msg ↔ Unrewritten rules msg) := by
  have hq := handleQuery_step h (configured_resetsSeen tr)
  rw [← writes_conn] at hw
  obtain ⟨rules, hrules, hc⟩ := hq.checked hw
  obtain rfl := (hq.writes_message hw).resolve_left ho
  exact ⟨rules, hrules, hc, checkedText_eq_iff⟩

end CheckedText

/-- Under a rule that makes `SELECT 2` of the query, that text is the one that was checked. -/
theorem forwarded_checked_iff_select : ∃ (_ : External) (tr : Trace Ans) (r : Flow),
    Runs (handleQuery plainRelay (queryMessage (ascii "SELECT 1"))) tr r ∧
      ∃ rules, ⟨.rewriter, rules⟩ ∈ tr ∧ rules.isSome ∧
        Checked tr plainRelay (ascii "SELECT 2") ∧
        (extractQueryText (queryMessage (ascii "SELECT 1")).payload = ascii "SELECT 2" ↔
          Unrewritten rules (queryMessage (ascii "SELECT 1"))) := by
  let _ := asciiExternal
  refine ⟨asciiExternal, ?_⟩
  obtain ⟨r, tr, h, hc⟩ := Script.run_check (n := 60)
    (s := { Script.simple [] [readyMessage] with rules := some (ascii "SELECT 2") })
    (p := handleQuery plainRelay (queryMessage (ascii "SELECT 1")))
    (f := fun _ tr => decide ((7, queryMessage (ascii "SELECT 1")) ∈ writes tr ∧
      ¬ OwnQuery tr (queryMessage (ascii "SELECT 1")) ∧
      some (ascii "SELECT 2") ∈ rulesSeen tr ∧ (rulesSeen tr).length = 1)) (by decide +kernel)
  obtain ⟨hw, ho, hseen, hone⟩ := of_decide_eq_true hc
  obtain ⟨rules, hrules, hchecked, hiff⟩ := forwarded_checked_iff h hw ho
  have hmem : rules ∈ rulesSeen tr := mem_answers.mpr hrules
  obtain ⟨only, honly⟩ := List.length_eq_one_iff.mp hone
  rw [honly, List.mem_singleton] at hseen hmem
  obtain rfl := hmem.trans hseen.symm
  exact ⟨tr, r, h, _, hrules, rfl, hchecked, hiff⟩

/-- A rule replaces every query by `SELECT 2`: that text is checked, and the message of the client
is forwarded. -/
theorem rewritten_query_not_forwarded : ∃ (_ : External) (tr : Trace Ans) (r : Flow)
    (rules : Option External.Rules),
    Runs (handleQuery plainRelay (queryMessage (ascii "SELECT 1"))) tr r ∧
      (7, queryMessage (ascii "SELECT 1")) ∈ writes tr ∧
      ¬ OwnQuery tr (queryMessage (ascii "SELECT 1")) ∧ ⟨.rewriter, rules⟩ ∈ tr ∧
      extractQueryText (queryMessage (ascii "SELECT 1")).payload ≠
        checkedText rules (queryMessage (ascii "SELECT 1")) := by
  let _ := asciiExternal
  refine ⟨asciiExternal, ?_⟩
  obtain ⟨r, tr, h, hc⟩ := Script.run_check (n := 60)
    (s := { Script.simple [] [readyMessage] with rules := some (ascii "SELECT 2") })
    (p := handleQuery plainRelay (queryMessage (ascii "SELECT 1")))
    (f := fun _ tr => decide ((7, queryMessage (ascii "SELECT 1")) ∈ writes tr ∧
      ¬ OwnQuery tr (queryMessage (ascii "SELECT 1")) ∧
      some (ascii "SELECT 2") ∈ rulesSeen tr)) (by decide +kernel)
  obtain ⟨hw, ho, hr⟩ := of_decide_eq_true hc
  exact ⟨tr, r, some (ascii "SELECT 2"), h, hw, ho, mem_answers.mp hr, by decide⟩

end Pgmux
