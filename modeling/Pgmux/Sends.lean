import Pgmux.CheckedText
import Pgmux.View

namespace Pgmux

open Interaction

section Sends

variable {st : Relay} {H : List Message}

/-- The statement that a message which the relay sends stands for. The messages `H` were buffered
so far; those of the batch end them. -/
inductive Carries (H : List Message) (st : Relay) (m : Message) : Bytes → Prop
  | query : m.type = msgQuery → Carries H st m (extractQueryText m.payload)
  | parse : m.type = msgParse → Carries H st m (parseNameText m.payload).2
  | batch : H = H₀ ++ st.extBuf → st.extBuf = b₁ ++ m :: b₂ →
      (View.empty.after (H₀ ++ b₁)).prepared m = some text ∨
        (View.empty.after (H₀ ++ b₁)).executed m = some text → Carries H st m text

theorem Carries.of_query (h : Carries H st m text) (hm : m.type = msgQuery) :
    text = extractQueryText m.payload := by
  cases h with
  | query => rfl
  | parse ht => exact absurd (hm.symm.trans ht) (by decide)
  | batch _ _ ht =>
    rw [View.prepared_none (by rw [hm]; decide) (by rw [hm]; decide),
      View.executed_none (by rw [hm]; decide)] at ht
    rcases ht with ht | ht <;> cases ht

theorem Carries.of_parse (h : Carries H st m text) (hm : m.type = msgParse) :
    text = (parseNameText m.payload).2 := by
  cases h with
  | query ht => exact absurd (hm.symm.trans ht) (by decide)
  | parse => rfl
  | batch _ _ ht =>
    rcases ht with ht | ht
    · rw [View.prepared, if_pos hm] at ht
      exact (Option.some.inj ht).symm
    · rw [View.executed_none (by rw [hm]; decide)] at ht
      cases ht

theorem Carries.of_other (h : Carries H st m text) (hq : m.type ≠ msgQuery)
    (hp : m.type ≠ msgParse) (hb : m.type ≠ msgBind) (hx : m.type ≠ msgExecute) : False := by
  cases h with
  | query ht => exact hq ht
  | parse ht => exact hp ht
  | batch _ _ ht =>
    rw [View.prepared_none hp hb, View.executed_none hx] at ht
    rcases ht with ht | ht <;> cases ht

theorem describeBatch_carries (hm : m ∈ describeBatch query) (h : Carries H st m text) :
    text = wire query := by
  simp only [describeBatch, List.mem_cons, List.not_mem_nil, or_false] at hm
  rcases hm with rfl | rfl | rfl | rfl
  · rw [h.of_parse rfl, parseNameText_build (by decide)]
  · exact (h.of_other (by decide) (by decide) (by decide) (by decide)).elim
  · exact (h.of_other (by decide) (by decide) (by decide) (by decide)).elim
  · exact (h.of_other (by decide) (by decide) (by decide) (by decide)).elim

theorem Carries.in_batch (h : Carries H st m text) (hm : m ∈ st.extBuf ++ [msg])
    (ht : msg.type = msgSync) : m ∈ st.extBuf := by
  rcases List.mem_append.mp hm with hm | hm
  · exact hm
  · obtain rfl := List.mem_singleton.mp hm
    exact (h.of_other (by rw [ht]; decide) (by rw [ht]; decide) (by rw [ht]; decide)
      (by rw [ht]; decide)).elim

theorem Carries.of_queryMessage (h : Carries H st (queryMessage q) text) : text = wire q := by
  rw [h.of_query rfl, extractQueryText_queryMessage]

variable [External]

theorem synthesized_mem (hy : st.synth = some synth) (hd : st.muxBindDetail = some detail)
    (hq : synth.synthesize detail.statementName detail.parameters detail.formatCodes = some query) :
    query ∈ st.synthesized := by
  simp [Relay.synthesized, hy, hd, hq]

inductive Sends (tr : Trace Ans) (st : Relay) (m : Message) : Prop
  | own : OwnQuery tr m → Sends tr st m
  | query : received tr = some m → m.type = msgQuery → ⟨.rewriter, rules⟩ ∈ tr →
      Checked tr st (checkedText rules m) → Sends tr st m
  | describe : received tr = some msg → msg.type = msgDescribe → st.synth = some synth →
      describeTarget synth msg.payload = .ok stmt → m ∈ describeBatch stmt.query → Sends tr st m
  | batch : received tr = some msg → msg.type = msgSync → st.synth = none →
      Unblocked (· ∈ tr) st → m ∈ st.extBuf ++ [msg] → Sends tr st m
  | synthesized : received tr = some msg → msg.type = msgSync → st.synth = some synth →
      st.muxBindDetail = some detail →
      synth.synthesize detail.statementName detail.parameters detail.formatCodes = some query →
      Unblocked (· ∈ tr) st → m = queryMessage query → Sends tr st m

theorem Step.sends (h : Step (resetsSeen tr) st tr r) (hw : (c, m) ∈ writes tr) :
    Sends tr st m := by
  rw [← writes_conn] at hw
  have hown : OwnQueries (resetsSeen tr) fun _ m => Sends tr st m := ownQueries_of fun _ _ => .own
  suffices hall : Written (fun _ m => Sends tr st m) (conn tr) from hall.of_mem hw
  cases h with
  | idle hc => rw [hc]; exact .nil
  | query hm ht hq =>
    intro c m ok hmem
    have hw : (c, m) ∈ writes (conn tr) := mem_writes.mpr ⟨ok, hmem⟩
    rcases hq.writes_message hw with ho | rfl
    · exact .own ho
    · obtain ⟨rules, hrules, hc⟩ := hq.checked hw
      exact .query hm ht hrules hc
  | parse _ _ hc => rw [hc]; exact .nil
  | bind _ _ hc => rw [hc]; exact .nil
  | close _ _ hc => rw [hc]; exact .nil
  | describe hm ht hy hst hv => exact hv.written hown fun _ m hmem => .describe hm ht hy hst hmem
  | buffered _ _ _ _ _ _ _ hc => rw [hc]; exact .nil
  | sync hm ht hs =>
    refine hs.written hown ?_ ?_ ?_ ?_
    · exact fun synth detail query hy hd hq hu c => .synthesized hm ht hy hd hq hu rfl
    · exact fun hy hu _ _ _ m hmem => .batch hm ht hy hu hmem
    · exact fun hy hu _ _ c m hmem => .batch hm ht hy hu hmem
    · exact fun hy hu _ c _ m hmem => .batch hm ht hy hu hmem

end Sends

end Pgmux
