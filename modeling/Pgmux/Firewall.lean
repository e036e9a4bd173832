import Pgmux.Script
import Pgmux.Sends

namespace Pgmux

open Interaction

section Firewall

variable {st st' : Relay} {H : List Message} {P : Bytes → Prop}

/-- All texts that the relay holds satisfy `P`; the messages `H` were buffered so far. -/
structure Vetted (P : Bytes → Prop) (H : List Message) (st : Relay) : Prop where
  parses : ∀ m ∈ H, m.type = msgParse → P (parseNameText m.payload).2
  buffered : st.extBuf <:+ H
  noQuery : ∀ m ∈ st.extBuf, m.type ≠ msgQuery
  known : ∀ synth n stmt, st.synth = some synth → synth.getStatement n = some stmt →
    P (wire stmt.query)

theorem vetted_init (dbName : Bytes) (session : Session) (multiplex : Bool) :
    Vetted P [] (Relay.init dbName session multiplex) where
  parses _ h := nomatch h
  buffered := ⟨[], rfl⟩
  noQuery _ h := nomatch h
  known synth n stmt hy hs := by
    cases multiplex with
    | false => cases hy
    | true =>
      cases hy
      simp [Synthesizer.getStatement, Synthesizer.empty] at hs

theorem Vetted.push (h : Vetted P H st) (hbuf : st'.extBuf = st.extBuf ++ [m])
    (hq : m.type ≠ msgQuery) (hp : m.type = msgParse → P (parseNameText m.payload).2)
    (hknown : ∀ synth n stmt, st'.synth = some synth → synth.getStatement n = some stmt →
      P (wire stmt.query)) : Vetted P (H ++ pushed st st') st' := by
  rw [pushed_one hbuf]
  obtain ⟨H₀, hH⟩ := h.buffered
  refine ⟨?_, ⟨H₀, by rw [hbuf, ← List.append_assoc, hH]⟩, ?_, hknown⟩
  · intro m' hm'
    rcases List.mem_append.mp hm' with hm' | hm'
    · exact h.parses m' hm'
    · obtain rfl := List.mem_singleton.mp hm'
      exact hp
  · intro m' hm'
    rw [hbuf] at hm'
    rcases List.mem_append.mp hm' with hm' | hm'
    · exact h.noQuery m' hm'
    · obtain rfl := List.mem_singleton.mp hm'
      exact hq

theorem Vetted.keep (h : Vetted P H st) (hbuf : st'.extBuf = st.extBuf ∨ st'.extBuf = [])
    (hknown : ∀ synth n stmt, st'.synth = some synth → synth.getStatement n = some stmt →
      P (wire stmt.query)) : Vetted P (H ++ pushed st st') st' := by
  rcases hbuf with hbuf | hbuf
  · rw [pushed_same hbuf, List.append_nil]
    exact ⟨h.parses, hbuf ▸ h.buffered, hbuf ▸ h.noQuery, hknown⟩
  · rw [pushed_nil hbuf, List.append_nil]
    exact ⟨h.parses, hbuf ▸ List.nil_suffix, by simp [hbuf], hknown⟩

variable [External]

theorem Registered.vetted (h : Registered seen st rules msg st') (hV : Vetted P H st)
    (ht : msg.type = msgParse) (hp : P (wire (parsedText rules msg))) :
    Vetted P (H ++ pushed st st') st' := by
  have hknown : ∀ synth n stmt, st'.synth = some synth → synth.getStatement n = some stmt →
      P (wire stmt.query) := by
    intro synth n stmt hs hg
    rw [h.synth] at hs
    obtain ⟨synth₀, h₀, rfl⟩ := Option.map_eq_some_iff.mp hs
    rcases getStatement_registerStatement hg with ⟨-, rfl⟩ | ⟨-, hg⟩
    · exact hp
    · exact hV.known synth₀ n stmt h₀ hg
  have htype : (parsedMessage rules msg).type = msgParse := parsedMessage_type ht
  cases hy : st.synth with
  | none =>
    have hbuf : st'.extBuf = st.extBuf ++ [parsedMessage rules msg] := by simp [h.extBuf, hy]
    apply hV.push hbuf (by rw [htype]; decide) _ hknown
    intro _
    rw [parsedMessage_text]
    exact hp
  | some synth =>
    apply hV.keep (.inl _) hknown
    simp [h.extBuf, hy]

omit [External] in
theorem ClosedBy.vetted (h : ClosedBy st msg st') (hV : Vetted P H st)
    (ht : msg.type = msgClose) : Vetted P (H ++ pushed st st') st' := by
  have hknown : ∀ synth n stmt, st'.synth = some synth → synth.getStatement n = some stmt →
      P (wire stmt.query) := by
    intro synth n stmt hs hg
    obtain ⟨synth₀, h₀, hg₀⟩ := h.known hs hg
    exact hV.known synth₀ n stmt h₀ hg₀
  cases hy : st.synth with
  | none =>
    apply hV.push _ (by rw [ht]; decide) _ hknown
    · simp [h.extBuf, hy]
    · intro hp
      exact absurd (ht.symm.trans hp) (by decide)
  | some synth =>
    apply hV.keep (.inl _) hknown
    simp [h.extBuf, hy]

theorem Change.vetted (h : Change tr st st') (hV : Vetted P H st)
    (hok : ∀ msg rules, received tr = some msg → msg.type = msgParse →
      ⟨.rewriter, rules⟩ ∈ tr → P (wire (parsedText rules msg))) :
    Vetted P (H ++ pushed st st') st' := by
  cases h with
  | same hs =>
    apply hV.keep (.inl hs.extBuf)
    rw [hs.synth]
    exact hV.known
  | registered hm ht hrules hr => exact hr.vetted hV ht (hok _ _ hm ht hrules)
  | bound _ ht hb =>
    have hknown := hV.known
    rw [← hb.synth] at hknown
    rcases hb.mode with ⟨-, -, hbuf⟩ | ⟨-, hbuf, -⟩
    · apply hV.push hbuf (by rw [ht]; decide) _ hknown
      intro hp
      exact absurd (ht.symm.trans hp) (by decide)
    · exact hV.keep (.inl hbuf) hknown
  | closed _ ht hc => exact hc.vetted hV ht
  | buffered hy hq hp _ he =>
    subst he
    exact hV.push rfl hq (fun h => (hp h).elim) hV.known
  | ended ho =>
    apply hV.keep (.inr ho.extBuf)
    rw [ho.synth]
    exact hV.known

omit [External] in
theorem Vetted.carries (hV : Vetted P H st)
    (hq : m.type = msgQuery → P (extractQueryText m.payload))
    (hp : m.type = msgParse → P (parseNameText m.payload).2) (h : Carries H st m text) :
    P text := by
  cases h with
  | query ht => exact hq ht
  | parse ht => exact hp ht
  | batch hH hbuf ht =>
    rename_i H₀ b₁ b₂
    have hall : View.All P (View.empty.after (H₀ ++ b₁)) := by
      apply (View.All.empty P).after
      intro m' hm'
      apply hV.parses m'
      rw [hH, hbuf]
      rcases List.mem_append.mp hm' with hm' | hm' <;> simp [hm']
    rcases ht with ht | ht
    · unfold View.prepared at ht
      split at ht
      · rename_i hparse
        cases ht
        exact hp hparse
      split at ht
      · exact hall.1 _ _ ht
      · cases ht
    · unfold View.executed at ht
      split at ht
      · exact hall.2 _ _ ht
      · cases ht

def blocks (fw : FirewallConfig) (text : Bytes) : Bool := (checkFirewall text fw).isSome

def QueryScreened (fw : FirewallConfig) (tr : Trace Ans) : Prop :=
  ∀ msg ∈ received tr, msg.type = msgQuery → blocks fw (extractQueryText msg.payload) = true →
    ∀ rules ∈ rulesSeen tr, blocks fw (checkedText rules msg) = true

instance (fw : FirewallConfig) (tr : Trace Ans) : Decidable (QueryScreened fw tr) :=
  inferInstanceAs (Decidable (∀ _ ∈ received tr, _))

def ParseScreened (fw : FirewallConfig) (tr : Trace Ans) : Prop :=
  ∀ msg ∈ received tr, msg.type = msgParse → ∀ rules ∈ rulesSeen tr,
    blocks fw (wire (parsedText rules msg)) = false

instance (fw : FirewallConfig) (tr : Trace Ans) : Decidable (ParseScreened fw tr) :=
  inferInstanceAs (Decidable (∀ _ ∈ received tr, _))

def SynthScreened (fw : FirewallConfig) (st : Relay) : Prop :=
  ∀ synth ∈ st.synth, ∀ detail ∈ st.muxBindDetail,
    ∀ stmt ∈ synth.getStatement detail.statementName, ∀ query ∈ st.synthesized,
      blocks fw (wire query) = true → blocks fw (wire stmt.query) = true

instance (fw : FirewallConfig) (st : Relay) : Decidable (SynthScreened fw st) :=
  inferInstanceAs (Decidable (∀ _ ∈ st.synth, _))

def Screened (fw : FirewallConfig) (st : Relay) (tr : Trace Ans) : Prop :=
  QueryScreened fw tr ∧ ParseScreened fw tr ∧ SynthScreened fw st

instance (fw : FirewallConfig) (st : Relay) (tr : Trace Ans) : Decidable (Screened fw st tr) :=
  inferInstanceAs (Decidable (_ ∧ _ ∧ _))

def FirewallSet (fw : FirewallConfig) (tr : Trace Ans) : Prop :=
  ∀ cfg ∈ configsSeen tr, cfg.firewall = fw

instance (fw : FirewallConfig) (tr : Trace Ans) : Decidable (FirewallSet fw tr) :=
  inferInstanceAs (Decidable (∀ _ ∈ configsSeen tr, _))

theorem Passed.unblocked (h : Passed (· ∈ tr) st text st₁) (hfw : FirewallSet fw tr) :
    blocks fw text = false := by
  obtain ⟨cfg, pq, hcfg, hpq, hf, -⟩ := h
  have hset := hfw cfg (mem_answers.mpr hcfg)
  unfold firewallCheck at hf
  rw [hset] at hf
  cases pq with
  | none => simpa [blocks] using hf
  | some tree =>
    have hparse := hpq tree rfl
    simpa [blocks, checkFirewall, checkFirewallWithTree, hparse] using hf

theorem Sends.screened (h : Sends tr st m) (ho : ¬ OwnQuery tr m)
    (hV : Vetted (fun text => blocks fw text = false) H st) (hfw : FirewallSet fw tr)
    (hok : Screened fw st tr) (hc : Carries H st m text) : blocks fw text = false := by
  obtain ⟨hquery, -, hsynth⟩ := hok
  cases h with
  | own h => exact (ho h).elim
  | query hm ht hrules hch =>
    obtain ⟨st₁, now, hp, -⟩ := hch
    have hpass := hp.unblocked hfw
    rw [hc.of_query ht]
    by_contra hne
    have := hquery _ hm ht (by simpa using hne) _ (mem_answers.mpr hrules)
    simp [hpass] at this
  | describe _ _ hy hst hmem =>
    obtain ⟨n, hg⟩ := describeTarget_known hst
    rw [describeBatch_carries hmem hc]
    exact hV.known _ n _ hy hg
  | batch _ ht _ _ hmem =>
    have hbuf := hc.in_batch hmem ht
    apply hV.carries _ _ hc
    · exact fun hq => (hV.noQuery m hbuf hq).elim
    · exact hV.parses m (hV.buffered.subset hbuf)
  | synthesized _ _ hy hd hq _ he =>
    subst he
    obtain ⟨stmt, hstmt⟩ := synthesize_statement hq
    have hmem := synthesized_mem hy hd hq
    rw [hc.of_queryMessage]
    by_contra hne
    have := hsynth _ hy _ hd stmt hstmt _ hmem (by simpa using hne)
    simp [hV.known _ _ stmt hy hstmt] at this

theorem RelayRun.vetted (h : RelayRun dbName session multiplex rs t)
    (hok : ∀ r ∈ rs, Screened fw r.1 r.2) (hrs : rs = pre ++ (st, tr) :: post) :
    Vetted (fun text => blocks fw text = false) (told (pre.map Prod.fst ++ [st])) st ∧
      ∃ r, Runs (relayStep st) tr r := by
  obtain ⟨st', hr, -⟩ := h
  apply hr.at_round (I := fun past st =>
    Vetted (fun text => blocks fw text = false) (told (past ++ [st])) st) _ _ hrs
  · exact vetted_init dbName session multiplex
  · intro past s t s' hm hV hr
    have hs := (relayStep_step hr (configured_resetsSeen t)).change
    have hparse := (hok _ hm).2.1
    have hV' := hs.vetted hV fun msg rules hm ht hrules =>
      hparse msg hm ht rules (mem_answers.mpr hrules)
    simpa [told_append] using hV'

inductive ForwardedBehind (fw : FirewallConfig) (ok : Relay → Trace Ans → Prop) : Bytes → Prop
  | sent {st : Relay} : RelayRun dbName session multiplex rs t → (∀ r ∈ rs, ok r.1 r.2) →
      rs = pre ++ (st, tr) :: post → FirewallSet fw tr → (c, m) ∈ writes tr → ¬ OwnQuery tr m →
      Carries (told (pre.map Prod.fst ++ [st])) st m text → ForwardedBehind fw ok text
  | synthesized {st : Relay} : RelayRun dbName session multiplex rs t → (∀ r ∈ rs, ok r.1 r.2) →
      (st, tr) ∈ rs → FirewallSet fw tr → st.synth = some synth → st.muxBindDetail = some detail →
      synth.getStatement detail.statementName = some stmt → st.synthesized = some query →
      (c, queryMessage query) ∈ writes tr → ForwardedBehind fw ok (wire stmt.query)

/-- What the firewall blocks is not forwarded, when the checked texts show it. -/
theorem firewall_covers (h : ForwardedBehind fw (Screened fw) text) : blocks fw text = false := by
  cases h with
  | sent hrun hok hrs hfw hw ho hcar =>
    have hround := hok _ (hrs ▸ List.mem_append_right _ (.head _))
    obtain ⟨hV, r, hr⟩ := hrun.vetted hok hrs
    have hs := (relayStep_step hr (configured_resetsSeen _)).sends hw
    exact hs.screened ho hV hfw hround hcar
  | synthesized hrun hok hmem _ hy _ hg _ _ =>
    obtain ⟨pre, post, hrs⟩ := List.append_of_mem hmem
    obtain ⟨hV, -⟩ := hrun.vetted hok hrs
    exact hV.known _ _ _ hy hg

end Firewall

@[reducible] def dropExternal : External :=
  { asciiExternal with
    parse := fun query => if query = ascii "DROP TABLE t" then some () else none
    checkFirewallTree := fun _ fw =>
      if fw.blockDropTable then some (ascii "DROP statement is blocked by firewall") else none }

def fullFirewall : FirewallConfig := ⟨true, true, true, true, true⟩

def firewallConfig : Config := { defaultConfig with firewall := fullFirewall }

theorem firewall_covers_select : ∃ _ : External,
    blocks fullFirewall (ascii "DROP TABLE t") = true ∧
      ForwardedBehind fullFirewall (Screened fullFirewall) (ascii "SELECT 1") ∧
      blocks fullFirewall (ascii "SELECT 1") = false := by
  let _ := dropExternal
  refine ⟨dropExternal, by decide +kernel, ?_⟩
  obtain ⟨session, rs, t, h, hc⟩ := Script.play_check (n := 60)
    (s := { Script.simple [queryMessage (ascii "DROP TABLE t"),
        parseMessage (ascii "s") (ascii "SELECT 1"), bindMessage (ascii "s"), executeMessage,
        syncMessage] [readyMessage] with config := firewallConfig })
    (f := fun rs _ => decide (∀ r ∈ rs, Screened fullFirewall r.1 r.2) && decide (∃ r ∈ rs,
      FirewallSet fullFirewall r.2 ∧
        (7, parseMessage (ascii "s") (ascii "SELECT 1")) ∈ writes r.2 ∧
        ¬ OwnQuery r.2 (parseMessage (ascii "s") (ascii "SELECT 1")))) (by decide +kernel)
  simp only [Bool.and_eq_true, decide_eq_true_eq] at hc
  obtain ⟨hok, ⟨st, tr⟩, hmem, hfw, hw, ho⟩ := hc
  obtain ⟨pre, post, hrs⟩ := List.append_of_mem hmem
  have hcar : Carries (told (pre.map Prod.fst ++ [st])) st
      (parseMessage (ascii "s") (ascii "SELECT 1")) _ := .parse rfl
  rw [show (parseNameText (parseMessage (ascii "s") (ascii "SELECT 1")).payload).2 =
    ascii "SELECT 1" by decide +kernel] at hcar
  have hf : ForwardedBehind fullFirewall (Screened fullFirewall) (ascii "SELECT 1") :=
    .sent h hok hrs hfw hw ho hcar
  exact ⟨hf, firewall_covers hf⟩

/-- A blocked statement is forwarded as a Parse. -/
theorem parsed_drop_forwarded : ∃ _ : External,
    blocks fullFirewall (ascii "DROP TABLE t") = true ∧
      ForwardedBehind fullFirewall (fun _ _ => True) (ascii "DROP TABLE t") := by
  let _ := dropExternal
  refine ⟨dropExternal, by decide +kernel, ?_⟩
  obtain ⟨session, rs, t, h, hc⟩ := Script.play_check (n := 60)
    (s := { Script.simple [parseMessage [] (ascii "DROP TABLE t"), bindMessage [],
        executeMessage, syncMessage] [readyMessage] with config := firewallConfig })
    (f := fun rs _ => decide (∃ r ∈ rs, FirewallSet fullFirewall r.2 ∧
        (7, parseMessage [] (ascii "DROP TABLE t")) ∈ writes r.2 ∧
        ¬ OwnQuery r.2 (parseMessage [] (ascii "DROP TABLE t")))) (by decide +kernel)
  obtain ⟨⟨st, tr⟩, hmem, hfw, hw, ho⟩ := of_decide_eq_true hc
  obtain ⟨pre, post, hrs⟩ := List.append_of_mem hmem
  have hcar : Carries (told (pre.map Prod.fst ++ [st])) st
      (parseMessage [] (ascii "DROP TABLE t")) _ := .parse rfl
  rw [show (parseNameText (parseMessage [] (ascii "DROP TABLE t")).payload).2 =
    ascii "DROP TABLE t" by decide +kernel] at hcar
  exact .sent h (fun _ _ => trivial) hrs hfw hw ho hcar

end Pgmux
