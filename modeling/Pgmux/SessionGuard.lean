import Pgmux.Script
import Pgmux.Sends

namespace Pgmux

open Interaction

section SessionGuard

variable [External] {st st' : Relay} {rs : List (Relay × Trace Ans)}

def GuardBlocks (tr : Trace Ans) : Prop :=
  ∀ cfg ∈ configsSeen tr, cfg.sessionCompat = true ∧ cfg.compatMode = .block

instance (tr : Trace Ans) : Decidable (GuardBlocks tr) :=
  inferInstanceAs (Decidable (∀ _ ∈ configsSeen tr, _))

/-- A Bind in multiplex mode of a statement that the guard blocks is in the batch that was blocked
for a Parse. -/
def BindsAnew (st : Relay) (tr : Trace Ans) : Prop :=
  ∀ msg ∈ received tr, msg.type = msgBind → ∀ synth ∈ st.synth,
    ∀ detail ∈ parseBindMessageFull msg.payload,
      ∀ stmt ∈ synth.getStatement detail.statementName,
        (detectSessionDependency stmt.query).isSome = true → st.extSessionBlocked.isSome = true

instance (st : Relay) (tr : Trace Ans) : Decidable (BindsAnew st tr) :=
  inferInstanceAs (Decidable (∀ _ ∈ received tr, _))

def ParsesPlain (tr : Trace Ans) : Prop :=
  ∀ msg ∈ received tr, msg.type = msgParse → ∀ rules ∈ rulesSeen tr,
    wire (parsedText rules msg) = parsedText rules msg

instance (tr : Trace Ans) : Decidable (ParsesPlain tr) :=
  inferInstanceAs (Decidable (∀ _ ∈ received tr, _))

structure GuardKept (st : Relay) : Prop where
  parses : st.extSessionBlocked = none → ∀ m ∈ st.extBuf, m.type = msgParse →
    detectSessionDependency (parseNameText m.payload).2 = none
  bound : st.extSessionBlocked = none → ∀ synth detail stmt, st.synth = some synth →
    st.muxBindDetail = some detail → synth.getStatement detail.statementName = some stmt →
    detectSessionDependency stmt.query = none

theorem Registered.undetected (h : Registered (· ∈ tr) st rules msg st') (hb : GuardBlocks tr)
    (hn : st'.extSessionBlocked = none) :
    st.extSessionBlocked = none ∧ detectSessionDependency (parsedText rules msg) = none := by
  obtain ⟨hn₀, cfg, hcfg, hg⟩ := h.unblocked hn
  obtain ⟨hon, hmode⟩ := hb cfg (mem_answers.mpr hcfg)
  refine ⟨hn₀, ?_⟩
  rcases hg with hg | hg
  · simpa [guardCheck, hon] using hg
  · exact (hg hmode).elim

theorem GuardKept.push (h : GuardKept st) (hblk : st'.extSessionBlocked = st.extSessionBlocked)
    (hbuf : st'.extBuf = st.extBuf ++ [m]) (hp : m.type ≠ msgParse) (hy : st'.synth = none) :
    GuardKept st' := by
  constructor
  · intro hn m' hm'
    rw [hbuf] at hm'
    rcases List.mem_append.mp hm' with hm' | hm'
    · exact h.parses (hblk ▸ hn) m' hm'
    · obtain rfl := List.mem_singleton.mp hm'
      exact fun ht => (hp ht).elim
  · intro _ synth _ _ hs
    rw [hy] at hs
    cases hs

theorem Registered.guardKept (h : Registered (· ∈ tr) st rules msg st') (hK : GuardKept st)
    (hb : GuardBlocks tr) (hw : wire (parsedText rules msg) = parsedText rules msg) :
    GuardKept st' := by
  constructor
  · intro hn m hm ht
    obtain ⟨hn₀, hd⟩ := h.undetected hb hn
    rw [h.extBuf] at hm
    split at hm
    · exact hK.parses hn₀ m hm ht
    · rcases List.mem_append.mp hm with hm | hm
      · exact hK.parses hn₀ m hm ht
      · obtain rfl := List.mem_singleton.mp hm
        rw [parsedMessage_text, hw]
        exact hd
  · intro hn synth detail stmt hs hdet hg
    obtain ⟨hn₀, hd⟩ := h.undetected hb hn
    rw [h.synth] at hs
    rw [h.muxBindDetail] at hdet
    obtain ⟨synth₀, h₀, rfl⟩ := Option.map_eq_some_iff.mp hs
    rcases getStatement_registerStatement hg with ⟨-, rfl⟩ | ⟨-, hg⟩
    · exact hd
    · exact hK.bound hn₀ synth₀ detail stmt h₀ hdet hg

theorem BoundTo.guardKept (h : BoundTo st msg name st') (hK : GuardKept st)
    (hm : received tr = some msg) (ht : msg.type = msgBind) (hok : BindsAnew st tr) :
    GuardKept st' := by
  rcases h.mode with ⟨hy, -, hbuf⟩ | ⟨-, hbuf, detail, hfull, hd, -⟩
  · exact hK.push h.blocked hbuf (by rw [ht]; decide) (h.synth.trans hy)
  · constructor
    · rw [h.blocked, hbuf]
      exact hK.parses
    · intro hn synth detail' stmt hs hd' hg
      rw [hd] at hd'
      cases hd'
      rw [h.synth] at hs
      rw [h.blocked] at hn
      cases hdet : detectSessionDependency stmt.query with
      | none => rfl
      | some feature =>
        have := hok msg hm ht synth hs detail hfull stmt hg (by rw [hdet]; rfl)
        simp [hn] at this

omit [External] in
theorem ClosedBy.unbuffered (h : ClosedBy st msg st') (hy : st.synth = none) :
    st'.extBuf = st.extBuf ++ [msg] ∧ st'.synth = none := by
  refine ⟨by simp [h.extBuf, hy], ?_⟩
  rcases h.forgets with ⟨-, hs, -⟩ | ⟨-, -, hs⟩ <;> simp [hs, hy]

theorem ClosedBy.guardKept (h : ClosedBy st msg st') (hK : GuardKept st)
    (ht : msg.type = msgClose) : GuardKept st' := by
  cases hy : st.synth with
  | none =>
    obtain ⟨hbuf, hs⟩ := h.unbuffered hy
    exact hK.push h.blocked hbuf (by rw [ht]; decide) hs
  | some synth =>
    constructor
    · have hbuf : st'.extBuf = st.extBuf := by simp [h.extBuf, hy]
      rw [h.blocked, hbuf]
      exact hK.parses
    · intro hn synth' detail stmt hs hd hg
      obtain ⟨synth₀, h₀, hg₀⟩ := h.known hs hg
      rw [h.blocked] at hn
      rw [h.muxBindDetail] at hd
      exact hK.bound hn synth₀ detail stmt h₀ hd hg₀

theorem Change.guardKept (h : Change tr st st') (hK : GuardKept st) (hb : GuardBlocks tr)
    (hp : ParsesPlain tr) (hok : BindsAnew st tr) : GuardKept st' := by
  cases h with
  | same hs =>
    constructor
    · rw [hs.blocked, hs.extBuf]
      exact hK.parses
    · rw [hs.blocked, hs.synth, hs.muxBindDetail]
      exact hK.bound
  | registered hm ht hrules hr =>
    exact hr.guardKept hK hb (hp _ hm ht _ (mem_answers.mpr hrules))
  | bound hm ht hbound => exact hbound.guardKept hK hm ht hok
  | closed _ ht hc => exact hc.guardKept hK ht
  | buffered hy _ hnp _ he =>
    subst he
    exact hK.push rfl rfl hnp hy
  | ended ho =>
    constructor
    · intro _ m hm
      rw [ho.extBuf] at hm
      cases hm
    · intro _ _ _ _ _ hd
      rw [ho.muxBindDetail] at hd
      cases hd

def GuardSees (st : Relay) (tr : Trace Ans) : Prop := BindsAnew st tr ∧ ParsesPlain tr

instance (st : Relay) (tr : Trace Ans) : Decidable (GuardSees st tr) :=
  inferInstanceAs (Decidable (_ ∧ _))

theorem RelayRun.guardKept (h : RelayRun dbName session multiplex rs t)
    (hb : ∀ r ∈ rs, GuardBlocks r.2) (hok : ∀ r ∈ rs, GuardSees r.1 r.2) (hmem : (st, tr) ∈ rs) :
    (GuardKept st ∧ st.synth.isSome = multiplex) ∧ ∃ r, Runs (relayStep st) tr r := by
  obtain ⟨st', hr, -⟩ := h
  obtain ⟨pre, post, hrs⟩ := List.append_of_mem hmem
  apply hr.at_round (I := fun _ st => GuardKept st ∧ st.synth.isSome = multiplex) _ _ hrs
  · refine ⟨⟨?_, ?_⟩, ?_⟩
    · exact fun _ m hm => nomatch hm
    · exact fun _ _ _ _ _ hd => nomatch hd
    · cases multiplex <;> rfl
  · intro past s t s' hm hI hr
    have hc := (relayStep_step hr (configured_resetsSeen t)).change
    obtain ⟨hanew, hplain⟩ := hok _ hm
    exact ⟨hc.guardKept hI.1 (hb _ hm) hplain hanew, hc.mode.trans hI.2⟩

theorem mem_writes_flat (h : (c, m) ∈ writes (flat rs)) : ∃ r ∈ rs, (c, m) ∈ writes r.2 := by
  obtain ⟨ok, h⟩ := mem_writes.mp h
  obtain ⟨r, hr, he⟩ := mem_flat.mp h
  exact ⟨r, hr, mem_writes.mpr ⟨ok, he⟩⟩

inductive ExecutesText (rs : List (Relay × Trace Ans)) : Bytes → Prop
  | portal : writes (flat rs) = w₁ ++ (c, m) :: w₂ →
      (View.empty.after (w₁.map Prod.snd)).executed m = some text → ExecutesText rs text
  | synthesized {st : Relay} : (st, tr) ∈ rs → st.synth = some synth →
      st.muxBindDetail = some detail → synth.getStatement detail.statementName = some stmt →
      st.synthesized = some query → (c, queryMessage query) ∈ writes tr →
      received tr = some msg → msg.type = msgSync → ¬ OwnQuery tr (queryMessage query) →
      ExecutesText rs stmt.query

theorem Sends.parse_undetected (h : Sends tr st m) (hK : GuardKept st) (hy : st.synth = none)
    (ht : m.type = msgParse) : detectSessionDependency (parseNameText m.payload).2 = none := by
  cases h with
  | own ho =>
    rcases ho with rfl | ⟨cfg, -, rfl⟩
    · exact absurd ht (by decide)
    · exact absurd ht (show msgQuery ≠ msgParse by decide)
  | query _ hq => exact absurd (hq.symm.trans ht) (by decide)
  | describe _ _ hs => simp [hy] at hs
  | batch _ hsync _ hu hmem =>
    rcases List.mem_append.mp hmem with hmem | hmem
    · exact hK.parses hu.1 m hmem ht
    · obtain rfl := List.mem_singleton.mp hmem
      exact absurd (hsync.symm.trans ht) (by decide)
  | synthesized _ _ hs => simp [hy] at hs

theorem Sends.no_execute (h : Sends tr st m) (hy : st.synth.isSome) :
    m.type ≠ msgExecute := by
  cases h with
  | own ho =>
    rcases ho with rfl | ⟨cfg, -, rfl⟩
    · decide
    · exact show msgQuery ≠ msgExecute by decide
  | query _ hq => rw [hq]; decide
  | describe _ _ _ _ hmem =>
    simp only [describeBatch, List.mem_cons, List.not_mem_nil, or_false] at hmem
    rcases hmem with rfl | rfl | rfl | rfl
    · exact show msgParse ≠ msgExecute by decide
    · exact show msgDescribe ≠ msgExecute by decide
    · exact show msgClose ≠ msgExecute by decide
    · exact show msgSync ≠ msgExecute by decide
  | batch _ _ hs => simp [hs] at hy
  | synthesized _ _ _ _ _ _ he =>
    rw [he]
    exact show msgQuery ≠ msgExecute by decide

/-- With the guard in block mode no statement that it detects is executed, when no Bind in multiplex
mode takes up a blocked statement. -/
theorem session_guard_complete (h : RelayRun dbName session multiplex rs t)
    (hb : ∀ r ∈ rs, GuardBlocks r.2) (hok : ∀ r ∈ rs, GuardSees r.1 r.2)
    (hx : ExecutesText rs text) : detectSessionDependency text = none := by
  have hsends : ∀ {st tr c m}, (st, tr) ∈ rs → (c, m) ∈ writes tr →
      (GuardKept st ∧ st.synth.isSome = multiplex) ∧ Sends tr st m := by
    intro st tr c m hmem hw
    obtain ⟨hI, r, hr⟩ := h.guardKept hb hok hmem
    exact ⟨hI, (relayStep_step hr (configured_resetsSeen tr)).sends hw⟩
  cases hx with
  | portal hw ht =>
    rename_i w₁ c m w₂
    have hround : ∀ p ∈ w₁ ++ (c, m) :: w₂, ∃ r ∈ rs, p ∈ writes r.2 := by
      intro p hp
      rw [← hw] at hp
      exact mem_writes_flat hp
    cases multiplex with
    | true =>
      obtain ⟨⟨st, tr⟩, hmem, hm⟩ := hround (c, m) (by simp)
      obtain ⟨⟨-, hy⟩, hs⟩ := hsends hmem hm
      rw [View.executed_none (hs.no_execute hy)] at ht
      cases ht
    | false =>
      have hall : View.All (fun text => detectSessionDependency text = none)
          (View.empty.after (w₁.map Prod.snd)) := by
        apply (View.All.empty _).after
        intro m' hm' ht'
        obtain ⟨⟨c', m'⟩, hp, rfl⟩ := List.mem_map.mp hm'
        obtain ⟨⟨st, tr⟩, hmem, hm⟩ := hround (c', m') (by simp [hp])
        obtain ⟨⟨hK, hy⟩, hs⟩ := hsends hmem hm
        exact hs.parse_undetected hK (by simpa using hy) ht'
      unfold View.executed at ht
      split at ht
      · exact hall.2 _ _ ht
      · cases ht
  | synthesized hmem hy hd hg hq hw hm ht ho =>
    obtain ⟨⟨hK, -⟩, hs⟩ := hsends hmem hw
    cases hs with
    | own h => exact (ho h).elim
    | query hm' ht' =>
      rw [hm] at hm'
      cases hm'
      exact absurd (ht'.symm.trans ht) (by decide)
    | describe hm' ht' =>
      rw [hm] at hm'
      cases hm'
      exact absurd (ht.symm.trans ht') (by decide)
    | batch _ _ hs => simp [hy] at hs
    | synthesized _ _ _ _ _ hu => exact hK.bound hu.1 _ _ _ hy hd hg

end SessionGuard

def guardConfig : Config :=
  { defaultConfig with multiplex := true, sessionCompat := true, compatMode := .block }

theorem session_guard_complete_select : ∃ (_ : External) (rs : List (Relay × Trace Ans)),
    (∀ r ∈ rs, GuardBlocks r.2) ∧ (∀ r ∈ rs, GuardSees r.1 r.2) ∧
      ExecutesText rs (ascii "SELECT 1") ∧ detectSessionDependency (ascii "SELECT 1") = none := by
  let _ := asciiExternal
  refine ⟨asciiExternal, ?_⟩
  obtain ⟨session, rs, t, h, hc⟩ := Script.play_check (n := 60)
    (s := { Script.simple [parseMessage (ascii "s") (ascii "LISTEN a"), syncMessage,
        parseMessage (ascii "s") (ascii "SELECT 1"), bindMessage (ascii "s"), executeMessage,
        syncMessage] [readyMessage] with config := { guardConfig with multiplex := false } })
    (f := fun rs _ => decide (∀ r ∈ rs, GuardBlocks r.2) &&
      decide (∀ r ∈ rs, GuardSees r.1 r.2) &&
      decide (writes (flat rs) = [(7, parseMessage (ascii "s") (ascii "SELECT 1")),
        (7, bindMessage (ascii "s")), (7, executeMessage), (7, syncMessage),
        (7, queryMessage (ascii "DISCARD ALL"))])) (by decide +kernel)
  simp only [Bool.and_eq_true, decide_eq_true_eq] at hc
  obtain ⟨⟨hb, hok⟩, hw⟩ := hc
  have hx : ExecutesText rs (ascii "SELECT 1") :=
    .portal (show writes (flat rs) = [(7, parseMessage (ascii "s") (ascii "SELECT 1")),
      (7, bindMessage (ascii "s"))] ++ (7, executeMessage) :: _ from hw) (by decide +kernel)
  exact ⟨rs, hb, hok, hx, session_guard_complete h hb hok hx⟩

/-- A statement of a blocked batch is executed by a later batch in multiplex mode. -/
theorem blocked_listen_executed : ∃ (_ : External) (dbName : Bytes) (session : Session)
    (rs : List (Relay × Trace Ans)) (t : Trace Ans), RelayRun dbName session true rs t ∧
      (∀ r ∈ rs, GuardBlocks r.2) ∧ ExecutesText rs (ascii "LISTEN a") ∧
      detectSessionDependency (ascii "LISTEN a") = some .listen := by
  let _ := asciiExternal
  refine ⟨asciiExternal, [], ?_⟩
  obtain ⟨session, rs, t, h, hc⟩ := Script.play_check (n := 60)
    (s := { Script.simple [parseMessage (ascii "s") (ascii "LISTEN a"), syncMessage,
        bindMessage (ascii "s"), executeMessage, syncMessage] [readyMessage]
      with config := guardConfig })
    (f := fun rs _ => decide (∀ r ∈ rs, GuardBlocks r.2) && decide (∃ r ∈ rs,
      (∃ synth ∈ r.1.synth, ∃ detail ∈ r.1.muxBindDetail,
        synth.getStatement detail.statementName = some ⟨ascii "LISTEN a", []⟩) ∧
      r.1.synthesized = some (ascii "LISTEN a") ∧
      (7, queryMessage (ascii "LISTEN a")) ∈ writes r.2 ∧
      (∃ msg ∈ received r.2, msg.type = msgSync) ∧
      ¬ OwnQuery r.2 (queryMessage (ascii "LISTEN a")))) (by decide +kernel)
  simp only [Bool.and_eq_true, decide_eq_true_eq] at hc
  obtain ⟨hb, ⟨st, tr⟩, hmem, ⟨synth, hy, detail, hd, hg⟩, hq, hw, ⟨msg, hm, ht⟩, ho⟩ := hc
  exact ⟨session, rs, t, h, hb, .synthesized hmem hy hd hg hq hw hm ht ho, by decide +kernel⟩

end Pgmux
