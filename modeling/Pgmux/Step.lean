import Pgmux.BatchPath

namespace Pgmux

open Interaction

section Step

variable [External]

def checkedText (rules : Option External.Rules) (msg : Message) : Bytes :=
  let original := extractQueryText msg.payload
  (rules.bind fun rules => External.applyRules rules original).getD original

def Guarded (st st₁ : Relay) : Prop := st₁ = st ∨ ∃ feature, st₁ = st.pin feature

omit [External] in
theorem Guarded.astParser (h : Guarded st st₁) :
    st₁.session.astParser = st.session.astParser := by
  rcases h with rfl | ⟨feature, rfl⟩
  · rfl
  · simp only [Relay.pin, Session.pin]
    split <;> rfl

/-- The text passes the firewall and the session guard, which may pin the session. A parse tree
that they use is the one of the text. -/
def Passed (seen : Event → Prop) (st : Relay) (text : Bytes) (st₁ : Relay) : Prop :=
  ∃ (cfg : Config) (pq : Option PgQuery.Tree), seen ⟨.config, cfg⟩ ∧
    (∀ tree, pq = some tree → PgQuery.parse text = some tree) ∧
    firewallCheck cfg text pq = none ∧
    match guardCheck cfg text pq, cfg.compatMode with
    | some _, .block => False
    | some feature, .pin => st₁ = st.pin feature
    | _, _ => st₁ = st

theorem Passed.guarded (h : Passed seen st text st₁) : Guarded st st₁ := by
  obtain ⟨cfg, pq, -, -, -, h⟩ := h
  split at h
  · exact h.elim
  · exact .inr ⟨_, h⟩
  · exact .inl h

theorem Passed.mono (h : Passed seen st text st₁) (hs : ∀ e, seen e → seen' e) :
    Passed seen' st text st₁ := by
  obtain ⟨cfg, pq, hc, h⟩ := h
  exact ⟨cfg, pq, hs _ hc, h⟩

def CacheLookup (seen : Event → Prop) (st : Relay) (text : Bytes) : Prop :=
  ∃ pq t data, (∀ tree, pq = some tree → PgQuery.parse text = some tree) ∧
    Runs (lookupRead text pq st.dbName) t data ∧ ∀ e ∈ t, seen e

theorem CacheLookup.mono (h : CacheLookup seen st text) (hs : ∀ e, seen e → seen' e) :
    CacheLookup seen' st text := by
  obtain ⟨pq, t, data, hpq, hr, ht⟩ := h
  exact ⟨pq, t, data, hpq, hr, fun e he => hs e (ht e he)⟩

inductive QueryStep (R : Bytes → Prop) (seen : Event → Prop) (st : Relay) (msg : Message) :
    Trace Ans → Flow → Prop
  | blocked : QueryStep R seen st msg [] (.inl st)
  | readOnly : seen ⟨.rewriter, rules⟩ → seen ⟨.now, now⟩ →
      Passed seen st (checkedText rules msg) st₁ →
      seen ⟨.inReadOnly, true⟩ →
      QueryStep R seen st msg [] (.inl (st₁.routed now (checkedText rules msg)))
  | write : seen ⟨.rewriter, rules⟩ → seen ⟨.now, now⟩ →
      Passed seen st (checkedText rules msg) st₁ →
      seen ⟨.config, cfg⟩ → seen ⟨.inReadOnly, b⟩ →
      (b = true → classifyBy cfg.astParser (checkedText rules msg) = .read) →
      (st₁.session.routeQueryLocked now (checkedText rules msg)).1 = .writer →
      WriterPath R (classifyBy cfg.astParser (checkedText rules msg) = .write ∧
          Panics seen (checkedText rules msg)) (st₁.routed now (checkedText rules msg)) [msg]
        (fun st c acquired p => finishQuery st (checkedText rules msg) c acquired p
          st₁.session.inTransaction
          (st₁.session.routeQueryLocked now (checkedText rules msg)).2.inTransaction) t r →
      QueryStep R seen st msg t r
  | read : seen ⟨.rewriter, rules⟩ → seen ⟨.now, now⟩ → Passed seen st (checkedText rules msg) st₁ →
      (st₁.session.routeQueryLocked now (checkedText rules msg)).1 = .reader →
      CacheLookup seen st₁ (checkedText rules msg) → Visits R false [msg] t →
      QueryStep R seen st msg t (proceed ok (st₁.routed now (checkedText rules msg)))

theorem classifyQueryParsed_type (h : Runs (classifyQueryParsed query pq) tr x)
    (hpq : ∀ tree, pq = some tree → PgQuery.parse query = some tree) :
    ∃ cfg : Config, ⟨.config, cfg⟩ ∈ tr ∧ x = classifyBy cfg.astParser query := by
  unfold classifyQueryParsed at h
  rw [runs_perform_bind] at h
  obtain ⟨cfg, t, h, rfl⟩ := h
  split at h
  · rename_i tree hast
    obtain ⟨rfl, rfl⟩ := runs_pure.mp h
    refine ⟨cfg, by simp, ?_⟩
    simp [classifyBy, hast, classifyAST, classifyASTWithTree, hpq _ rfl]
  · unfold classifyQuery at h
    rw [runs_perform_bind] at h
    obtain ⟨cfg', t, h, rfl⟩ := h
    obtain ⟨rfl, rfl⟩ := runs_pure.mp h
    exact ⟨cfg', by simp, rfl⟩

inductive AfterRouting (st : Relay) (msg : Message) (query : Bytes) (pq : Option PgQuery.Tree)
    (cfg : Config) (now : Nat) (qtype : QueryType) (b : Bool) (t : Trace Ans) (r : Flow) : Prop
  | rejected : b = true → qtype = .write → Runs (reject readOnlyText) t () →
      r = .inl (st.routed now query) → AfterRouting st msg query pq cfg now qtype b t r
  | write : (b = true → qtype = .read) → (st.session.routeQueryLocked now query).1 = .writer →
      Runs (writeQuery (st.routed now query) msg query pq qtype cfg st.session.inTransaction
        (st.session.routeQueryLocked now query).2.inTransaction) t r →
      AfterRouting st msg query pq cfg now qtype b t r
  | read : (st.session.routeQueryLocked now query).1 = .reader →
      Runs (handleReadQueryTraced msg query (st.routed now query).session pq cfg st.dbName) t ok →
      r = proceed ok (st.routed now query) → AfterRouting st msg query pq cfg now qtype b t r

theorem routeQuery_cases (h : Runs (routeQuery st msg query pq cfg) tr r) :
    ∃ now t₁ qtype b t, tr = ⟨.now, now⟩ :: (t₁ ++ ⟨.inReadOnly, b⟩ :: t) ∧
      Runs (routedType (st.session.routeQueryLocked now query).1 query pq) t₁ qtype ∧
      AfterRouting st msg query pq cfg now qtype b t r := by
  unfold routeQuery at h
  rw [runs_perform_bind] at h
  obtain ⟨now, t, h, rfl⟩ := h
  simp only [Session.routeWithTxState] at h
  rw [runs_bind] at h
  obtain ⟨t₁, qtype, t₂, h₁, h, rfl⟩ := h
  rw [runs_perform_bind] at h
  obtain ⟨b, t₃, h, rfl⟩ := h
  refine ⟨now, t₁, qtype, b, t₃, rfl, h₁, ?_⟩
  split at h
  · rename_i hw
    simp only [Bool.and_eq_true, decide_eq_true_eq] at hw
    obtain ⟨_, h₄, rfl⟩ := h.of_map
    exact .rejected hw.1 hw.2 h₄ rfl
  · rename_i hw
    cases hroute : (st.session.routeQueryLocked now query).1 with
    | writer =>
      rw [hroute] at h
      refine .write ?_ hroute h
      rintro rfl
      cases qtype with
      | read => rfl
      | write => simp at hw
    | reader =>
      rw [hroute] at h
      obtain ⟨ok, h₄, rfl⟩ := h.of_map
      exact .read hroute h₄ rfl

theorem routeQuery_step (hg : Passed seen st (checkedText rules msg) st₁)
    (hrules : seen ⟨.rewriter, rules⟩)
    (hpq : ∀ tree, pq = some tree → PgQuery.parse (checkedText rules msg) = some tree)
    (h : Runs (routeQuery st₁ msg (checkedText rules msg) pq cfg) tr r) (hR : Configured R tr)
    (hseen : ∀ e ∈ tr, seen e) : QueryStep R seen st msg (conn tr) r := by
  obtain ⟨now, t₁, qtype, b, t, rfl, h₁, h⟩ := routeQuery_cases h
  have hro : seen ⟨.inReadOnly, b⟩ := hseen _ (by simp)
  have hnow : seen ⟨.now, now⟩ := hseen _ (by simp)
  have hq : conn t₁ = [] := (routedType_foot.quiet rfl).conn h₁
  have ht : conn (⟨.now, now⟩ :: (t₁ ++ ⟨.inReadOnly, b⟩ :: t)) = conn t := by
    simp [conn_cons, Op.onConn, hq]
  have hR' : Configured R t := fun cfg hc => hR cfg (by simp [hc])
  rw [ht]
  cases h with
  | rejected hb _ hr he =>
    rw [(reject_foot.quiet rfl).conn hr, he]
    exact .readOnly hrules hnow hg (hb ▸ hro)
  | write hb hroute hw =>
    rw [hroute] at h₁
    obtain ⟨cfg', hcfg, rfl⟩ := classifyQueryParsed_type h₁ hpq
    exact .write hrules hnow hg (hseen _ (by simp [hcfg])) hro hb hroute
      ((writeQuery_path hw hpq hR').mono fun hp =>
        ⟨hp.1, hp.2.mono fun e he => hseen e (by simp [he])⟩)
  | read hroute hr he =>
    have hlook : CacheLookup seen st₁ (checkedText rules msg) := by
      have hr' := hr
      obtain ⟨t₅, data, t₆, rfl, h₅, -⟩ := hr'.of_seq
      exact ⟨pq, t₅, data, hpq, h₅, fun e he => hseen e (by simp [he])⟩
    rw [he]
    exact .read hrules hnow hg hroute hlook (handleReadQueryTraced_visits hr hR')

theorem rewriteQuery_conn (h : Runs (rewriteQuery query) tr x) :
    ∃ rules, tr = [⟨.rewriter, rules⟩] ∧
      x = rules.bind fun rules => External.applyRules rules query := by
  unfold rewriteQuery at h
  rw [runs_perform_bind] at h
  obtain ⟨rules, t, h, rfl⟩ := h
  cases rules with
  | none =>
    obtain ⟨rfl, rfl⟩ := runs_pure.mp h
    exact ⟨none, rfl, rfl⟩
  | some rules =>
    obtain ⟨rfl, rfl⟩ := runs_pure.mp h
    exact ⟨some rules, rfl, rfl⟩

theorem preParse_tree (h : preParse cfg (rules.bind fun rules =>
      External.applyRules rules (extractQueryText msg.payload)) (extractQueryText msg.payload) =
        some tree) : PgQuery.parse (checkedText rules msg) = some tree := by
  unfold preParse at h
  split at h
  · rename_i hn
    simp only [Bool.and_eq_true, Option.isNone_iff_eq_none] at hn
    simpa [checkedText, hn.2] using h
  · cases h

def sharedTree (cfg : Config) (rules : Option External.Rules) (msg : Message) :
    Option PgQuery.Tree :=
  let original := extractQueryText msg.payload
  preParse cfg (rules.bind fun rules => External.applyRules rules original) original

def Relay.guardedQuery (st : Relay) (cfg : Config) (text : Bytes) (pq : Option PgQuery.Tree) :
    Relay :=
  match guardCheck cfg text pq, cfg.compatMode with
  | some feature, .pin => st.pin feature
  | _, _ => st

/-- The firewall or the session guard answers the text. -/
def screenText (cfg : Config) (text : Bytes) (pq : Option PgQuery.Tree) : Option Bytes :=
  match firewallCheck cfg text pq with
  | some error => some error
  | none =>
    match guardCheck cfg text pq, cfg.compatMode with
    | some feature, .block => some (blockedText feature)
    | _, _ => none

theorem handleQuery_cases (h : Runs (handleQuery st msg) tr r) : ∃ cfg rules t,
    tr = [⟨.config, cfg⟩, ⟨.rewriter, rules⟩] ++ t ∧
    match screenText cfg (checkedText rules msg) (sharedTree cfg rules msg) with
    | some error => Runs (reject error) t () ∧ r = .inl st
    | none =>
      Runs (routeQuery (st.guardedQuery cfg (checkedText rules msg) (sharedTree cfg rules msg)) msg
        (checkedText rules msg) (sharedTree cfg rules msg) cfg) t r := by
  unfold handleQuery at h
  dsimp only at h
  rw [runs_perform_bind] at h
  obtain ⟨cfg, t, h, rfl⟩ := h
  rw [runs_bind] at h
  obtain ⟨t₁, rewritten, t₂, h₁, h, rfl⟩ := h
  obtain ⟨rules, rfl, rfl⟩ := rewriteQuery_conn h₁
  refine ⟨cfg, rules, t₂, rfl, ?_⟩
  rw [show (rules.bind fun rules => External.applyRules rules
    (extractQueryText msg.payload)).getD (extractQueryText msg.payload) =
      checkedText rules msg from rfl] at h
  rw [show preParse cfg (rules.bind fun rules => External.applyRules rules
    (extractQueryText msg.payload)) (extractQueryText msg.payload) =
      sharedTree cfg rules msg from rfl] at h
  unfold screenText Relay.guardedQuery
  cases hf : firewallCheck cfg (checkedText rules msg) (sharedTree cfg rules msg) with
  | some error =>
    simp only [hf] at h
    obtain ⟨_, h₃, rfl⟩ := h.of_map
    exact ⟨h₃, rfl⟩
  | none =>
    simp only [hf] at h
    cases hg : guardCheck cfg (checkedText rules msg) (sharedTree cfg rules msg) with
    | none =>
      simp only [hg] at h
      exact h
    | some feature =>
      cases hm : cfg.compatMode with
      | block =>
        simp only [hg, hm] at h
        obtain ⟨_, h₃, rfl⟩ := h.of_map
        exact ⟨h₃, rfl⟩
      | pin =>
        simp only [hg, hm] at h
        exact h
      | warn =>
        simp only [hg, hm] at h
        exact h
      | allow =>
        simp only [hg, hm] at h
        exact h

theorem handleQuery_routed (h : Runs (handleQuery st msg) tr r) :
    (IdleTrace tr ∧ r = .inl st) ∨ ∃ cfg rules pq st₁ t,
      tr = [⟨.config, cfg⟩, ⟨.rewriter, rules⟩] ++ t ∧
      (∀ tree, pq = some tree → PgQuery.parse (checkedText rules msg) = some tree) ∧
      Passed (· ∈ ([⟨.config, cfg⟩, ⟨.rewriter, rules⟩] : Trace Ans)) st (checkedText rules msg)
        st₁ ∧
      Runs (routeQuery st₁ msg (checkedText rules msg) pq cfg) t r := by
  obtain ⟨cfg, rules, t, rfl, hc⟩ := handleQuery_cases h
  have hpre : IdleTrace [⟨.config, cfg⟩, ⟨.rewriter, rules⟩] :=
    .cons ⟨rfl, rfl⟩ (.cons ⟨rfl, rfl⟩ .nil)
  cases hs : screenText cfg (checkedText rules msg) (sharedTree cfg rules msg) with
  | some error =>
    rw [hs] at hc
    exact .inl ⟨hpre.append ((reject_foot.idle rfl).trace hc.1), hc.2⟩
  | none =>
    rw [hs] at hc
    have hparse : ∀ tree, sharedTree cfg rules msg = some tree →
        PgQuery.parse (checkedText rules msg) = some tree := fun tree ht => preParse_tree ht
    refine .inr ⟨cfg, rules, _, _, t, rfl, hparse, ⟨cfg, _, by simp, hparse, ?_, ?_⟩, hc⟩
    · unfold screenText at hs
      split at hs
      · cases hs
      · assumption
    · unfold screenText at hs
      unfold Relay.guardedQuery
      split at hs
      · cases hs
      · cases hg : guardCheck cfg (checkedText rules msg) (sharedTree cfg rules msg) with
        | none => rfl
        | some feature =>
          cases hm : cfg.compatMode with
          | block => simp [hg, hm] at hs
          | pin => rfl
          | warn => rfl
          | allow => rfl

theorem handleQuery_step (h : Runs (handleQuery st msg) tr r) (hR : Configured R tr) :
    QueryStep R (· ∈ tr) st msg (conn tr) r := by
  rcases handleQuery_routed h with ⟨hi, rfl⟩ | ⟨cfg, rules, pq, st₁, t, rfl, hparse, hp, h⟩
  · rw [hi.conn]
    exact .blocked
  · have hin : ∀ e ∈ t, e ∈ ([⟨.config, cfg⟩, ⟨.rewriter, rules⟩] ++ t : Trace Ans) :=
      fun e he => List.mem_append_right _ he
    change QueryStep R _ st msg (conn t) r
    exact routeQuery_step (hp.mono fun e he => List.mem_append_left _ he) (by simp) hparse h
      hR.right hin

def parsedText (rules : Option External.Rules) (msg : Message) : Bytes :=
  let original := (parseNameText msg.payload).2
  (rules.bind fun rules => External.applyRules rules original).getD original

def parsedMessage (rules : Option External.Rules) (msg : Message) : Message :=
  forwardedParse
    (rules.bind fun rules => External.applyRules rules (parseNameText msg.payload).2) msg

def GuardedParse (st st₁ : Relay) : Prop :=
  st₁ = st ∨ (∃ feature, st₁ = { st with extSessionBlocked := some feature }) ∨
    ∃ feature, st₁ = st.pin feature

def ParseGuarded (seen : Event → Prop) (st : Relay) (text : Bytes) (st₁ : Relay) : Prop :=
  (st.extSessionBlocked.isSome = true ∧ st₁ = st) ∨
    (st.extSessionBlocked = none ∧ ∃ cfg : Config, seen ⟨.config, cfg⟩ ∧ st₁ = st.guarded cfg text)

theorem guardParse_guarded (h : Runs (guardParse st query) tr st₁) :
    ParseGuarded (· ∈ tr) st query st₁ := by
  unfold guardParse at h
  split at h
  · rename_i hb
    obtain ⟨rfl, rfl⟩ := runs_pure.mp h
    exact .inl ⟨hb, rfl⟩
  · rename_i hb
    rw [runs_perform_bind] at h
    obtain ⟨cfg, t, h, rfl⟩ := h
    obtain ⟨rfl, rfl⟩ := runs_pure.mp h
    exact .inr ⟨by simpa using hb, cfg, by simp, rfl⟩

theorem ParseGuarded.guarded (h : ParseGuarded seen st text st₁) : GuardedParse st st₁ := by
  rcases h with ⟨-, rfl⟩ | ⟨-, cfg, -, rfl⟩
  · exact .inl rfl
  · unfold Relay.guarded
    split
    · exact .inr (.inl ⟨_, rfl⟩)
    · exact .inr (.inr ⟨_, rfl⟩)
    · exact .inl rfl

theorem ParseGuarded.mono (h : ParseGuarded seen st text st₁) (hs : ∀ e, seen e → seen' e) :
    ParseGuarded seen' st text st₁ := by
  rcases h with h | ⟨hn, cfg, hc, h⟩
  · exact .inl h
  · exact .inr ⟨hn, cfg, hs _ hc, h⟩

def Relay.registered (st : Relay) (rules : Option External.Rules) (now : Nat) (ast : Bool)
    (msg : Message) : Relay :=
  let st₁ := st.register now (parseNameText msg.payload).1 (parsedText rules msg)
    (parseParseMessageFull msg.payload).paramOIDs
  { st₁ with extIsWrite := st.extIsWrite || classifyBy ast (parsedText rules msg) = .write }

def Relay.registeredRoute (st : Relay) (rules : Option External.Rules) (now : Nat)
    (msg : Message) : Route :=
  (st.session.registerStatement now (parseNameText msg.payload).1 (parsedText rules msg)).1

/-- In proxy mode the messages of a batch wait for the Sync; multiplex mode has no buffer. -/
def Relay.buffer (st : Relay) (msg : Message) : Relay :=
  if st.synth.isSome then st else { st with extBuf := st.extBuf ++ [msg] }

def Noted (st st' : Relay) (r : Flow) : Prop :=
  ∃ ok, (st.synth = none → ok = true) ∧ r = proceed ok st'

def ParseStep (seen : Event → Prop) (st : Relay) (msg : Message) (rules : Option External.Rules)
    (now : Nat) (r : Flow) : Prop :=
  ∃ (cfg : Config) (st₁ : Relay), seen ⟨.config, cfg⟩ ∧
    ParseGuarded seen (st.registered rules now cfg.astParser msg) (parsedText rules msg) st₁ ∧
    Noted st (Relay.buffer { st₁ with
      extRoute := st₁.parseRoute (st.registeredRoute rules now msg) } (parsedMessage rules msg)) r

omit [External] in
theorem GuardedParse.synth (h : GuardedParse st st₁) : st₁.synth = st.synth := by
  rcases h with rfl | ⟨_, rfl⟩ | ⟨_, rfl⟩ <;> rfl

theorem handleParse_step (h : Runs (handleParse st msg) tr r) : ∃ rules now t,
    tr = ⟨.rewriter, rules⟩ :: ⟨.now, now⟩ :: t ∧ ParseStep (· ∈ tr) st msg rules now r := by
  unfold handleParse at h
  dsimp only at h
  rw [runs_bind] at h
  obtain ⟨t₁, rewritten, t₂, h₁, h, rfl⟩ := h
  obtain ⟨rules, rfl, rfl⟩ := rewriteQuery_conn h₁
  rw [runs_perform_bind] at h
  obtain ⟨now, t, h, rfl⟩ := h
  rw [runs_bind] at h
  obtain ⟨t₃, qtype, t₄, h₃, h, rfl⟩ := h
  unfold classifyQuery at h₃
  rw [runs_perform_bind] at h₃
  obtain ⟨cfg, t, h₃, rfl⟩ := h₃
  obtain ⟨rfl, rfl⟩ := runs_pure.mp h₃
  rw [runs_bind] at h
  obtain ⟨t₅, st₁, t₆, h₅, h, rfl⟩ := h
  have hg := guardParse_guarded h₅
  have hsynth : st₁.synth.isSome = st.synth.isSome := by
    rw [hg.guarded.synth]
    simp [Relay.register]
  refine ⟨rules, now, _, rfl, cfg, st₁, by simp, hg.mono fun e he => by simp [he], ?_⟩
  cases hs : st.synth with
  | some synth =>
    simp only [hsynth, hs, Option.isSome_some, if_true, runs_perform_bind] at h
    obtain ⟨ok, t, h, rfl⟩ := h
    obtain ⟨rfl, rfl⟩ := runs_pure.mp h
    exact ⟨ok, by simp [hs], by simp [Relay.buffer, hsynth, hs]; rfl⟩
  | none =>
    simp only [hsynth, hs, Option.isSome_none, Bool.false_eq_true, if_false] at h
    obtain ⟨rfl, rfl⟩ := runs_pure.mp h
    refine ⟨true, fun _ => rfl, ?_⟩
    simp [Relay.buffer, hsynth, hs, proceed]
    exact ⟨rfl, rfl⟩

def BindStep (st : Relay) (msg : Message) (r : Flow) : Prop :=
  (st.synth = none ∧ r = .inl ((st.bindFlags (parseBindMessage msg.payload).2).buffer msg)) ∨
    (st.synth.isSome = true ∧ r = .inr st) ∨
    ∃ detail ok, st.synth.isSome = true ∧ parseBindMessageFull msg.payload = some detail ∧
      r = proceed ok { st.bindFlags detail.statementName with muxBindDetail := some detail }

theorem handleBind_step (h : Runs (handleBind st msg) tr r) : BindStep st msg r := by
  unfold handleBind at h
  cases hs : st.synth with
  | some synth =>
    simp only [hs, Option.isSome_some, if_true] at h
    split at h
    · rw [runs_bind] at h
      obtain ⟨t₁, _, t₂, -, h, rfl⟩ := h
      obtain ⟨rfl, rfl⟩ := runs_pure.mp h
      exact .inr (.inl ⟨by simp [hs], rfl⟩)
    · rename_i detail hd
      rw [runs_perform_bind] at h
      obtain ⟨ok, t, h, rfl⟩ := h
      obtain ⟨rfl, rfl⟩ := runs_pure.mp h
      exact .inr (.inr ⟨detail, ok, by simp [hs], hd, rfl⟩)
  | none =>
    simp only [hs, Option.isSome_none, Bool.false_eq_true, if_false] at h
    obtain ⟨rfl, rfl⟩ := runs_pure.mp h
    exact .inl ⟨hs, by simp [Relay.buffer, Relay.bindFlags, hs]⟩

omit [External] in
theorem closeStatement_synth (st : Relay) (payload : Bytes) :
    (st.closeStatement payload).synth.isSome = st.synth.isSome := by
  unfold Relay.closeStatement
  dsimp only
  split <;> simp

theorem handleClose_step (h : Runs (handleClose st msg) tr r) :
    Noted st ((st.closeStatement msg.payload).buffer msg) r := by
  unfold handleClose at h
  dsimp only at h
  cases hs : st.synth with
  | some synth =>
    simp only [closeStatement_synth, hs, Option.isSome_some, if_true, runs_perform_bind] at h
    obtain ⟨ok, t, h, rfl⟩ := h
    obtain ⟨rfl, rfl⟩ := runs_pure.mp h
    exact ⟨ok, by simp [hs], by simp [Relay.buffer, closeStatement_synth, hs]⟩
  | none =>
    simp only [closeStatement_synth, hs, Option.isSome_none, Bool.false_eq_true, if_false] at h
    obtain ⟨rfl, rfl⟩ := runs_pure.mp h
    exact ⟨true, fun _ => rfl, by simp [Relay.buffer, closeStatement_synth, hs, proceed]⟩

def received : Trace Ans → Option Message
  | ⟨.ctxDone, _⟩ :: ⟨.readClient, .message msg⟩ :: _ => some msg
  | _ => none

def poolsSeen (tr : Trace Ans) : List PoolId := answers .writerPool tr

def rulesSeen (tr : Trace Ans) : List (Option External.Rules) := answers .rewriter tr

def configsSeen (tr : Trace Ans) : List Config := answers .config tr

def readOnlySeen (tr : Trace Ans) : List Bool := answers .inReadOnly tr

def timesSeen (tr : Trace Ans) : List Nat := answers .now tr

def acquiredFrom (p : PoolId) (tr : Trace Ans) : List (Option ConnId) := answers (.acquire p) tr

inductive Step (R : Bytes → Prop) (st : Relay) (tr : Trace Ans) : Flow → Prop
  | idle : conn tr = [] → Step R st tr (proceed b st)
  | query : received tr = some msg → msg.type = msgQuery →
      QueryStep R (· ∈ tr) st msg (conn tr) r → Step R st tr r
  | parse : received tr = some msg → msg.type = msgParse → conn tr = [] →
      ⟨.rewriter, rules⟩ ∈ tr → ParseStep (· ∈ tr) st msg rules now r → Step R st tr r
  | bind : received tr = some msg → msg.type = msgBind → conn tr = [] → BindStep st msg r →
      Step R st tr r
  | close : received tr = some msg → msg.type = msgClose → conn tr = [] →
      Noted st ((st.closeStatement msg.payload).buffer msg) r → Step R st tr r
  | describe : received tr = some msg → msg.type = msgDescribe → st.synth = some synth →
      describeTarget synth msg.payload = .ok stmt →
      Visits R true (describeBatch stmt.query) (conn tr) → Step R st tr (proceed ok st)
  | buffered : received tr = some msg → st.synth = none → msg.type ≠ msgQuery → msg.type ≠ msgSync →
      msg.type ≠ msgParse → msg.type ≠ msgBind → msg.type ≠ msgClose → conn tr = [] →
      x = (st.extHasExecute || decide (msg.type = msgExecute)) →
      Step R st tr (.inl { st with extHasExecute := x, extBuf := st.extBuf ++ [msg] })
  | sync : received tr = some msg → msg.type = msgSync →
      SyncStep R (· ∈ tr) st msg (conn tr) r → Step R st tr r

theorem QueryStep.mono (h : QueryStep R seen st msg t r) (hs : ∀ e, seen e → seen' e) :
    QueryStep R seen' st msg t r := by
  cases h with
  | blocked => exact .blocked
  | readOnly h₁ hn hg h₂ => exact .readOnly (hs _ h₁) (hs _ hn) (hg.mono hs) (hs _ h₂)
  | write h₁ hn hg h₂ h₃ hw hr hp =>
    exact .write (hs _ h₁) (hs _ hn) (hg.mono hs) (hs _ h₂) (hs _ h₃) hw hr
      (hp.mono fun h => ⟨h.1, h.2.mono hs⟩)
  | read h₁ hn hg hr hl hv => exact .read (hs _ h₁) (hs _ hn) (hg.mono hs) hr (hl.mono hs) hv

theorem Unblocked.mono (h : Unblocked seen st) (hs : ∀ e, seen e → seen' e) :
    Unblocked seen' st := by
  obtain ⟨hn, b, hb, hw⟩ := h
  exact ⟨hn, b, hs _ hb, hw⟩

theorem SyncStep.mono (h : SyncStep R seen st msg t r) (hs : ∀ e, seen e → seen' e) :
    SyncStep R seen' st msg t r := by
  cases h with
  | rejected hg => exact .rejected hg
  | noBind hy hm hu => exact .noBind hy hm hu
  | synthFailed hy hm hq hu => exact .synthFailed hy hm hq hu
  | synthRead hy hm hq hb hr hv => exact .synthRead hy hm hq (hb.mono hs) hr hv
  | synthWrite hy hm hq hb hr hg hp => exact .synthWrite hy hm hq (hb.mono hs) hr hg hp
  | batchRead hy hb hr hp => exact .batchRead hy (hb.mono hs) hr hp
  | batchWrite hy hb hr hg hp => exact .batchWrite hy (hb.mono hs) hr hg hp

theorem ParseStep.mono (h : ParseStep seen st msg rules now r) (hs : ∀ e, seen e → seen' e) :
    ParseStep seen' st msg rules now r := by
  obtain ⟨cfg, st₁, hc, hg, hn⟩ := h
  exact ⟨cfg, st₁, hs _ hc, hg.mono hs, hn⟩

theorem handleExtended_step (h : Runs (handleExtended st msg) t r) (hR : Configured R t)
    (hq : msg.type ≠ msgQuery) (hm : received (p ++ t) = some msg) (hpre : conn p = []) :
    Step R st (p ++ t) r := by
  have hc : conn (p ++ t) = conn t := by simp [hpre]
  have hin : ∀ e, e ∈ t → e ∈ p ++ t := fun e he => List.mem_append_right _ he
  unfold handleExtended at h
  split at h
  · rename_i ht
    obtain ⟨rules, now, t', rfl, hp⟩ := handleParse_step h
    exact .parse hm ht (hc.trans ((handleParse_foot.quiet rfl).conn h)) (by simp) (hp.mono hin)
  split at h
  · rename_i ht
    exact .bind hm ht (hc.trans ((handleBind_foot.quiet rfl).conn h)) (handleBind_step h)
  split at h
  · rename_i ht
    exact .close hm ht (hc.trans ((handleClose_foot.quiet rfl).conn h)) (handleClose_step h)
  rename_i hp hb hcl
  split at h
  · rename_i hd
    unfold handleDescribe at h
    split at h
    · rename_i synth hs
      obtain ⟨t₁, ok, t₂, rfl, h₁, h⟩ := h.of_seq
      obtain ⟨rfl, rfl⟩ := runs_pure.mp h
      rcases handleMultiplexDescribe_visits h₁ hR.left with ht | ⟨stmt, hst, hv⟩
      · exact .idle (by simp [hpre, ht])
      · exact .describe hm hd hs hst (by simpa [hpre] using hv)
    · rename_i hs
      obtain ⟨rfl, rfl⟩ := runs_pure.mp h
      have hx : msg.type ≠ msgExecute := by rw [hd]; decide
      have hy : msg.type ≠ msgSync := by rw [hd]; decide
      exact .buffered hm hs hq hy hp hb hcl hc (by simp [hx])
  split at h
  · rename_i hx
    unfold handleExecute at h
    split at h
    · obtain ⟨rfl, rfl⟩ := runs_pure.mp h
      exact .idle (b := true) hc
    · rename_i hs
      obtain ⟨rfl, rfl⟩ := runs_pure.mp h
      have hy : msg.type ≠ msgSync := by rw [hx]; decide
      exact .buffered hm (by simpa using hs) hq hy hp hb hcl hc (by simp [hx])
  rename_i hx
  split at h
  · rename_i ht
    refine .sync hm ht ?_
    rw [hc]
    exact (handleSync_step h hR).mono hin
  · rename_i hy
    unfold handleOther at h
    split at h
    · obtain ⟨rfl, rfl⟩ := runs_pure.mp h
      exact .idle (b := true) hc
    · rename_i hs
      obtain ⟨rfl, rfl⟩ := runs_pure.mp h
      exact .buffered hm (by simpa using hs) hq hy hp hb hcl hc (by simp [hx])

theorem relayStep_step (h : Runs (relayStep st) tr r) (hR : Configured R tr) : Step R st tr r := by
  cases relayStep_ways h with
  | ends hk => exact .idle (b := false) (hk.conn rfl)
  | limited h₁ h₂ =>
    exact .idle (b := true) (by simp [conn_cons, Op.onConn, (rateLimited_foot.quiet rfl).conn h₁,
      (reject_foot.quiet rfl).conn h₂])
  | query ht h₁ h₂ =>
    refine .query rfl ht ?_
    rw [conn_cons, conn_cons, conn_cons, conn_append, (rateLimited_foot.quiet rfl).conn h₁]
    exact (handleQuery_step h₂ hR.tail.tail.tail.right).mono fun e he => by simp [he]
  | @extended t₁ msg t₂ _ m ht _ h₁ h₂ =>
    have hq := (rateLimited_foot.quiet rfl).conn h₁
    exact handleExtended_step (p := ⟨.ctxDone, false⟩ :: ⟨.readClient, .message msg⟩ ::
      ⟨.inMaintenance, m⟩ :: t₁) h₂ hR.tail.tail.tail.right ht rfl
      (by simp [conn_cons, Op.onConn, hq])

end Step

end Pgmux
