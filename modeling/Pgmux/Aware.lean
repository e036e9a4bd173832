import Pgmux.View

namespace Pgmux

open Interaction

/-- The text past a match of `hintRegex` at its start. -/
def pastHint (s : Bytes) : Bytes :=
  (((s.drop 2).dropWhile isRegexSpace).drop 12 |>.dropWhile isRegexSpace).drop 2

/-- Replace the leftmost match of `hintRegex` by a blank, wherever it stands. -/
def removeHint : Bytes → Bytes
  | [] => []
  | c :: s => if (hintAt (c :: s)).isSome then 32 :: pastHint (c :: s) else c :: removeHint s

/-- Without one hint the text around it may be another: they are removed until none is left. -/
def removeHintsIn : Nat → Bytes → Bytes
  | 0, query => query
  | n + 1, query => if (findHint query).isSome then removeHintsIn n (removeHint query) else query

def removeHints (query : Bytes) : Bytes := removeHintsIn query.length query

theorem pastHint_length (s : Bytes) : (pastHint s).length ≤ s.length - 2 := by
  have h₁ := (List.dropWhile_sublist isRegexSpace (l := s.drop 2)).length_le
  have h₂ := (List.dropWhile_sublist isRegexSpace
    (l := ((s.drop 2).dropWhile isRegexSpace).drop 12)).length_le
  simp only [pastHint, List.length_drop] at h₁ h₂ ⊢
  omega

theorem removeHint_length {s : Bytes} (h : (findHint s).isSome) :
    (removeHint s).length < s.length := by
  induction s with
  | nil => cases h
  | cons c s ih =>
    rw [removeHint]
    split
    · have := pastHint_length (c :: s)
      rename_i hh
      have hlen : 2 ≤ (c :: s).length := by
        cases s with
        | nil => simp [hintAt, hasPrefix, ascii] at hh
        | cons d s => simp
      simp only [List.length_cons] at *
      omega
    · rename_i hh
      rw [findHint, Option.not_isSome_iff_eq_none.mp hh, Option.none_or] at h
      simpa using ih h

theorem findHint_removeHints (query : Bytes) : findHint (removeHints query) = none := by
  suffices hall : ∀ n query, query.length ≤ n → findHint (removeHintsIn n query) = none from
    hall _ _ le_rfl
  intro n
  induction n with
  | zero =>
    intro query h
    rw [List.length_eq_zero_iff.mp (Nat.le_zero.mp h)]
    rfl
  | succ n ih =>
    intro query h
    rw [removeHintsIn]
    split
    · rename_i hh
      exact ih _ (by have := removeHint_length hh; omega)
    · rename_i hh
      exact Option.not_isSome_iff_eq_none.mp hh

def isWrite [CaseTable] (query : Bytes) : Bool := classify (removeHints query) = .write

section Aware

variable [External] {st st' : Relay} {H : List Message}

/-- The relay knows of the writes: among the named statements, in the batch, and in the statement
bound in multiplex mode. The messages `H` were buffered so far. -/
structure Aware (H : List Message) (st : Relay) : Prop where
  named : st.synth = none → ∀ n text, (View.empty.after H).stmts n = some text →
    isWrite text = true →
    st.session.statementIsWrite n = true
  batch : ∃ H₀, H = H₀ ++ st.extBuf ∧
    ∀ text ∈ View.texts View.prepared (View.empty.after H₀) st.extBuf, isWrite text = true →
      st.extIsWrite = true
  noQuery : ∀ m ∈ st.extBuf, m.type ≠ msgQuery
  known : ∀ synth n stmt, st.synth = some synth → synth.getStatement n = some stmt →
    isWrite stmt.query = true → st.session.statementIsWrite n = true
  bound : ∀ synth detail stmt, st.synth = some synth → st.muxBindDetail = some detail →
    synth.getStatement detail.statementName = some stmt → isWrite stmt.query = true →
    st.extIsWrite = true

theorem aware_init (dbName : Bytes) (session : Session) (multiplex : Bool) :
    Aware [] (Relay.init dbName session multiplex) where
  named _ n text h := by cases h
  batch := ⟨[], rfl, by simp [Relay.init, View.texts]⟩
  noQuery _ h := nomatch h
  known synth n stmt hy hs := by
    cases multiplex with
    | false => cases hy
    | true =>
      cases hy
      simp [Synthesizer.getStatement, Synthesizer.empty] at hs
  bound _ _ _ _ hd := by cases hd

omit [External] in
theorem statementIsWrite_congr {s s' : Session} (h : s'.stmtWrite = s.stmtWrite) (n : Bytes) :
    s'.statementIsWrite n = s.statementIsWrite n := by
  simp [Session.statementIsWrite, h]

theorem SameBatch.aware (h : SameBatch st st') (hA : Aware H st) :
    Aware (H ++ pushed st st') st' := by
  rw [pushed_same h.extBuf, List.append_nil]
  refine ⟨?_, ?_, h.extBuf ▸ hA.noQuery, ?_, ?_⟩
  · intro hy n text ht hw
    rw [statementIsWrite_congr h.stmtWrite]
    exact hA.named (h.synth ▸ hy) n text ht hw
  · rw [h.extBuf, h.extIsWrite]
    exact hA.batch
  · intro synth n stmt hy hs hw
    rw [statementIsWrite_congr h.stmtWrite]
    exact hA.known synth n stmt (h.synth ▸ hy) hs hw
  · intro synth detail stmt hy hd hs hw
    rw [h.extIsWrite]
    exact hA.bound synth detail stmt (h.synth ▸ hy) (h.muxBindDetail ▸ hd) hs hw

theorem BatchOver.aware (h : BatchOver st st') (hA : Aware H st) :
    Aware (H ++ pushed st st') st' := by
  rw [pushed_nil h.extBuf, List.append_nil]
  refine ⟨?_, ?_, by simp [h.extBuf], ?_, ?_⟩
  · intro hy n text ht hw
    rw [statementIsWrite_congr h.stmtWrite]
    exact hA.named (h.synth ▸ hy) n text ht hw
  · exact ⟨H, by simp [h.extBuf], by simp [h.extBuf, View.texts]⟩
  · intro synth n stmt hy hs hw
    rw [statementIsWrite_congr h.stmtWrite]
    exact hA.known synth n stmt (h.synth ▸ hy) hs hw
  · intro synth detail stmt _ hd
    rw [h.muxBindDetail] at hd
    cases hd

/-- The router of the session and every configuration seen classify the text as a write. -/
def SeenAsWrite (st : Relay) (tr : Trace Ans) (text : Bytes) : Prop :=
  st.session.classify text = .write ∧ ∀ cfg ∈ configsSeen tr, classifyBy cfg.astParser text = .write

instance (st : Relay) (tr : Trace Ans) (text : Bytes) : Decidable (SeenAsWrite st tr text) :=
  inferInstanceAs (Decidable (_ ∧ _))

def QueryRecognised (st : Relay) (tr : Trace Ans) : Prop :=
  ∀ msg ∈ received tr, msg.type = msgQuery → isWrite (extractQueryText msg.payload) = true →
    ∀ rules ∈ rulesSeen tr, SeenAsWrite st tr (checkedText rules msg)

instance (st : Relay) (tr : Trace Ans) : Decidable (QueryRecognised st tr) :=
  inferInstanceAs (Decidable (∀ _ ∈ received tr, _))

def ParseRecognised (st : Relay) (tr : Trace Ans) : Prop :=
  ∀ msg ∈ received tr, msg.type = msgParse → ∀ rules ∈ rulesSeen tr,
    isWrite (parsedText rules msg) = true ∨
      isWrite (parseNameText (parsedMessage rules msg).payload).2 = true →
    SeenAsWrite st tr (parsedText rules msg)

instance (st : Relay) (tr : Trace Ans) : Decidable (ParseRecognised st tr) :=
  inferInstanceAs (Decidable (∀ _ ∈ received tr, _))

def SyncRecognised (st : Relay) (tr : Trace Ans) : Prop :=
  ∀ msg ∈ received tr, msg.type = msgSync → bindsFirst [] st.extBuf = true ∧
    ∀ synth ∈ st.synth, ∀ detail ∈ st.muxBindDetail,
      ∀ stmt ∈ synth.getStatement detail.statementName, ∀ query ∈ st.synthesized,
        isWrite (extractQueryText (queryMessage query).payload) = true → isWrite stmt.query = true

instance (st : Relay) (tr : Trace Ans) : Decidable (SyncRecognised st tr) :=
  inferInstanceAs (Decidable (∀ _ ∈ received tr, _))

def DescribeRecognised (st : Relay) (tr : Trace Ans) : Prop :=
  ∀ msg ∈ received tr, msg.type = msgDescribe → ∀ synth ∈ st.synth,
    ∀ stmt ∈ (describeTarget synth msg.payload).toOption, ∀ m ∈ describeBatch stmt.query,
      m.type = msgParse → isWrite (parseNameText m.payload).2 = false

instance (st : Relay) (tr : Trace Ans) : Decidable (DescribeRecognised st tr) :=
  inferInstanceAs (Decidable (∀ _ ∈ received tr, _))

structure Recognised (st : Relay) (tr : Trace Ans) : Prop where
  query : QueryRecognised st tr
  parse : ParseRecognised st tr
  sync : SyncRecognised st tr
  describe : DescribeRecognised st tr

instance (st : Relay) (tr : Trace Ans) : Decidable (Recognised st tr) :=
  decidable_of_iff (QueryRecognised st tr ∧ ParseRecognised st tr ∧ SyncRecognised st tr ∧
    DescribeRecognised st tr)
    ⟨fun ⟨h₁, h₂, h₃, h₄⟩ => ⟨h₁, h₂, h₃, h₄⟩, fun ⟨h₁, h₂, h₃, h₄⟩ => ⟨h₁, h₂, h₃, h₄⟩⟩

omit [External] in
theorem statementIsWrite_insert {s s' : Session} (h : s'.stmtWrite = s.stmtWrite.insert name b)
    (n : Bytes) : s'.statementIsWrite n = if n = name then b else s.statementIsWrite n := by
  unfold Session.statementIsWrite
  rw [h]
  by_cases hn : n = name
  · subst hn
    rw [AList.lookup_insert, if_pos rfl]
    rfl
  · rw [AList.lookup_insert_ne hn, if_neg hn]

theorem Aware.push (hA : Aware H st) (hbuf : st'.extBuf = st.extBuf ++ [m])
    (hext : st.extIsWrite → st'.extIsWrite)
    (hm : ∀ text, (View.empty.after H).prepared m = some text → isWrite text →
      st'.extIsWrite) :
    ∃ H₀, H ++ [m] = H₀ ++ st'.extBuf ∧
      ∀ text ∈ View.texts View.prepared (View.empty.after H₀) st'.extBuf, isWrite text →
        st'.extIsWrite := by
  obtain ⟨H₀, rfl, hb⟩ := hA.batch
  refine ⟨H₀, by simp [hbuf], ?_⟩
  rw [hbuf, View.texts_append, ← View.after_append]
  intro text ht hw
  rcases List.mem_append.mp ht with ht | ht
  · exact hext (hb text ht hw)
  · exact hm text (by simpa [View.texts] using ht) hw

theorem Aware.push_noQuery (hA : Aware H st) (hm : m.type ≠ msgQuery) :
    ∀ m' ∈ st.extBuf ++ [m], m'.type ≠ msgQuery := by
  intro m' h
  rw [List.mem_append, List.mem_singleton] at h
  rcases h with h | rfl
  · exact hA.noQuery m' h
  · exact hm

theorem Registered.aware (h : Registered (· ∈ tr) st rules msg st') (hA : Aware H st)
    (hrec : isWrite (parsedText rules msg) ∨
      isWrite (parseNameText (parsedMessage rules msg).payload).2 = true →
      SeenAsWrite st tr (parsedText rules msg))
    (htype : (parsedMessage rules msg).type = msgParse) :
    Aware (H ++ pushed st st') st' := by
  obtain ⟨cfg, hcfg, hext⟩ := h.extIsWrite
  have hmono : st.extIsWrite → st'.extIsWrite := fun he => by simp [hext, he]
  have hmark : SeenAsWrite st tr (parsedText rules msg) → st'.extIsWrite :=
    fun hs => by simp [hext, hs.2 cfg (mem_answers.mpr hcfg)]
  have hstmt := statementIsWrite_insert h.stmtWrite
  cases hy : st.synth with
  | none =>
    have hbuf : st'.extBuf = st.extBuf ++ [parsedMessage rules msg] := by simp [h.extBuf, hy]
    have hy' : st'.synth = none := by simp [h.synth, hy]
    rw [pushed_one hbuf]
    have hnq := hA.push_noQuery (m := parsedMessage rules msg) (by rw [htype]; decide)
    rw [← hbuf] at hnq
    refine ⟨?_, hA.push hbuf hmono ?_, hnq, by simp [hy'], by simp [hy']⟩
    · intro _ n text ht hw
      rw [View.after_append, View.after, List.foldl_cons, List.foldl_nil, View.note, if_pos htype,
        View.setStmt_stmts, parsedMessage_name] at ht
      rw [hstmt]
      split at ht
      · rename_i hn
        cases ht
        rw [if_pos hn, (hrec (.inr hw)).1]
        rfl
      · rename_i hn
        rw [if_neg hn]
        exact hA.named hy n text ht hw
    · intro text ht hw
      rw [View.prepared, if_pos htype] at ht
      cases ht
      exact hmark (hrec (.inr hw))
  | some synth =>
    have hbuf : st'.extBuf = st.extBuf := by simp [h.extBuf, hy]
    have hy' := h.synth
    rw [hy, Option.map_some] at hy'
    rw [pushed_same hbuf, List.append_nil]
    refine ⟨by simp [hy'], ?_, hbuf ▸ hA.noQuery, ?_, ?_⟩
    · obtain ⟨H₀, rfl, hb⟩ := hA.batch
      exact ⟨H₀, by rw [hbuf], fun text ht hw => hmono (hb text (hbuf ▸ ht) hw)⟩
    · intro synth' n stmt hs hg hw
      rw [hy'] at hs
      cases hs
      rw [hstmt]
      rcases getStatement_registerStatement hg with ⟨hn, rfl⟩ | ⟨hn, hg⟩
      · rw [if_pos hn, (hrec (.inl hw)).1]
        rfl
      · rw [if_neg hn]
        exact hA.known _ n stmt hy hg hw
    · intro synth' detail stmt hs hd hg hw
      rw [hy'] at hs
      cases hs
      rw [h.muxBindDetail] at hd
      rcases getStatement_registerStatement hg with ⟨hn, rfl⟩ | ⟨hn, hg⟩
      · exact hmark (hrec (.inl hw))
      · exact hmono (hA.bound _ detail stmt hy hd hg hw)

theorem BoundTo.aware (h : BoundTo st msg name st') (htype : msg.type = msgBind)
    (hA : Aware H st) : Aware (H ++ pushed st st') st' := by
  have hmono : st.extIsWrite → st'.extIsWrite := fun he => by simp [h.extIsWrite, he]
  have hmark : st.session.statementIsWrite name → st'.extIsWrite :=
    fun he => by simp [h.extIsWrite, he]
  rcases h.mode with ⟨hy, rfl, hbuf⟩ | ⟨hy, hbuf, detail, -, hd, rfl⟩
  · have hnp : msg.type ≠ msgParse := by rw [htype]; decide
    have hy' : st'.synth = none := h.synth.trans hy
    rw [pushed_one hbuf]
    have hnq := hA.push_noQuery (m := msg) (by rw [htype]; decide)
    rw [← hbuf] at hnq
    refine ⟨?_, hA.push hbuf hmono ?_, hnq, by simp [hy'], by simp [hy']⟩
    · intro _ n text ht hw
      rw [View.after_append] at ht
      rw [h.session]
      exact hA.named hy n text (View.note_stmts hnp ht) hw
    · intro text ht hw
      rw [View.prepared, if_neg hnp, if_pos htype] at ht
      exact hmark (hA.named hy _ text ht hw)
  · rw [pushed_same hbuf, List.append_nil]
    have hne : st'.synth ≠ none := by
      rw [h.synth]
      exact Option.isSome_iff_ne_none.mp hy
    refine ⟨fun hy' => (hne hy').elim, ?_, hbuf ▸ hA.noQuery, ?_, ?_⟩
    · obtain ⟨H₀, rfl, hb⟩ := hA.batch
      exact ⟨H₀, by rw [hbuf], fun text ht hw => hmono (hb text (hbuf ▸ ht) hw)⟩
    · intro synth n stmt hs hg hw
      rw [h.session]
      exact hA.known synth n stmt (h.synth ▸ hs) hg hw
    · intro synth detail' stmt hs hd' hg hw
      rw [hd] at hd'
      cases hd'
      exact hmark (hA.known synth _ stmt (h.synth ▸ hs) hg hw)

omit [External] in
theorem statementIsWrite_close (s : Session) (name n : Bytes)
    (h : s.statementIsWrite n) : (s.closeStatement name).statementIsWrite n := by
  unfold Session.statementIsWrite Session.closeStatement
  by_cases hn : n = name
  · subst hn
    simp
  · rwa [AList.lookup_erase_ne hn]

theorem ClosedBy.aware (h : ClosedBy st msg st') (htype : msg.type = msgClose)
    (hA : Aware H st) : Aware (H ++ pushed st st') st' := by
  have hnp : msg.type ≠ msgParse := by rw [htype]; decide
  have hnb : msg.type ≠ msgBind := by rw [htype]; decide
  have hstmt : ∀ n, st.session.statementIsWrite n → st'.session.statementIsWrite n := by
    intro n hn
    rcases h.forgets with ⟨hs, -, -⟩ | ⟨hs, -, -⟩
    · rwa [hs]
    · rw [hs]
      exact statementIsWrite_close _ _ n hn
  have hnone : st'.synth = none → st.synth = none := by
    rcases h.forgets with ⟨-, hy, -⟩ | ⟨-, -, hy⟩ <;> simp [hy]
  refine ⟨?_, ?_, ?_, ?_, ?_⟩
  · intro hy n text ht hw
    refine hstmt n (hA.named (hnone hy) n text ?_ hw)
    have hbuf : st'.extBuf = st.extBuf ++ [msg] := by simp [h.extBuf, hnone hy]
    rw [pushed_one hbuf, View.after_append] at ht
    exact View.note_stmts hnp ht
  · cases hy : st.synth with
    | none =>
      have hbuf : st'.extBuf = st.extBuf ++ [msg] := by simp [h.extBuf, hy]
      rw [pushed_one hbuf]
      refine hA.push hbuf (fun he => h.extIsWrite.trans he) ?_
      intro text ht
      rw [View.prepared_none hnp hnb] at ht
      cases ht
    | some synth =>
      have hbuf : st'.extBuf = st.extBuf := by simp [h.extBuf, hy]
      rw [pushed_same hbuf, List.append_nil, hbuf, h.extIsWrite]
      exact hA.batch
  · rw [h.extBuf]
    split
    · exact hA.noQuery
    · exact hA.push_noQuery (by rw [htype]; decide)
  · intro synth n stmt hs hg hw
    obtain ⟨synth₀, h₀, hg₀⟩ := h.known hs hg
    exact hstmt n (hA.known synth₀ n stmt h₀ hg₀ hw)
  · intro synth detail stmt hs hd hg hw
    obtain ⟨synth₀, h₀, hg₀⟩ := h.known hs hg
    rw [h.extIsWrite]
    exact hA.bound synth₀ detail stmt h₀ (h.muxBindDetail ▸ hd) hg₀ hw

theorem Aware.buffered (hA : Aware H st) (hq : msg.type ≠ msgQuery) (hp : msg.type ≠ msgParse)
    (hb : msg.type ≠ msgBind) (hy : st.synth = none)
    (h : st' = { st with extHasExecute := x, extBuf := st.extBuf ++ [msg] }) :
    Aware (H ++ pushed st st') st' := by
  have hbuf : st'.extBuf = st.extBuf ++ [msg] := by rw [h]
  have hy' : st'.synth = none := by rw [h]; exact hy
  rw [pushed_one hbuf]
  refine ⟨?_, hA.push hbuf (fun he => by rw [h]; exact he) ?_,
    hbuf ▸ hA.push_noQuery hq, by simp [hy'], by simp [hy']⟩
  · intro _ n text ht hw
    rw [h]
    rw [View.after_append] at ht
    exact hA.named hy n text (View.note_stmts hp ht) hw
  · intro text ht
    rw [View.prepared_none hp hb] at ht
    cases ht

theorem Step.aware (h : Step R st tr (.inl st')) (hA : Aware H st) (hok : ParseRecognised st tr) :
    Aware (H ++ pushed st st') st' := by
  cases h.change with
  | same hs => exact hs.aware hA
  | registered hm ht hrules hr =>
    exact hr.aware hA (hok _ hm ht _ (mem_answers.mpr hrules)) (parsedMessage_type ht)
  | bound _ ht hb => exact hb.aware ht hA
  | closed _ ht hc => exact hc.aware ht hA
  | buffered hy hq hp hb he => exact hA.buffered hq hp hb hy he
  | ended ho => exact ho.aware hA

end Aware

end Pgmux
