import Pgmux.Aware
import Pgmux.PoolUsers
import Pgmux.Sends

namespace Pgmux

open Interaction

section ReadOnly

variable [External] {st st' : Relay} {H : List Message}

def ReadOnlyMode (tr : Trace Ans) : Prop := ∀ b, ⟨.inReadOnly, b⟩ ∈ tr → b = true

theorem Checked.not_seenAsWrite (h : Checked tr st text) (hro : ReadOnlyMode tr) :
    ¬ SeenAsWrite st tr text := by
  rintro ⟨hs, hc⟩
  obtain ⟨st₁, now, hp, -, h⟩ := h
  split at h
  · obtain ⟨cfg, b, hcfg, hb, hread⟩ := h
    have := hread (hro b hb)
    rw [hc cfg (mem_answers.mpr hcfg)] at this
    cases this
  · rename_i hroute
    have := routeQueryLocked_reader hroute
    rw [Session.classify, hp.guarded.astParser] at this
    rw [Session.classify, this] at hs
    cases hs

theorem Aware.batch_reads (hA : Aware H st) (hb : bindsFirst [] st.extBuf)
    (hw : st.extIsWrite = false) (hm : m ∈ st.extBuf) (h : Carries H st m text) :
    isWrite text = false := by
  obtain ⟨H₀, hH, hbatch⟩ := hA.batch
  have hprep : ∀ text ∈ View.texts View.prepared (View.empty.after H₀) st.extBuf,
      isWrite text = false := by
    intro text ht
    by_contra hne
    have := hbatch text ht (by simpa using hne)
    simp [hw] at this
  have hexec := View.executed_prepared hb (fun _ h => nomatch h) hprep
  cases h with
  | query ht => exact (hA.noQuery m hm ht).elim
  | parse ht =>
    obtain ⟨b₁, b₂, hsplit⟩ := List.append_of_mem hm
    refine hprep _ (View.mem_texts.mpr ⟨b₁, m, b₂, hsplit, ?_⟩)
    rw [View.prepared, if_pos ht]
  | batch hH' hsplit ht =>
    obtain rfl := List.append_cancel_right (hH.symm.trans hH')
    rw [View.after_append] at ht
    rcases ht with ht | ht
    · exact hprep _ (View.mem_texts.mpr ⟨_, m, _, hsplit, ht⟩)
    · exact hexec _ (View.mem_texts.mpr ⟨_, m, _, hsplit, ht⟩)

theorem Sends.reads (h : Sends tr st m) (ho : ¬ OwnQuery tr m) (hA : Aware H st)
    (hro : ReadOnlyMode tr) (hok : Recognised st tr) (hc : Carries H st m text) :
    isWrite text = false := by
  have hreads : Unblocked (· ∈ tr) st → st.extIsWrite = false := by
    rintro ⟨-, b, hb, hw⟩
    simpa [hro b hb] using hw
  cases h with
  | own h => exact (ho h).elim
  | query hm ht hrules hch =>
    rw [hc.of_query ht]
    by_contra hne
    exact hch.not_seenAsWrite hro
      (hok.query _ hm ht (by simpa using hne) _ (mem_answers.mpr hrules))
  | describe hm ht hy hst hmem =>
    have hparse := hok.describe _ hm ht _ hy _ (by rw [hst]; rfl) _ (.head _) rfl
    rw [parseNameText_build (by decide)] at hparse
    rw [describeBatch_carries hmem hc]
    exact hparse
  | batch hm ht _ hu hmem =>
    exact hA.batch_reads (hok.sync _ hm ht).1 (hreads hu) (hc.in_batch hmem ht) hc
  | synthesized hm ht hy hd hq hu he =>
    -- A synthesized write comes from a registered write, of which the batch is marked.
    subst he
    obtain ⟨stmt, hstmt⟩ := synthesize_statement hq
    have hsynth := (hok.sync _ hm ht).2 _ hy _ hd stmt hstmt _ (synthesized_mem hy hd hq)
    rw [extractQueryText_queryMessage] at hsynth
    rw [hc.of_queryMessage]
    by_contra hne
    have := hA.bound _ _ stmt hy hd hstmt (hsynth (by simpa using hne))
    simp [hreads hu] at this

theorem RelayRun.aware (h : RelayRun dbName session multiplex rs t)
    (hok : ∀ r ∈ rs, ParseRecognised r.1 r.2) (hrs : rs = pre ++ (st, tr) :: post) :
    Aware (told (pre.map Prod.fst ++ [st])) st ∧ ∃ r, Runs (relayStep st) tr r := by
  obtain ⟨st', hr, -⟩ := h
  refine hr.at_round (I := fun past st => Aware (told (past ++ [st])) st)
    (aware_init dbName session multiplex) ?_ hrs
  intro past s t s' hm hA hr
  have hs := relayStep_step hr (configured_resetsSeen t)
  simpa [told_append] using hs.aware hA (hok _ hm)

inductive ForwardedReadOnly (ok : Relay → Trace Ans → Prop) (okRequest : QueryRequest → Prop) :
    Bytes → Prop
  | session {st : Relay} : RelayRun dbName session multiplex rs t → (∀ r ∈ rs, ok r.1 r.2) →
      rs = pre ++ (st, tr) :: post → ReadOnlyMode tr → (c, m) ∈ writes tr → ¬ OwnQuery tr m →
      Carries (told (pre.map Prod.fst ++ [st])) st m text → ForwardedReadOnly ok okRequest text
  | request : Runs (handleApiQuery req) tr r → okRequest req → (c, m) ∈ writes tr →
      ¬ OwnQuery tr m → ForwardedReadOnly ok okRequest (extractQueryText m.payload)

theorem ApiUse.written (h : ApiUse R sql c t ok) (hp : OwnQueries R P)
    (hq : ∀ c, P c (queryMessage sql)) : Written P t := by
  have hmem : ∀ m ∈ [queryMessage sql], P c m := by
    intro m hm
    obtain rfl := List.mem_singleton.mp hm
    exact hq c
  cases h with
  | query hx => exact hx.written hmem
  | reset hx hR hy =>
    refine (hx.written hmem).append (hy.written fun m hm => ?_)
    obtain rfl := List.mem_singleton.mp hm
    exact (hp c).2 _ hR

theorem Loans.written {T : ConnId → Trace Ans → Bool → Prop} (h : Loans T t)
    (hT : ∀ c t ok, T c t ok → Written P t) : Written P t := by
  induction h with
  | nil => exact .nil
  | cons hl _ ih =>
    refine Written.append ?_ ih
    cases hl with
    | look => exact Written.nil.cons (by simp)
    | refused => exact Written.nil.cons (by simp)
    | returned ht => exact ((hT _ _ _ ht).append (Written.nil.cons (by simp))).cons (by simp)
    | tossed ht => exact ((hT _ _ _ ht).append (Written.nil.cons (by simp))).cons (by simp)
    | lost ht => exact (hT _ _ _ ht).cons (by simp)

theorem querySQL_copy (h : Runs (querySQL dbName sql) tr r) (hc : containsCopyStatement sql) :
    conn tr = [] := by
  unfold querySQL at h
  rw [runs_perform_bind] at h
  obtain ⟨cfg, t, h, rfl⟩ := h
  rw [if_pos hc] at h
  obtain ⟨rfl, -⟩ := runs_pure.mp h
  rfl

theorem handleApiQuery_writes (h : Runs (handleApiQuery req) tr r) (hw : (c, m) ∈ writes tr) :
    OwnQuery tr m ∨ ∃ sql, req.sql = some sql ∧ m = queryMessage sql ∧
      containsCopyStatement sql = false := by
  rw [← writes_conn] at hw
  rcases handleApiQuery_sql h with hi | ⟨dbName, sql, t₀, t, hq, hs, hi, hrun, rfl⟩
  · rw [hi.conn] at hw
    cases hw
  rw [conn_append, hi.conn, List.nil_append] at hw
  have hcopy : containsCopyStatement sql = false := by
    by_contra hc
    rw [querySQL_copy hrun (by simpa using hc)] at hw
    cases hw
  have hl := querySQL_loans hrun hs (configured_resetsSeen (t₀ ++ t)).right
  have hwr : Written (fun _ m => OwnQuery (t₀ ++ t) m ∨ m = queryMessage sql) (conn t) :=
    hl.written fun c t ok hu => hu.written (ownQueries_of fun _ _ ho => .inl ho) fun _ => .inr rfl
  rcases hwr.of_mem hw with ho | rfl
  · exact .inl ho
  · exact .inr ⟨sql, hq, rfl, hcopy⟩

/-- The Data API does not look at the read-only mode: a request with a write has to be a COPY. -/
def RequestRecognised (req : QueryRequest) : Prop :=
  ∀ sql ∈ req.sql, isWrite (extractQueryText (queryMessage sql).payload) = true →
    containsCopyStatement sql = true

/-- In read-only mode nothing that is forwarded is a write, when the relay recognises writes and the
Data API is asked for none. -/
theorem read_only_complete (h : ForwardedReadOnly Recognised RequestRecognised text) :
    isWrite text = false := by
  cases h with
  | session hrun hok hrs hro hw ho hcar =>
    have hround := hok _ (hrs ▸ List.mem_append_right _ (.head _))
    obtain ⟨hA, r, hr⟩ := hrun.aware (fun r hr => (hok r hr).parse) hrs
    have hs := (relayStep_step hr (configured_resetsSeen _)).sends hw
    exact hs.reads ho hA hro hround hcar
  | request hr hreq hw ho =>
    obtain ⟨sql, hsql, rfl, hcopy⟩ := (handleApiQuery_writes hr hw).resolve_left ho
    by_contra hne
    have := hreq sql hsql (by simpa using hne)
    simp [hcopy] at this

instance (tr : Trace Ans) : Decidable (ReadOnlyMode tr) :=
  decidable_of_iff (∀ b ∈ answers .inReadOnly tr, b = true)
    (forall_congr' fun _ => imp_congr mem_answers Iff.rfl)

end ReadOnly

theorem read_only_complete_select : ∃ _ : External,
    ForwardedReadOnly Recognised RequestRecognised (ascii "SELECT 1") ∧
      isWrite (ascii "SELECT 1") = false := by
  let _ := asciiExternal
  refine ⟨asciiExternal, ?_⟩
  obtain ⟨session, rs, t, h, hc⟩ := Script.play_check (n := 60)
    (s := { Script.simple [parseMessage (ascii "s") (ascii "SELECT 1"), bindMessage (ascii "s"),
      executeMessage, syncMessage] [readyMessage] with readOnly := true })
    (f := fun rs _ => decide (∀ r ∈ rs, Recognised r.1 r.2) && decide (∃ r ∈ rs,
      ReadOnlyMode r.2 ∧ (7, parseMessage (ascii "s") (ascii "SELECT 1")) ∈ writes r.2 ∧
        ¬ OwnQuery r.2 (parseMessage (ascii "s") (ascii "SELECT 1")))) (by decide +kernel)
  simp only [Bool.and_eq_true, decide_eq_true_eq] at hc
  obtain ⟨hok, ⟨st, tr⟩, hmem, hro, hw, ho⟩ := hc
  obtain ⟨pre, post, hrs⟩ := List.append_of_mem hmem
  have hf : ForwardedReadOnly Recognised RequestRecognised (ascii "SELECT 1") := by
    refine .session h hok hrs hro hw ho ?_
    have hcar : Carries (told (pre.map Prod.fst ++ [st])) st
        (parseMessage (ascii "s") (ascii "SELECT 1")) _ := .parse rfl
    rwa [show (parseNameText (parseMessage (ascii "s") (ascii "SELECT 1")).payload).2 =
      ascii "SELECT 1" by decide +kernel] at hcar
  exact ⟨hf, read_only_complete hf⟩

/-- A hint makes the classifier take an INSERT for a read, and it is forwarded in read-only mode. -/
theorem hinted_insert_forwarded : ∃ _ : External,
    ForwardedReadOnly (fun _ _ => True) (fun _ => True)
        (ascii "/* route:reader */ INSERT INTO t VALUES (1)") ∧
      isWrite (ascii "/* route:reader */ INSERT INTO t VALUES (1)") = true := by
  let _ := asciiExternal
  refine ⟨asciiExternal, ?_, by decide +kernel⟩
  obtain ⟨session, rs, t, h, hc⟩ := Script.play_check (n := 60)
    (s := { Script.simple [queryMessage (ascii "/* route:reader */ INSERT INTO t VALUES (1)")]
      [readyMessage] with readOnly := true })
    (f := fun rs _ => decide (∃ r ∈ rs, ReadOnlyMode r.2 ∧
      (7, queryMessage (ascii "/* route:reader */ INSERT INTO t VALUES (1)")) ∈ writes r.2 ∧
      ¬ OwnQuery r.2 (queryMessage (ascii "/* route:reader */ INSERT INTO t VALUES (1)"))))
    (by decide +kernel)
  obtain ⟨⟨st, tr⟩, hmem, hro, hw, ho⟩ := of_decide_eq_true hc
  obtain ⟨pre, post, hrs⟩ := List.append_of_mem hmem
  refine .session h (fun _ _ => trivial) hrs hro hw ho ?_
  have hcar : Carries (told (pre.map Prod.fst ++ [st])) st
      (queryMessage (ascii "/* route:reader */ INSERT INTO t VALUES (1)")) _ := .query rfl
  rwa [show extractQueryText
    (queryMessage (ascii "/* route:reader */ INSERT INTO t VALUES (1)")).payload =
      ascii "/* route:reader */ INSERT INTO t VALUES (1)" by decide +kernel] at hcar

end Pgmux
