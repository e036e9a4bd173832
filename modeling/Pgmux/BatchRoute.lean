import Pgmux.Script
import Pgmux.Written

namespace Pgmux

open Interaction

/-- What a message of a batch says about the route: a Parse registers one, and a Bind looks one up.
-/
inductive Mark where
  | parse (route : Route) (pinned : Bool)
  | bind (route : Route)
  | other
  deriving DecidableEq

def Mark.route : Mark → Option Route
  | .parse route _ => some route
  | .bind route => some route
  | .other => none

def Mark.Raises : Mark → Prop
  | .parse route pinned => route = .writer ∨ pinned = true
  | .bind route => route = .writer
  | .other => False

def Mark.lowering : Mark := .parse .reader false

def Mark.after (route : Route) : Mark → Route
  | .parse r pinned => if r = .writer ∨ pinned = true then .writer else .reader
  | .bind r => if r = .writer then .writer else route
  | .other => route

/-- A message sends the batch to the writer and no Parse after it takes that back. -/
def Survives (marks : List Mark) : Prop :=
  ∃ pre m post, marks = pre ++ m :: post ∧ m.Raises ∧ Mark.lowering ∉ post

theorem after_eq_writer_iff : m.after route = .writer ↔
    m.Raises ∨ (route = .writer ∧ m ≠ Mark.lowering) := by
  cases m with
  | parse r pinned =>
    cases r <;> cases pinned <;> simp [Mark.after, Mark.Raises, Mark.lowering]
  | bind r => cases r <;> simp [Mark.after, Mark.Raises, Mark.lowering]
  | other => simp [Mark.after, Mark.Raises, Mark.lowering]

theorem survives_cons : Survives (m :: marks) ↔
    Survives marks ∨ (m.Raises ∧ Mark.lowering ∉ marks) := by
  constructor
  · rintro ⟨pre, x, post, he, hx, hp⟩
    cases pre with
    | nil =>
      cases he
      exact .inr ⟨hx, hp⟩
    | cons y pre =>
      cases he
      exact .inl ⟨pre, x, post, rfl, hx, hp⟩
  · rintro (⟨pre, x, post, rfl, hx, hp⟩ | ⟨hx, hp⟩)
    · exact ⟨m :: pre, x, post, rfl, hx, hp⟩
    · exact ⟨[], m, marks, rfl, hx, hp⟩

theorem foldl_after_eq_writer_iff (marks : List Mark) (route : Route) :
    marks.foldl Mark.after route = .writer ↔
      Survives marks ∨ (route = .writer ∧ Mark.lowering ∉ marks) := by
  induction marks generalizing route with
  | nil => simp [Survives]
  | cons m marks ih =>
    rw [List.foldl_cons, ih, survives_cons, after_eq_writer_iff, List.mem_cons, not_or,
      ne_comm]
    tauto

/-- With a writer-routed statement in the batch, the batch goes to the writer exactly if the route
survives. -/
theorem foldl_after_survives (h : ∃ m ∈ marks, m.route = some .writer) (route : Route) :
    marks.foldl Mark.after route = .writer ↔ Survives marks := by
  rw [foldl_after_eq_writer_iff]
  refine ⟨?_, .inl⟩
  rintro (h | ⟨-, hl⟩)
  · exact h
  · obtain ⟨m, hm, hr⟩ := h
    obtain ⟨pre, post, rfl⟩ := List.append_of_mem hm
    refine ⟨pre, m, post, rfl, ?_, fun h => hl (by simp [h])⟩
    cases m with
    | parse r pinned => exact .inl (Option.some.inj hr)
    | bind r => exact Option.some.inj hr
    | other => cases hr

section BatchRoute

variable [External]

/-- What a message of a batch says in proxy mode; the calls of a Parse begin with the rewriter and
the clock. -/
def batchMark (st : Relay) (msg : Message) (tr : Trace Ans) (st₁ : Relay) : Mark :=
  if msg.type = msgParse then
    match tr with
    | ⟨.rewriter, rules⟩ :: ⟨.now, now⟩ :: _ =>
      .parse (st.registeredRoute rules now msg) st₁.session.pinned
    | _ => .other
  else if msg.type = msgBind then
    .bind (st.session.statementRoute (parseBindMessage msg.payload).2)
  else .other

inductive Batch : Relay → List Mark → Relay → Prop
  | nil : Batch st [] st
  | cons : msg.type ≠ msgQuery → msg.type ≠ msgSync →
      Runs (handleExtended st msg) tr (.inl st₁) → Batch st₁ marks st₂ →
      Batch st (batchMark st msg tr st₁ :: marks) st₂

structure InBatch (st : Relay) (marks : List Mark) (st' : Relay) : Prop where
  synth : st'.synth = none
  boundWriter : st'.boundWriter = st.boundWriter
  boundReader : st'.boundReader = st.boundReader
  inTransaction : st'.session.inTransaction = st.session.inTransaction
  extBuf : ∃ ms, st'.extBuf = st.extBuf ++ ms ∧ ∀ m ∈ ms, m.type ≠ msgQuery
  extRoute : st.session.inTransaction = false → st.boundWriter = none →
    st'.extRoute = marks.foldl Mark.after st.extRoute

omit [External] in
theorem InBatch.append (h₁ : InBatch st marks₁ st₁) (h₂ : InBatch st₁ marks₂ st₂) :
    InBatch st (marks₁ ++ marks₂) st₂ where
  synth := h₂.synth
  boundWriter := h₂.boundWriter.trans h₁.boundWriter
  boundReader := h₂.boundReader.trans h₁.boundReader
  inTransaction := h₂.inTransaction.trans h₁.inTransaction
  extBuf := by
    obtain ⟨ms₁, he₁, hm₁⟩ := h₁.extBuf
    obtain ⟨ms₂, he₂, hm₂⟩ := h₂.extBuf
    refine ⟨ms₁ ++ ms₂, by rw [he₂, he₁, List.append_assoc], fun m hm => ?_⟩
    rcases List.mem_append.mp hm with hm | hm
    · exact hm₁ m hm
    · exact hm₂ m hm
  extRoute := by
    intro htx hb
    rw [h₂.extRoute (h₁.inTransaction.trans htx) (h₁.boundWriter.trans hb), h₁.extRoute htx hb,
      List.foldl_append]

omit [External] in
theorem forwardedParse_type (hm : msg.type = msgParse) :
    (forwardedParse rewritten msg).type = msgParse := by
  unfold forwardedParse
  split
  · rfl
  · exact hm

omit [External] in
theorem GuardedParse.inBatch (h : GuardedParse st st₁) :
    st₁.boundWriter = st.boundWriter ∧ st₁.boundReader = st.boundReader ∧
      st₁.session.inTransaction = st.session.inTransaction ∧ st₁.extBuf = st.extBuf := by
  rcases h with rfl | ⟨_, rfl⟩ | ⟨_, rfl⟩
  · exact ⟨rfl, rfl, rfl, rfl⟩
  · exact ⟨rfl, rfl, rfl, rfl⟩
  · refine ⟨rfl, rfl, ?_, rfl⟩
    simp only [Relay.pin, Session.pin]
    split <;> rfl

theorem handleParse_mark (h : Runs (handleParse st msg) tr (.inl st₁)) (hs : st.synth = none)
    (hm : msg.type = msgParse) : InBatch st [batchMark st msg tr st₁] st₁ := by
  obtain ⟨rules, now, t, rfl, cfg, st₂, -, hg, ok, hok, hr⟩ := handleParse_step h
  have hsynth : st₂.synth = none := by
    rw [hg.guarded.synth]
    simp [Relay.registered, Relay.register, hs]
  simp only [hok hs, proceed, if_true, Sum.inl.injEq] at hr
  obtain ⟨hw, hrd, htx, hbuf⟩ := hg.guarded.inBatch
  subst hr
  simp only [Relay.buffer, hsynth, Option.isSome_none, Bool.false_eq_true, if_false]
  refine ⟨rfl, hw, hrd, htx, ⟨[parsedMessage rules msg], by rw [hbuf]; rfl, ?_⟩, ?_⟩
  · simp only [List.mem_singleton]
    rintro m rfl
    rw [parsedMessage, forwardedParse_type hm]
    decide
  · intro hin hb
    have hin₂ : st₂.session.inTransaction = false := htx.trans hin
    have hb₂ : st₂.boundWriter = none := hw.trans hb
    simp [Relay.parseRoute, batchMark, hm, Mark.after, hin₂, hb₂]
    cases st.registeredRoute rules now msg <;> simp

theorem handleBind_mark (h : Runs (handleBind st msg) tr (.inl st₁)) (hs : st.synth = none)
    (hm : msg.type = msgBind) : InBatch st [batchMark st msg tr st₁] st₁ := by
  rcases handleBind_step h with ⟨-, hr⟩ | ⟨hy, -⟩ | ⟨_, _, hy, -⟩
  · cases hr
    have hp : msgBind ≠ msgParse := by decide
    simp only [Relay.buffer, Relay.bindFlags, hs, Option.isSome_none, Bool.false_eq_true, if_false]
    refine ⟨rfl, rfl, rfl, rfl, ⟨[msg], rfl, ?_⟩, fun _ _ => ?_⟩
    · simp [hm]
      decide
    · simp [batchMark, hm, hp, Mark.after]
  · simp [hs] at hy
  · simp [hs] at hy

omit [External] in
theorem inBatch_buffered (hs : st.synth = none) (hq : msg.type ≠ msgQuery) :
    InBatch st [.other] { st with extHasExecute := x, extBuf := st.extBuf ++ [msg] } where
  synth := hs
  boundWriter := rfl
  boundReader := rfl
  inTransaction := rfl
  extBuf := ⟨[msg], rfl, by simpa using hq⟩
  extRoute _ _ := rfl

omit [External] in
theorem closeStatement_eq (st : Relay) (payload : Bytes) : ∃ s y,
    st.closeStatement payload = { st with session := s, synth := y } ∧
      s.inTransaction = st.session.inTransaction := by
  unfold Relay.closeStatement
  dsimp only
  split
  · exact ⟨_, _, rfl, rfl⟩
  · exact ⟨st.session, st.synth, rfl, rfl⟩

theorem handleClose_mark (h : Runs (handleClose st msg) tr (.inl st₁)) (hs : st.synth = none)
    (hq : msg.type ≠ msgQuery) : InBatch st [.other] st₁ := by
  obtain ⟨ok, hok, hr⟩ := handleClose_step h
  simp only [hok hs, proceed, if_true, Sum.inl.injEq] at hr
  subst hr
  have hy : (st.closeStatement msg.payload).synth = none := by
    simpa [hs] using closeStatement_synth st msg.payload
  rw [Relay.buffer, if_neg (by simp [hy])]
  obtain ⟨s, y, he, htx⟩ := closeStatement_eq st msg.payload
  rw [he] at hy ⊢
  exact ⟨hy, rfl, rfl, htx, ⟨[msg], rfl, by simpa using hq⟩, fun _ _ => rfl⟩

theorem handleExtended_mark (h : Runs (handleExtended st msg) tr (.inl st₁))
    (hs : st.synth = none) (hq : msg.type ≠ msgQuery) (hy : msg.type ≠ msgSync) :
    InBatch st [batchMark st msg tr st₁] st₁ := by
  unfold handleExtended at h
  split at h
  · exact handleParse_mark h hs ‹_›
  split at h
  · exact handleBind_mark h hs ‹_›
  have hmark : batchMark st msg tr st₁ = .other := by simp [batchMark, *]
  rw [hmark]
  split at h
  · exact handleClose_mark h hs hq
  split at h
  · unfold handleDescribe at h
    split at h
    · simp_all
    · cases (runs_pure.mp h).2
      exact inBatch_buffered hs hq
  split at h
  · rw [handleExecute, if_neg (by simp [hs])] at h
    cases (runs_pure.mp h).2
    exact inBatch_buffered hs hq
  · rw [handleOther, if_neg (by simp [hs])] at h
    cases (runs_pure.mp h).2
    exact inBatch_buffered hs hq

theorem Batch.inBatch (h : Batch st marks st') (hs : st.synth = none) : InBatch st marks st' := by
  induction h with
  | nil => exact ⟨hs, rfl, rfl, rfl, ⟨[], by simp, by simp⟩, fun _ _ => rfl⟩
  | cons hq hy hr _ ih =>
    have h₁ := handleExtended_mark hr hs hq hy
    exact h₁.append (ih h₁.synth)

end BatchRoute

end Pgmux
