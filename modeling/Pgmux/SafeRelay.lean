import Pgmux.Policy

namespace Pgmux

open Interaction Custody

section SafeRelay

variable [External] {R : Bytes → Prop} {c : ConnId} {σ : Type} {D : Rules PoolId Traffic σ}
  {P : Policy R c D} {st st' : Relay}

omit [External] in
theorem Left.readerConn (h : Left st s st') : st'.readerConn = st.readerConn := by
  simp [Relay.readerConn, h.boundReader]

theorem Finish.safe (h : Finish R st c acquired p₁ s d ending rebinding leaving t r)
    (hr : st.readerConn ≠ some c)
    (ha : acquired = true → st.boundWriter = none ∧ P.inv p₁ d x)
    (hb : acquired = false →
      ∃ p, st.boundWriter = some ⟨c, p⟩ ∧ P.inv p d x ∧ (rebinding → P.inv p₁ d x))
    (he : D.lost ∨ (ending → st.boundWriter.isSome)) :
    Safe D (P.Own (Flow.state r)) (some x) (connActs c t) := by
  have hlost : acquired = true → ending → D.lost := by
    intro ht hn
    rcases he with he | he
    · exact he
    · simpa [(ha ht).1] using he hn
  cases h with
  | bind hre hl hw hd =>
    refine .writer hw (hl.readerConn ▸ hr) (hd ▸ ?_)
    cases hacq : acquired with
    | true => exact (ha hacq).2
    | false =>
      obtain ⟨p, -, -, hi⟩ := hb hacq
      exact hi (hre hacq)
  | keep hn hl hw hd =>
    cases hacq : acquired with
    | true =>
      refine .lost (hlost hacq (hn hacq)) ?_ (hl.readerConn ▸ hr)
      simp [Relay.boundConn, hw, (ha hacq).1]
    | false =>
      obtain ⟨p, hp, hi, -⟩ := hb hacq
      exact .writer (hw.trans hp) (hl.readerConn ▸ hr) (hd ▸ hi)
  | unbind hn hh hd hl hw =>
    rename_i d' st' _
    rw [state_proceed]
    have hc : st'.boundConn ≠ some c := by simp [Relay.boundConn, hw]
    cases hacq : acquired with
    | true =>
      have hpool : st.boundPool = none := by simp [Relay.boundPool, (ha hacq).1]
      rw [hpool] at hh
      refine (P.lose (hlost hacq (hn hacq)) (P.weaken (ha hacq).2 hd) hh).mono ?_
      rintro _ ⟨x', rfl⟩
      exact .lost (hlost hacq (hn hacq)) hc (hl.readerConn ▸ hr)
    | false =>
      obtain ⟨p, hp, hi, -⟩ := hb hacq
      have hpool : st.boundPool = some p := by simp [Relay.boundPool, hp]
      rw [hpool] at hh
      refine (P.back (P.weaken hi hd) hh).mono ?_
      rintro _ rfl
      exact .free hc (hl.readerConn ▸ hr)
  | back hacq hh hd hl hw =>
    obtain ⟨hn, hi⟩ := ha hacq
    refine (P.back (P.weaken hi hd) hh).mono ?_
    rintro _ rfl
    exact .free (by simp [Relay.boundConn, hw, hn]) (hl.readerConn ▸ hr)

theorem Finish.other (h : Finish R st c' acquired p₁ s d ending rebinding leaving t r) (hc : c' ≠ c)
    (hO : P.Own st S) (hw : st.boundConn ≠ some c) :
    Safe D (P.Own (Flow.state r)) S (connActs c t) := by
  cases h with
  | bind _ hl hb => exact hO.other hw (by simp [Relay.boundConn, hb, hc]) hl.boundReader
  | keep _ hl hb =>
    exact hO.other hw (by simpa [Relay.boundConn, hb] using hw) hl.boundReader
  | unbind _ hh _ hl hb =>
    rw [hh.only.connActs hc, state_proceed]
    exact hO.other hw (by simp [Relay.boundConn, hb]) hl.boundReader
  | back _ hh _ hl hb =>
    rw [hh.only.connActs hc]
    exact hO.other hw (by simpa [Relay.boundConn, hb] using hw) hl.boundReader

/-- What a policy asks of a writer path. After a panic the flag of a bound connection is the one
from before, and a new connection is lost. -/
structure Policy.Writes (P : Policy R c D) (panics : Prop) (st : Relay) (ms : List Message)
    (d : Bool) (ending rebinding : Prop) (t : Trace Ans) : Prop where
  serves : P.Serves ms (st.boundWriter.isSome && st.connDirty) d
  pools : ∀ p₁ p₂, ⟨.writerPool, p₁⟩ ∈ t → ⟨.writerPool, p₂⟩ ∈ t → P.Repool p₂ p₁
  rebinds : ∀ lease p, st.boundWriter = some lease → rebinding → ⟨.writerPool, p⟩ ∈ t →
    P.Repool lease.pool p
  ends : D.lost ∨ (ending → st.boundWriter.isSome)
  aborts : panics → (st.boundWriter = none → D.lost) ∧
    (st.boundWriter.isSome → P.Serves ms st.connDirty st.connDirty)
  tracks : ∀ pre t₁ t₂ post, t = pre ++ (t₁ ++ (t₂ ++ post)) → Exchange c ms t₁ true →
    Tracked c t₂ → ∀ p d s, P.inv p d s →
      Safe D (fun x => ∃ s', x = some s' ∧ P.inv p d s') (some s) (connActs c t₂)

theorem Obtained.cases_conn (h : Obtained st.boundConn p₁ t (some (c', acquired))) :
    (acquired = false ∧ st.boundConn = some c' ∧ t = [⟨.writerPool, p₁⟩]) ∨
      (acquired = true ∧ st.boundWriter = none ∧ ∃ p₂,
        t = [⟨.writerPool, p₁⟩, ⟨.writerPool, p₂⟩, ⟨.acquire p₂, some c'⟩]) := by
  cases h with
  | bound hb => exact .inl ⟨rfl, hb, rfl⟩
  | fresh hb => exact .inr ⟨rfl, by simpa [Relay.boundConn] using hb, _, rfl⟩

theorem WriterPath.other (hc : c' ≠ c)
    (ho : Obtained st.boundConn p₁ t (some (c', acquired))) :
    connActs c t = [] ∧ st.boundConn ≠ some c := by
  rcases ho.cases_conn with ⟨-, hb, rfl⟩ | ⟨-, hb, p₂, rfl⟩
  · exact ⟨by simp [connActs, eventConn], by simp [hb, hc]⟩
  · exact ⟨by simp [connActs, eventConn, hc], by simp [Relay.boundConn, hb]⟩

theorem Obtained.safe (ho : Obtained st.boundConn p₁ t (some (c, acquired))) (hO : P.Own st S)
    (hx : ∀ p s, (acquired = false ∧ st.boundWriter = some ⟨c, p⟩ ∨
        acquired = true ∧ st.boundWriter = none ∧ ⟨.writerPool, p⟩ ∈ t) →
      st.readerConn ≠ some c → P.inv p (st.boundWriter.isSome && st.connDirty) s →
      Safe D Q (some s) rest) :
    Safe D Q S (connActs c t ++ rest) := by
  rcases ho.cases_conn with ⟨rfl, hb, rfl⟩ | ⟨rfl, hb, p₂, rfl⟩
  · have ht : connActs c ([⟨.writerPool, p₁⟩] : Trace Ans) = [] := by simp [connActs, eventConn]
    rw [ht, List.nil_append]
    cases hO with
    | free h₁ => exact (h₁ hb).elim
    | writer h₁ h₂ h₃ => exact hx _ _ (.inl ⟨rfl, h₁⟩) h₂ (by simpa [h₁] using h₃)
    | reader h₁ => exact (h₁ hb).elim
    | lost _ h₁ => exact (h₁ hb).elim
  · have ht : connActs c
        ([⟨.writerPool, p₁⟩, ⟨.writerPool, p₂⟩, ⟨.acquire p₂, some c⟩] : Trace Ans) =
        [.take p₂] := by simp [connActs, eventConn, eventAct]
    rw [ht]
    cases hO with
    | free h₁ h₂ =>
      intro s hf
      exact hx p₂ s (.inr ⟨rfl, hb, by simp⟩) h₂ (by simpa [hb] using P.fresh hf)
    | writer => trivial
    | reader => trivial
    | lost => trivial

theorem Obtained.looked (ho : Obtained st.boundConn p₁ t r) : ⟨.writerPool, p₁⟩ ∈ t := by
  cases ho <;> simp

theorem Dropped.safe (hd : Dropped st c p₁ acquired t st')
    (hb : acquired = false ∧ st.boundWriter = some ⟨c, p⟩ ∨
      acquired = true ∧ st.boundWriter = none ∧ P.Repool p p₁)
    (hr : st.readerConn ≠ some c) (hg : D.gone p s) :
    Safe D (P.Own st') (some s) (connActs c t) := by
  rcases hb with ⟨rfl, hb⟩ | ⟨rfl, hb, hp⟩
  · cases hd with
    | bound h =>
      obtain rfl := Option.some.inj (hb.symm.trans h)
      rw [connActs_discard]
      exact ⟨hg, .free (by simp [Relay.boundConn]) hr⟩
    | unbound h => simp [hb] at h
  · cases hd with
    | fresh =>
      rw [connActs_discard]
      exact ⟨(hp s).2 hg, .free (by simp [Relay.boundConn, hb]) hr⟩

theorem Dropped.other (hd : Dropped st c' p₁ acquired t st') (hc : c' ≠ c)
    (hb : st.boundConn ≠ some c) (hO : P.Own st S) : Safe D (P.Own st') S (connActs c t) := by
  cases hd with
  | fresh =>
    rw [connActs_skip _ _ (by simp [eventConn, hc]), connActs_nil]
    exact hO
  | bound h =>
    rename_i lease
    have hl : lease.conn ≠ c := by simpa [Relay.boundConn, h] using hb
    rw [connActs_skip _ _ (by simp [eventConn, hl]), connActs_nil]
    exact hO.other hb (by simp [Relay.boundConn]) rfl
  | unbound h => exact hO

theorem WriterPath.safe (h : WriterPath R panics st ms fin t r) (hO : P.Own st S)
    (hp : P.Writes panics st ms d ending rebinding t)
    (hfin : ∀ s c' p₁ tr r, Runs (fin { st with session := s } c' st.boundWriter.isNone p₁) tr r →
      Configured R tr → ∃ s' leaving, Finish R { st with session := s } c' st.boundWriter.isNone
        p₁ s' d ending rebinding leaving (conn tr) r) :
    Safe D (P.Own (Flow.state r)) S (connActs c t) := by
  cases h with
  | refused ho =>
    have : connActs c t = [] := by cases ho <;> simp [connActs, eventConn]
    rw [this]
    exact hO
  | failed ho hx hd =>
    rename_i p₁ t c' acquired t₁ t₂ st'
    rw [connActs_append, connActs_append]
    by_cases hc : c' = c
    · subst hc
      refine ho.safe hO fun p s hb hr hi => ?_
      refine (hp.serves p s t₁ false hi hx).append ?_
      rintro _ ⟨s', rfl, hg⟩
      refine hd.safe ?_ hr (by simpa using hg)
      rcases hb with hb | ⟨ha, hn, hm⟩
      · exact .inl hb
      · exact .inr ⟨ha, hn, hp.pools _ _ (by simp [ho.looked]) (by simp [hm])⟩
    · obtain ⟨ht, hb⟩ := WriterPath.other hc ho
      rw [ht, hx.only.connActs hc, List.nil_append, List.nil_append]
      exact hd.other hc hb hO
  | panicked ho hpan hx ht =>
    rename_i p₁ t c' acquired t₁ t₂
    obtain ⟨hlost, hdirty⟩ := hp.aborts hpan
    rw [connActs_append, connActs_append]
    by_cases hc : c' = c
    · subst hc
      refine ho.safe hO fun p x hb hrc hi => ?_
      have htrack := hp.tracks t t₁ t₂ [] (by simp) hx ht p
      rcases hb with ⟨-, hb⟩ | ⟨-, hb, -⟩
      · have hsome : st.boundWriter.isSome := by simp [hb]
        refine (hdirty hsome p x t₁ true (by simpa [hsome] using hi) hx).append ?_
        rintro _ ⟨x', rfl, hi'⟩
        refine (htrack st.connDirty x' (by simpa using hi')).mono ?_
        rintro _ ⟨y, rfl, hi⟩
        exact .writer hb hrc hi
      · refine (hp.serves p x t₁ true hi hx).append ?_
        rintro _ ⟨x', rfl, hi'⟩
        refine (htrack d x' (by simpa using hi')).mono ?_
        rintro _ ⟨y, rfl, -⟩
        exact .lost (hlost hb) (by simp [Relay.boundConn, hb]) hrc
    · rw [(WriterPath.other hc ho).1, hx.only.connActs hc, ht.talk.only.connActs hc]
      exact hO
  | served ho hx ht hs hr hR =>
    rename_i p₁ t c' acquired t₁ t₂ s tr
    have hacq : acquired = st.boundWriter.isNone := by
      rcases ho.cases_conn with ⟨rfl, h, -⟩ | ⟨rfl, h, -⟩
      · cases hw : st.boundWriter with
        | none => simp [Relay.boundConn, hw] at h
        | some l => rfl
      · simp [h]
    rw [hacq] at hr
    obtain ⟨s', leaving, hf⟩ := hfin _ _ _ _ _ hr hR
    rw [connActs_append, connActs_append, connActs_append]
    by_cases hc : c' = c
    · subst hc
      refine ho.safe hO fun p x hb hrc hi => ?_
      refine (hp.serves p x t₁ true hi hx).append ?_
      rintro _ ⟨x', rfl, hi'⟩
      refine (hp.tracks t t₁ t₂ (conn tr) rfl hx ht p d x' (by simpa using hi')).append ?_
      rintro _ ⟨y, rfl, hi⟩
      have hlook : (⟨.writerPool, p₁⟩ : Event) ∈ t ++ (t₁ ++ (t₂ ++ conn tr)) := by
        simp [ho.looked]
      refine hf.safe hrc ?_ ?_ hp.ends
      · intro ha
        rcases hb with ⟨hfalse, -⟩ | ⟨-, hn, hm⟩
        · simp [← hacq, hfalse] at ha
        · exact ⟨hn, (hp.pools p₁ p hlook (by simp [hm]) y).1 d hi⟩
      · intro ha
        rcases hb with ⟨-, hn⟩ | ⟨htrue, -⟩
        · exact ⟨p, hn, hi, fun hre => (hp.rebinds _ p₁ hn hre hlook y).1 d hi⟩
        · simp [← hacq, htrue] at ha
    · obtain ⟨h₁, hb⟩ := WriterPath.other hc ho
      rw [h₁, hx.only.connActs hc, ht.talk.only.connActs hc]
      exact hf.other hc (hO.kept rfl rfl id) hb

theorem Steady.writes (hD : Steady D)
    (hp : ∀ p₁ p₂, ⟨.writerPool, p₁⟩ ∈ t → ⟨.writerPool, p₂⟩ ∈ t →
      (hD.policy (R := R) (c := c)).Repool p₂ p₁)
    (hr : ∀ lease p, st.boundWriter = some lease → rebinding → ⟨.writerPool, p⟩ ∈ t →
      (hD.policy (R := R) (c := c)).Repool lease.pool p)
    (he : D.lost ∨ (ending → st.boundWriter.isSome))
    (ha : panics → st.boundWriter = none → D.lost) :
    (hD.policy (R := R) (c := c)).Writes panics st ms d ending rebinding t where
  serves := hD.serves
  pools := hp
  rebinds := hr
  ends := he
  aborts hp := ⟨ha hp, fun _ => hD.serves⟩
  tracks _ _ _ _ _ _ ht _ _ _ hi := hD.talk ht.talk hi

theorem Policy.Writes.suffix (h : P.Writes panics st ms d ending rebinding (t₀ ++ t)) :
    P.Writes panics st ms d ending rebinding t where
  serves := h.serves
  pools p₁ p₂ h₁ h₂ := h.pools p₁ p₂ (List.mem_append_right _ h₁) (List.mem_append_right _ h₂)
  rebinds lease p hw hr hm := h.rebinds lease p hw hr (List.mem_append_right _ hm)
  ends := h.ends
  aborts := h.aborts
  tracks pre t₁ t₂ post ht := h.tracks (t₀ ++ pre) t₁ t₂ post (by simp [ht])

theorem Policy.Writes.unread (h : P.Writes panics st ms d ending rebinding t) :
    P.Writes panics { st with boundReader := none } ms d ending rebinding t :=
  ⟨h.serves, h.pools, h.rebinds, h.ends, h.aborts, h.tracks⟩

/-- The query is a write whose tables cannot be extracted, and the cache is on. -/
def Panicking (tr : Trace Ans) (query : Bytes) : Prop :=
  ∃ cfg : Config, ⟨.config, cfg⟩ ∈ tr ∧ classifyBy cfg.astParser query = .write ∧
    Panics (· ∈ tr) query

/-- The tables of a write can be extracted where the cache is on. -/
def Extractable (tr : Trace Ans) (query : Bytes) : Prop :=
  true ∈ answers .queryCache tr → ∀ cfg ∈ configsSeen tr, classifyBy cfg.astParser query = .write →
    ∀ cfg' ∈ configsSeen tr, (writeTables cfg'.astParser query).isSome = true

instance (tr : Trace Ans) (query : Bytes) : Decidable (Extractable tr query) :=
  inferInstanceAs (Decidable (_ → _))

theorem Extractable.survives (h : Extractable tr query) : ¬ Panicking tr query := by
  rintro ⟨cfg, hcfg, hw, hc, cfg', hcfg', hn⟩
  have := h (mem_answers.mpr hc) cfg (mem_answers.mpr hcfg) hw cfg' (mem_answers.mpr hcfg')
  simp [hn] at this

structure Policy.Admits (P : Policy R c D) (st : Relay) (tr : Trace Ans) : Prop where
  read : ∀ msg rules now st₁, received tr = some msg → msg.type = msgQuery →
    ⟨.rewriter, rules⟩ ∈ tr → ⟨.now, now⟩ ∈ tr → Guarded st st₁ →
    (st₁.session.routeQueryLocked now (checkedText rules msg)).1 = .reader →
    P.Serves [msg] false false
  write : ∀ msg rules now st₁, received tr = some msg → msg.type = msgQuery →
    ⟨.rewriter, rules⟩ ∈ tr → ⟨.now, now⟩ ∈ tr → Guarded st st₁ →
    (st₁.session.routeQueryLocked now (checkedText rules msg)).1 = .writer →
    P.Writes (Panicking tr (checkedText rules msg)) st₁ [msg]
      (st₁.connDirty || isSessionModifying (checkedText rules msg))
      (st₁.session.inTransaction = true ∧
        (st₁.session.routeQueryLocked now (checkedText rules msg)).2.inTransaction = false)
      False (conn tr)
  describe : ∀ msg synth stmt, received tr = some msg → st.synth = some synth →
    describeTarget synth msg.payload = .ok stmt → P.Serves (describeBatch stmt.query) false true
  synthRead : ∀ msg synth detail query, received tr = some msg → msg.type = msgSync →
    st.synth = some synth → st.muxBindDetail = some detail →
    synth.synthesize detail.statementName detail.parameters detail.formatCodes = some query →
    st.readsBatch = true → P.Serves [queryMessage query] false false
  synthWrite : ∀ msg synth detail query, received tr = some msg → msg.type = msgSync →
    st.synth = some synth → st.muxBindDetail = some detail →
    synth.synthesize detail.statementName detail.parameters detail.formatCodes = some query →
    st.readsBatch = false → P.Writes False st [queryMessage query]
      (st.connDirty || st.extTxEnd || (st.boundWriter.isNone && !st.extTxStart))
      (st.extTxEnd = true) (st.extTxStart = true ∧ st.extTxEnd = false) (conn tr)
  batchRead : ∀ msg, received tr = some msg → msg.type = msgSync → st.synth = none →
    st.readsBatch = true → P.Serves (st.extBuf ++ [msg]) false false
  batchWrite : ∀ msg, received tr = some msg → msg.type = msgSync → st.synth = none →
    st.readsBatch = false →
    P.Writes False st (st.extBuf ++ [msg]) st.connDirty (st.extTxEnd = true) False (conn tr)

theorem Policy.Own.unread (hO : P.Own st S) (hb : st.boundReader = some l) (hc : l.conn ≠ c) :
    P.Own { st with boundReader := none } S := by
  cases hO with
  | free h₁ h₂ => exact .free h₁ (by simp [Relay.readerConn])
  | writer h₁ h₂ h₃ => exact .writer h₁ (by simp [Relay.readerConn]) h₃
  | reader h₁ h₂ h₃ h₄ =>
    obtain rfl := Option.some.inj (hb.symm.trans h₂)
    exact (hc h₃).elim
  | lost h h₁ h₂ => exact .lost h h₁ (by simp [Relay.readerConn])

theorem Policy.Own.onReader (hO : P.Own st S) (hb : st.boundReader = some l) (ho : Only l.conn t)
    (hc : l.conn = c → ∀ s, st.boundConn ≠ some c → P.inv l.pool false s →
      Safe D Q (some s) (connActs c t))
    (hn : l.conn ≠ c → Q S) : Safe D Q S (connActs c t) := by
  by_cases h : l.conn = c
  · have hr : st.readerConn = some c := by simp [Relay.readerConn, hb, h]
    cases hO with
    | free _ h₂ => exact (h₂ hr).elim
    | writer _ h₂ => exact (h₂ hr).elim
    | reader h₁ h₂ h₃ h₄ =>
      obtain rfl := Option.some.inj (hb.symm.trans h₂)
      exact hc h _ h₁ h₄
    | lost _ _ h₂ => exact (h₂ hr).elim
  · rw [ho.connActs h]
    exact hn h

theorem ReaderGone.safe (h : ReaderGone R st t st') (hO : P.Own st S) :
    Safe D (P.Own st') S (connActs c t) := by
  cases h with
  | absent => exact hO
  | released hb hh =>
    refine hO.onReader hb hh.only ?_ fun hc => hO.unread hb hc
    rintro rfl s h₁ hi
    refine (P.back (P.mono hi) hh).mono ?_
    rintro _ rfl
    exact .free h₁ (by simp [Relay.readerConn])

theorem ReaderPath.safe (h : ReaderPath R st ms t r) (hO : P.Own st S)
    (hw : st.boundWriter = none) (hs : P.Serves ms false false) :
    Safe D (P.Own (Flow.state r)) S (connActs c t) := by
  cases h with
  | kept hb hx hn =>
    refine hO.onReader hb hx.only ?_ fun _ => hO
    rintro rfl s h₁ hi
    refine (hs _ s t true hi hx).mono ?_
    rintro _ ⟨s', rfl, hi'⟩
    exact .reader h₁ hb rfl (by simpa using hi')
  | released hb hx he =>
    rename_i l t
    refine hO.onReader hb (hx.only.append (.cons rfl .nil)) ?_ fun hc => hO.unread hb hc
    rintro rfl s h₁ hi
    rw [connActs_append]
    refine (hs _ s t true hi hx).append ?_
    rintro _ ⟨s', rfl, hi'⟩
    refine (P.back (by simpa using hi') .plain).mono ?_
    rintro _ rfl
    exact .free h₁ (by simp [Relay.readerConn])
  | broken hb hx =>
    rename_i l t
    refine hO.onReader hb (hx.only.append (.cons rfl .nil)) ?_ fun hc => hO.unread hb hc
    rintro rfl s h₁ hi
    rw [connActs_append, connActs_discard]
    refine (hs _ s t false hi hx).append ?_
    rintro _ ⟨s', rfl, hg⟩
    exact ⟨by simpa using hg, .free h₁ (by simp [Relay.readerConn])⟩
  | bound hb hn hv hx =>
    rename_i t₀ c' t p addr
    have hbc : st.boundConn ≠ some c := by simp [Relay.boundConn, hw]
    rw [connActs_append]
    refine (hv.safe hs S).append ?_
    rintro _ rfl
    by_cases hc : c' = c
    · subst hc
      rw [connActs_cons _ _ rfl rfl]
      cases hO with
      | free h₁ h₂ =>
        intro s hf
        refine (hs p s t true (P.fresh hf) hx).mono ?_
        rintro _ ⟨s', rfl, hi⟩
        exact .reader (l := ⟨c', p, addr⟩) hbc rfl rfl (by simpa using hi)
      | writer => trivial
      | reader => trivial
      | lost => trivial
    · rw [(Only.cons rfl hx.only).connActs hc]
      have hr : (Relay.readerConn { st with boundReader := some ⟨c', p, addr⟩ }) ≠ some c := by
        simp [Relay.readerConn, hc]
      cases hO with
      | free h₁ h₂ => exact .free hbc hr
      | writer h₁ => simp [hw] at h₁
      | reader h₁ h₂ => simp [hb] at h₂
      | lost h h₁ h₂ => exact .lost h hbc hr
  | visits hb hv =>
    rw [state_proceed]
    refine (hv.safe hs S).mono ?_
    rintro _ rfl
    exact hO

theorem Policy.Own.endBatch {r : Flow} (h : P.Own (Flow.state r) S) :
    P.Own (Flow.state (r.map Relay.endBatch id)) S := by
  cases r with
  | inl st => exact Own.kept h rfl rfl id
  | inr st => exact h

theorem SyncStep.safe (h : SyncStep R (· ∈ tr) st msg (conn tr) r) (hO : P.Own st S)
    (hm : received tr = some msg) (ht : msg.type = msgSync) (hp : P.Admits st tr) :
    Safe D (P.Own (Flow.state r)) S (connActs c (conn tr)) := by
  generalize hconn : conn tr = t at h
  cases h with
  | rejected hg => exact (hg.safe hO).mono fun S' h => h.kept rfl rfl id
  | noBind hy hm' hu =>
    rcases hu with ⟨rfl, rfl⟩ | hg
    · exact hO.kept rfl rfl id
    · exact (hg.safe hO).mono fun S' h => h.kept rfl rfl id
  | synthFailed hy hm' hq hu =>
    rcases hu with ⟨rfl, rfl⟩ | hg
    · exact hO.kept rfl rfl id
    · exact (hg.safe hO).mono fun S' h => h.kept rfl rfl id
  | synthRead hy hd hq hb hr hv =>
    refine (hv.safe (hp.synthRead _ _ _ _ hm ht hy hd hq hr) S).mono ?_
    rintro _ rfl
    exact Policy.Own.endBatch (by rwa [state_proceed])
  | synthWrite hy hd hq hb hr hg hx =>
    rw [connActs_append]
    refine (hg.safe hO).append fun S' hO' => ?_
    have hwr := hp.synthWrite _ _ _ _ hm ht hy hd hq hr
    rw [hconn] at hwr
    have hsame := hg.same
    subst hsame
    refine (hx.safe hO' hwr.suffix.unread ?_).mono fun _ h => h.endBatch
    intro s c' p₁ tr r hrun hR
    exact ⟨_, _, finishSynthesized_finish hrun hR⟩
  | batchRead hy hb hr hx =>
    have hw : st.boundWriter = none := by
      simp only [Relay.readsBatch, Bool.and_eq_true, Option.isNone_iff_eq_none] at hr
      exact hr.2
    exact (hx.safe hO hw (hp.batchRead _ hm ht hy hr)).mono fun _ h => h.endBatch
  | batchWrite hy hb hr hg hx =>
    rw [connActs_append]
    refine (hg.safe hO).append fun S' hO' => ?_
    have hwr := hp.batchWrite _ hm ht hy hr
    rw [hconn] at hwr
    have hsame := hg.same
    subst hsame
    refine (hx.safe hO' hwr.suffix.unread ?_).mono fun _ h => h.endBatch
    intro s c' p₁ tr r hrun hR
    exact ⟨_, _, finishBatch_finish hrun hR⟩

omit [External] in
theorem Guarded.kept (h : Guarded st st₁) : st₁.boundWriter = st.boundWriter ∧
    st₁.boundReader = st.boundReader ∧ (st.connDirty → st₁.connDirty) := by
  rcases h with rfl | ⟨_, rfl⟩
  · exact ⟨rfl, rfl, id⟩
  · exact ⟨rfl, rfl, fun _ => rfl⟩

theorem QueryStep.safe (h : QueryStep R (· ∈ tr) st msg (conn tr) r) (hO : P.Own st S)
    (hm : received tr = some msg) (ht : msg.type = msgQuery) (hp : P.Admits st tr) :
    Safe D (P.Own (Flow.state r)) S (connActs c (conn tr)) := by
  generalize hconn : conn tr = t at h
  cases h with
  | blocked => exact hO
  | readOnly hrules hnow hg hro =>
    obtain ⟨hw, hr, hd⟩ := hg.guarded.kept
    exact hO.kept hw hr hd
  | write hrules hnow hg hcfg hro hb hroute hx =>
    obtain ⟨hw, hr, hd⟩ := hg.guarded.kept
    have hwr := hp.write _ _ _ _ hm ht hrules hnow hg.guarded hroute
    rw [hconn] at hwr
    refine hx.safe (hO.kept hw hr hd) ⟨hwr.serves, hwr.pools, hwr.rebinds, hwr.ends,
      fun hp => hwr.aborts ⟨_, hcfg, hp⟩, hwr.tracks⟩ ?_
    intro s c' p₁ tr r hrun hR
    exact ⟨_, _, finishQuery_finish hrun hR⟩
  | read hrules hnow hg hroute _ hv =>
    obtain ⟨hw, hr, hd⟩ := hg.guarded.kept
    rw [state_proceed]
    refine (hv.safe (hp.read _ _ _ _ hm ht hrules hnow hg.guarded hroute) S).mono ?_
    rintro _ rfl
    exact hO.kept hw hr hd

omit [External] in
theorem buffer_kept (st : Relay) (msg : Message) : (st.buffer msg).boundWriter = st.boundWriter ∧
    (st.buffer msg).boundReader = st.boundReader ∧ (st.buffer msg).connDirty = st.connDirty := by
  unfold Relay.buffer
  split <;> exact ⟨rfl, rfl, rfl⟩

omit [External] in
theorem closeStatement_kept (st : Relay) (payload : Bytes) :
    (st.closeStatement payload).boundWriter = st.boundWriter ∧
      (st.closeStatement payload).boundReader = st.boundReader ∧
      (st.closeStatement payload).connDirty = st.connDirty := by
  unfold Relay.closeStatement
  dsimp only
  split <;> exact ⟨rfl, rfl, rfl⟩

theorem ParseStep.own (h : ParseStep seen st msg rules now r) (hO : P.Own st S) :
    P.Own (Flow.state r) S := by
  obtain ⟨cfg, st₁, -, hg, ok, -, rfl⟩ := h
  obtain ⟨hw, hr, hd⟩ := buffer_kept
    { st₁ with extRoute := st₁.parseRoute (st.registeredRoute rules now msg) }
    (parsedMessage rules msg)
  have hO₁ : P.Own st₁ S := by
    rcases hg.guarded with rfl | ⟨_, rfl⟩ | ⟨_, rfl⟩
    · exact hO.kept rfl rfl id
    · exact hO.kept rfl rfl id
    · exact hO.kept rfl rfl fun _ => rfl
  rw [state_proceed]
  exact hO₁.kept hw hr hd.trans

theorem BindStep.own (h : BindStep st msg r) (hO : P.Own st S) : P.Own (Flow.state r) S := by
  rcases h with ⟨-, rfl⟩ | ⟨-, rfl⟩ | ⟨detail, ok, -, -, rfl⟩
  · obtain ⟨hw, hr, hd⟩ := buffer_kept (st.bindFlags (parseBindMessage msg.payload).2) msg
    exact hO.kept hw hr hd.trans
  · exact hO
  · rw [state_proceed]
    exact hO.kept rfl rfl id

theorem Noted.own_close (h : Noted st ((st.closeStatement msg.payload).buffer msg) r)
    (hO : P.Own st S) : P.Own (Flow.state r) S := by
  obtain ⟨ok, -, rfl⟩ := h
  obtain ⟨hw, hr, hd⟩ := buffer_kept (st.closeStatement msg.payload) msg
  obtain ⟨hw', hr', hd'⟩ := closeStatement_kept st msg.payload
  rw [state_proceed]
  exact hO.kept (hw.trans hw') (hr.trans hr') (hd.trans hd').trans

theorem Step.safe (h : Step R st tr r) (hO : P.Own st S) (hp : P.Admits st tr) :
    Safe D (P.Own (Flow.state r)) S (connActs c (conn tr)) := by
  cases h with
  | idle hc =>
    rw [hc, state_proceed]
    exact hO
  | query hm ht hx => exact hx.safe hO hm ht hp
  | parse hm ht hc _ hx =>
    rw [hc]
    exact hx.own hO
  | bind hm ht hc hx =>
    rw [hc]
    exact hx.own hO
  | close hm ht hc hx =>
    rw [hc]
    exact hx.own_close hO
  | describe hm _ hs hd hv =>
    rw [state_proceed]
    refine (hv.safe (hp.describe _ _ _ hm hs hd) S).mono ?_
    rintro _ rfl
    exact hO
  | buffered hm hs _ h₁ h₂ h₃ h₄ hc hx =>
    rw [hc]
    exact hO.kept rfl rfl id
  | sync hm ht hx => exact hx.safe hO hm ht hp

theorem relayStep_safe (h : Runs (relayStep st) tr r) (hR : Configured R tr) (hO : P.Own st S)
    (hp : P.Admits st tr) : Safe D (P.Own (Flow.state r)) S (connActs c tr) := by
  rw [← connActs_conn]
  exact (relayStep_step h hR).safe hO hp

theorem rounds_safe (h : Rounds relayStep st rs st') (hR : Configured R (flat rs))
    (hO : P.Own st S) (hp : ∀ r ∈ rs, P.Admits r.1 r.2) :
    Safe D (P.Own st') S (connActs c (flat rs)) := by
  induction h generalizing S with
  | leave hr =>
    simpa [flat] using relayStep_safe hr (by simpa [flat] using hR) hO (hp _ (.head _))
  | again hr _ ih =>
    rw [flat_cons] at hR ⊢
    rw [connActs_append]
    refine (relayStep_safe hr hR.left hO (hp _ (.head _))).append fun S' hO' => ?_
    exact ih hR.right hO' fun r hr => hp r (.tail _ hr)

theorem releaseWriter_safe (h : Runs (releaseWriter st) tr ()) (hR : Configured R tr)
    (hO : P.Own st S) :
    Safe D (P.Own { st with boundWriter := none }) S (connActs c tr) := by
  have hn : Relay.boundConn { st with boundWriter := none } ≠ some c := by simp [Relay.boundConn]
  unfold releaseWriter at h
  cases hw : st.boundWriter with
  | none =>
    rw [hw] at h
    obtain ⟨rfl, -⟩ := runs_pure.mp h
    exact hO.kept hw.symm rfl id
  | some lease =>
    rw [hw] at h
    obtain ⟨t₁, alive, t₂, rfl, h₁, h⟩ := h.of_seq
    obtain ⟨rfl, -⟩ := runs_pure.mp h
    have hh := (handBack_handedBack h₁ hR.left).1
    rw [List.append_nil, ← connActs_conn]
    by_cases hc : lease.conn = c
    · cases hO with
      | free h₁ => simp [Relay.boundConn, hw, hc] at h₁
      | writer h₁ h₂ h₃ =>
        obtain rfl := Option.some.inj (hw.symm.trans h₁)
        refine (P.back h₃ hh).mono ?_
        rintro _ rfl
        exact .free hn h₂
      | reader h₁ => simp [Relay.boundConn, hw, hc] at h₁
      | lost _ h₁ => simp [Relay.boundConn, hw, hc] at h₁
    · rw [hh.only.connActs hc]
      exact hO.other (by simp [Relay.boundConn, hw, hc]) hn rfl

theorem ReaderGone.unbound (h : ReaderGone R st t st') :
    ReaderGone R { st with boundWriter := none } t { st' with boundWriter := none } := by
  cases h with
  | absent hb => exact .absent hb
  | released hb hh => exact .released hb hh

theorem cleanup_safe (h : Runs (cleanup st) tr ()) (hR : Configured R tr) (hO : P.Own st S) :
    Safe D (fun S => S = none ∨ D.lost) S (connActs c tr) := by
  obtain ⟨t₁, _, t₂, rfl, h₁, h⟩ := h.of_seq
  obtain ⟨t₃, st', t₄, rfl, h₃, h⟩ := h.of_seq
  obtain ⟨rfl, -⟩ := runs_pure.mp h
  rw [List.append_nil, connActs_append]
  refine (releaseWriter_safe h₁ hR.left hO).append fun S' hO' => ?_
  have hg := (releaseReader_gone h₃ hR.right.left).unbound
  rw [← connActs_conn]
  refine (hg.safe hO').mono fun S h => ?_
  cases h with
  | free => exact .inl rfl
  | writer h₁ => cases h₁
  | reader _ h₂ => rw [hg.same] at h₂; cases h₂
  | lost h => exact .inr h

theorem relayRun_safe (h : RelayRun dbName session multiplex rs t)
    (hR : Configured R (flat rs ++ t)) (hp : ∀ r ∈ rs, P.Admits r.1 r.2) :
    Safe D (fun S => S = none ∨ D.lost) none (connActs c (flat rs ++ t)) := by
  obtain ⟨st, hrs, hc⟩ := h
  rw [connActs_append]
  have hO : P.Own (Relay.init dbName session multiplex) none :=
    .free (by simp [Relay.boundConn, Relay.init]) (by simp [Relay.readerConn, Relay.init])
  exact (rounds_safe hrs hR.left hO hp).append fun S hO' => cleanup_safe hc hR.right hO'

end SafeRelay

end Pgmux
