import Pgmux.Collect
import Pgmux.WireRelay

namespace Pgmux.Wire

open ByteStream

variable {m d e : Message} {ms ds : List Message}

def copyOutOpen : Bool → List Message → Bool
  | inside, [] => inside
  | true, m :: ms => copyOutOpen (m.type = msgCopyData) ms
  | false, m :: ms => copyOutOpen (m.type = msgCopyOutResponse) ms

/-- The number of COPY IN sections: of the CopyInResponses outside COPY OUT sections. -/
def copyIns : Bool → List Message → Nat
  | _, [] => 0
  | true, m :: ms => copyIns (m.type = msgCopyData) ms
  | false, m :: ms =>
    (if m.type = msgCopyInResponse then 1 else 0) + copyIns (m.type = msgCopyOutResponse) ms

def CopyInStream (ms : List Message) : Prop :=
  ∃ ds e, ms = ds ++ [e] ∧ (∀ d ∈ ds, d.type = msgCopyData) ∧
    (e.type = msgCopyDone ∨ e.type = msgCopyFail)

def Sized (ms : List Message) : Prop := ∀ m ∈ ms, m.payload.length ≤ maxMessageSize

theorem Sized.head (h : Sized (m :: ms)) : m.payload.length ≤ maxMessageSize :=
  h m (.head _)

theorem Sized.tail (h : Sized (m :: ms)) : Sized ms := fun x hx => h x (.tail _ hx)

theorem Sized.left (h : Sized (ms ++ ms')) : Sized ms :=
  fun x hx => h x (List.mem_append_left _ hx)

theorem Sized.right (h : Sized (ms ++ ms')) : Sized ms' :=
  fun x hx => h x (List.mem_append_right _ hx)

def Sink.unlimited (written : Bytes) : Sink := ⟨written, none⟩

@[simp] theorem unlimited_write (written bs : Bytes) :
    (Sink.unlimited written).write bs = (true, .unlimited (written ++ bs)) := rfl

abbrev onWire (ms : List Message) (rest : Stream E) : Stream E := ofBytes (raws ms) ++ rest

theorem onWire_cons (m : Message) (ms : List Message) (rest : Stream E) :
    onWire (m :: ms) rest = ofBytes m.raw ++ onWire ms rest := by
  rw [onWire, raws_cons, ofBytes_append, List.append_assoc]

theorem onWire_append (ms ms' : List Message) (rest : Stream E) :
    onWire (ms ++ ms') rest = onWire ms (onWire ms' rest) := by
  rw [onWire, raws_append, ofBytes_append, List.append_assoc]

theorem onWire_one (m : Message) (rest : Stream E) :
    onWire [] (onWire [m] rest) = ofBytes m.raw ++ rest := by
  rw [onWire_cons]
  rfl

theorem readMessage_raw (hm : m.payload.length ≤ maxMessageSize) (rest : Stream E) :
    readMessage (ofBytes m.raw ++ rest) = (.ok ⟨m.type, m.payload, some m.raw⟩, rest) :=
  readMessage_write m.type m.payload hm rest

theorem passToBackend_ok {w : Wires E} (hread : readMessage w.client = (.ok msg, s))
    (hwrite : w.toBackend.write (forwardRaw msg) = (true, sink)) :
    w.passToBackend = (.ok msg, { w with client := s, toBackend := sink }) := by
  unfold Wires.passToBackend
  rw [hread]
  dsimp only
  rw [hwrite]

theorem passToClient_ok {w : Wires E} (hread : readMessage w.backend = (.ok msg, s))
    (hwrite : w.toClient.write (forwardRaw msg) = (true, sink)) :
    w.passToClient = (.ok msg, { w with backend := s, toClient := sink }) := by
  unfold Wires.passToClient
  rw [hread]
  dsimp only
  rw [hwrite]

theorem passToBackend_raw (hm : m.payload.length ≤ maxMessageSize) (backend client : Stream E)
    (toClient : Sink) (sent : Bytes) :
    (⟨backend, ofBytes m.raw ++ client, toClient, .unlimited sent⟩ : Wires E).passToBackend =
      (.ok ⟨m.type, m.payload, some m.raw⟩,
        ⟨backend, client, toClient, .unlimited (sent ++ m.raw)⟩) :=
  passToBackend_ok (readMessage_raw hm client) (unlimited_write sent m.raw)

theorem passToClient_raw (hm : m.payload.length ≤ maxMessageSize) (backend client : Stream E)
    (toBackend : Sink) (sent : Bytes) :
    (⟨ofBytes m.raw ++ backend, client, .unlimited sent, toBackend⟩ : Wires E).passToClient =
      (.ok ⟨m.type, m.payload, some m.raw⟩,
        ⟨backend, client, .unlimited (sent ++ m.raw), toBackend⟩) :=
  passToClient_ok (readMessage_raw hm backend) (unlimited_write sent m.raw)

theorem relayCopyIn_section (hds : ∀ d ∈ ds, d.type = msgCopyData)
    (he : e.type = msgCopyDone ∨ e.type = msgCopyFail) (hs : Sized (ds ++ [e]))
    (hn : ds.length < n) (backend client : Stream E) (toClient : Sink) (sent : Bytes) :
    relayCopyIn n ⟨backend, onWire (ds ++ [e]) client, toClient, .unlimited sent⟩ =
      some (.ok (), ⟨backend, client, toClient, .unlimited (sent ++ raws (ds ++ [e]))⟩) := by
  induction ds generalizing n sent with
  | nil =>
    obtain ⟨n, rfl⟩ : ∃ k, n = k + 1 := ⟨n - 1, by simp at hn; omega⟩
    rw [List.nil_append, onWire_cons, relayCopyIn, passToBackend_raw hs.head]
    dsimp only
    rw [if_pos he]
    simp [raws, ofBytes]
  | cons d ds ih =>
    obtain ⟨n, rfl⟩ : ∃ k, n = k + 1 := ⟨n - 1, by simp at hn; omega⟩
    have hd := hds d (.head _)
    have hne : ¬ (d.type = msgCopyDone ∨ d.type = msgCopyFail) := by
      rw [hd]
      decide
    rw [List.cons_append, onWire_cons, relayCopyIn, passToBackend_raw hs.head]
    dsimp only
    rw [if_neg hne, if_pos hd, ih (fun d h => hds d (.tail _ h)) hs.tail
      (by simpa using hn), raws_cons, List.append_assoc]

theorem relayCopyOut_section (hds : ∀ d ∈ ds, d.type = msgCopyData) (he : e.type ≠ msgCopyData)
    (hs : Sized (ds ++ [e])) (hn : ds.length < n) (backend client : Stream E) (toBackend : Sink)
    (sent : Bytes) :
    relayCopyOut n ⟨onWire (ds ++ [e]) backend, client, .unlimited sent, toBackend⟩ =
      some (.ok (), ⟨backend, client, .unlimited (sent ++ raws (ds ++ [e])), toBackend⟩) := by
  induction ds generalizing n sent with
  | nil =>
    obtain ⟨n, rfl⟩ : ∃ k, n = k + 1 := ⟨n - 1, by simp at hn; omega⟩
    rw [List.nil_append, onWire_cons, relayCopyOut, passToClient_raw hs.head]
    dsimp only
    rw [if_neg he]
    split <;> simp [raws, ofBytes]
  | cons d ds ih =>
    obtain ⟨n, rfl⟩ : ∃ k, n = k + 1 := ⟨n - 1, by simp at hn; omega⟩
    have hd := hds d (.head _)
    have hne : d.type ≠ msgCopyDone := by
      rw [hd]
      decide
    rw [List.cons_append, onWire_cons, relayCopyOut, passToClient_raw hs.head]
    dsimp only
    rw [if_neg hne, if_pos hd, ih (fun d h => hds d (.tail _ h)) hs.tail
      (by simpa using hn), raws_cons, List.append_assoc]

theorem copyOut_split (h : copyOutOpen true ms = false) :
    ∃ ds e rest, ms = ds ++ [e] ++ rest ∧ (∀ d ∈ ds, d.type = msgCopyData) ∧
      e.type ≠ msgCopyData ∧ copyOutOpen false rest = false ∧
      copyIns true ms = copyIns false rest := by
  induction ms with
  | nil => cases h
  | cons m ms ih =>
    simp only [copyOutOpen, copyIns] at h ⊢
    by_cases hm : m.type = msgCopyData
    · rw [decide_eq_true hm] at h ⊢
      obtain ⟨ds, e, rest, rfl, hds, he, hrest, hins⟩ := ih h
      refine ⟨m :: ds, e, rest, rfl, ?_, he, hrest, hins⟩
      exact List.forall_mem_cons.mpr ⟨hm, hds⟩
    · rw [decide_eq_false hm] at h ⊢
      exact ⟨[], m, ms, rfl, fun m hm => absurd hm List.not_mem_nil, hm, h, rfl⟩

/-- What a backend answers before its ReadyForQuery, and what the client sends in the COPY IN
sections of the answer. -/
structure Dialogue (ms : List Message) (sections : List (List Message)) : Prop where
  plain : ∀ m ∈ ms, m.type ≠ msgReadyForQuery ∧ m.type ≠ msgCopyBothResponse
  closed : copyOutOpen false ms = false
  sized : Sized ms
  copies : ∀ part ∈ sections, CopyInStream part ∧ Sized part
  count : sections.length = copyIns false ms

theorem Dialogue.step (h : Dialogue (m :: ms) sections) (turn : Nat → Bool)
    (hn : ms.length + sections.flatten.length < n) (backend client : Stream E) (a b : Bytes) :
    ∃ ms₁ ms₂ sections₁ sections₂, ms = ms₁ ++ ms₂ ∧ sections = sections₁ ++ sections₂ ∧
      Dialogue ms₂ sections₂ ∧ (isCopyType m.type = false → ms₁ = []) ∧
      relayCopy turn n m.type ⟨onWire ms backend, onWire sections.flatten client,
          .unlimited a, .unlimited b⟩ =
        some (.ok (), ⟨onWire ms₂ backend, onWire sections₂.flatten client,
          .unlimited (a ++ raws ms₁), .unlimited (b ++ raws sections₁.flatten)⟩) := by
  obtain ⟨hplain, hclosed, hsized, hcopies, hcount⟩ := h
  have htail : ∀ x ∈ ms, x.type ≠ msgReadyForQuery ∧ x.type ≠ msgCopyBothResponse :=
    fun x hx => hplain x (.tail _ hx)
  have hboth := (hplain m (.head _)).2
  simp only [copyOutOpen, copyIns] at hclosed hcount
  unfold relayCopy
  by_cases hin : m.type = msgCopyInResponse
  · have hno : m.type ≠ msgCopyOutResponse := by
      rw [hin]
      decide
    rw [decide_eq_false hno] at hclosed hcount
    rw [if_pos hin] at hcount
    cases sections with
    | nil =>
      simp only [List.length_nil] at hcount
      omega
    | cons part sections =>
      obtain ⟨⟨ds, e, rfl, hds, he⟩, hpart⟩ := hcopies part (.head _)
      have hlen : ds.length < n := by
        simp only [List.flatten_cons, List.length_append, List.length_cons] at hn
        omega
      refine ⟨[], ms, [ds ++ [e]], sections, rfl, rfl, ⟨htail, hclosed, hsized.tail,
        fun x hx => hcopies x (.tail _ hx), ?_⟩, fun _ => rfl, ?_⟩
      · simp only [List.length_cons] at hcount
        omega
      · rw [if_pos hin, List.flatten_cons, onWire_append, relayCopyIn_section hds he hpart hlen]
        simp [raws, Except.mapError]
  · rw [if_neg hin] at hcount ⊢
    rw [Nat.zero_add] at hcount
    by_cases hout : m.type = msgCopyOutResponse
    · rw [decide_eq_true hout] at hclosed hcount
      obtain ⟨ds, e, rest, rfl, hds, he, hrest, hins⟩ := copyOut_split hclosed
      have hlen : ds.length < n := by
        simp only [List.length_append, List.length_cons] at hn
        omega
      refine ⟨ds ++ [e], rest, [], sections, rfl, rfl,
        ⟨fun x hx => htail x (List.mem_append_right _ hx), hrest, hsized.tail.right, hcopies,
          hcount.trans hins⟩, fun hc => ?_, ?_⟩
      · simp [isCopyType, hout] at hc
      · rw [if_pos hout, onWire_append, relayCopyOut_section hds he hsized.tail.left hlen]
        simp [raws, Except.mapError]
    · rw [decide_eq_false hout] at hclosed hcount
      refine ⟨[], ms, [], sections, rfl, rfl, ⟨htail, hclosed, hsized.tail, hcopies, hcount⟩,
        fun _ => rfl, ?_⟩
      rw [if_neg hout, if_neg hboth]
      simp [raws]

theorem readWire_raw (hm : m.payload.length ≤ maxMessageSize) (rest : Stream E) (wire : Buffer) :
    ∃ wire', readWire (ofBytes m.raw ++ rest) wire = (.ok m.type, wire', rest) ∧
      wire'.bytes = m.raw :=
  readWire_message (readMessage_raw hm rest) wire

theorem relayUntilReady_ready {w : Wires E} {wire : Buffer}
    (hread : readWire w.backend wire = (.ok t, wire', s))
    (hwrite : w.toClient.write wire'.bytes = (true, sink)) (ht : t = msgReadyForQuery) :
    relayUntilReady turn (n + 1) wire w =
      some (.ok (), wire', { w with backend := s, toClient := sink }) := by
  rw [relayUntilReady, hread]
  dsimp only
  rw [hwrite]
  dsimp only
  rw [if_pos ht]

theorem relayUntilReady_next {w : Wires E} {wire : Buffer}
    (hread : readWire w.backend wire = (.ok t, wire', s))
    (hwrite : w.toClient.write wire'.bytes = (true, sink)) (ht : t ≠ msgReadyForQuery)
    (hcopy : relayCopy turn n t { w with backend := s, toClient := sink } = some (.ok (), w')) :
    relayUntilReady turn (n + 1) wire w = relayUntilReady turn n wire' w' := by
  rw [relayUntilReady, hread]
  dsimp only
  rw [hwrite]
  dsimp only
  rw [if_neg ht, hcopy]

theorem relayUntilReady_dialogue (h : Dialogue ms sections) (hready : ready.type = msgReadyForQuery)
    (hsize : ready.payload.length ≤ maxMessageSize) (turn : Nat → Bool)
    (hn : ms.length + sections.flatten.length < n) (wire : Buffer) (backend client : Stream E)
    (a b : Bytes) :
    ∃ wire', relayUntilReady turn n wire ⟨onWire ms (onWire [ready] backend),
        onWire sections.flatten client, .unlimited a, .unlimited b⟩ =
      some (.ok (), wire', ⟨backend, client, .unlimited (a ++ raws (ms ++ [ready])),
        .unlimited (b ++ raws sections.flatten)⟩) := by
  -- The rounds are as many as the messages outside COPY sections, so the induction is on a bound.
  induction n generalizing ms sections wire a b with
  | zero => omega
  | succ n ih =>
    cases ms with
    | nil =>
      have hnil : sections = [] := List.length_eq_zero_iff.mp h.count
      subst hnil
      obtain ⟨wire', hread, hbytes⟩ := readWire_raw hsize backend wire
      refine ⟨wire', ?_⟩
      have hwrite : (Sink.unlimited a).write wire'.bytes = (true, .unlimited (a ++ ready.raw)) := by
        rw [hbytes, unlimited_write]
      rw [onWire_one, relayUntilReady_ready hread hwrite hready]
      simp [raws, ofBytes]
    | cons m ms =>
      simp only [List.length_cons] at hn
      obtain ⟨ms₁, ms₂, sections₁, sections₂, rfl, rfl, hd, -, hcopy⟩ :=
        h.step turn (n := n) (by omega) (onWire [ready] backend) client (a ++ m.raw) b
      have hlen : ms₂.length + sections₂.flatten.length < n := by
        simp only [List.length_append, List.flatten_append] at hn
        omega
      obtain ⟨wire', hread, hbytes⟩ := readWire_raw h.sized.head
        (onWire (ms₁ ++ ms₂) (onWire [ready] backend)) wire
      have hne := (h.plain m (.head _)).1
      obtain ⟨wire'', hrest⟩ := ih hd hlen wire' (a ++ m.raw ++ raws ms₁)
        (b ++ raws sections₁.flatten)
      refine ⟨wire'', ?_⟩
      rw [onWire_cons]
      have hwrite : (Sink.unlimited a).write wire'.bytes = (true, .unlimited (a ++ m.raw)) := by
        rw [hbytes, unlimited_write]
      rw [relayUntilReady_next hread hwrite hne hcopy, hrest]
      simp [raws_cons]

theorem relayAndCollect_ready {w : Wires E} (hread : readMessage w.backend = (.ok msg, s))
    (hwrite : w.toClient.write (msg.raw.getD []) = (true, sink))
    (ht : msg.type = msgReadyForQuery) :
    relayAndCollect turn maxSize (n + 1) buf oversize w =
      some (.ok (if (collect maxSize (msg.raw.getD []) buf oversize).2 then none
        else some (collect maxSize (msg.raw.getD []) buf oversize).1),
        { w with backend := s, toClient := sink }) := by
  rw [relayAndCollect, hread]
  dsimp only
  rw [hwrite]
  dsimp only
  rw [if_pos ht]

theorem relayAndCollect_next {w : Wires E} (hread : readMessage w.backend = (.ok msg, s))
    (hwrite : w.toClient.write (msg.raw.getD []) = (true, sink)) (ht : msg.type ≠ msgReadyForQuery)
    (hcopy : relayCopy turn n msg.type { w with backend := s, toClient := sink } =
      some (.ok (), w')) :
    relayAndCollect turn maxSize (n + 1) buf oversize w =
      if isCopyType msg.type then relayAndCollect turn maxSize n [] true w'
      else relayAndCollect turn maxSize n (collect maxSize (msg.raw.getD []) buf oversize).1
        (collect maxSize (msg.raw.getD []) buf oversize).2 w' := by
  rw [relayAndCollect, hread]
  dsimp only
  rw [hwrite]
  dsimp only
  rw [if_neg ht, hcopy]

/-- What may be returned for the cache: nothing, or all that was forwarded, without a COPY
section and within the limit. -/
def Collected (maxSize : Int) (buf : Bytes) (oversize : Bool) (ms : List Message) (ready : Message)
    (r : Option Bytes) : Prop :=
  ∀ data, r = some data → oversize = false ∧ data = buf ++ raws (ms ++ [ready]) ∧
    (∀ m ∈ ms, isCopyType m.type = false) ∧ (0 < maxSize → (data.length : Int) ≤ maxSize)

theorem collect_kept (h : (collect maxSize bs buf oversize).2 = false) :
    oversize = false ∧ (collect maxSize bs buf oversize).1 = buf ++ bs ∧
      (0 < maxSize → ((buf ++ bs).length : Int) ≤ maxSize) := by
  unfold collect at h ⊢
  cases oversize with
  | true => cases h
  | false =>
    simp only [Bool.false_eq_true, if_false] at h ⊢
    split at h
    · cases h
    · rename_i hsize
      rw [if_neg hsize]
      refine ⟨trivial, rfl, fun hpos => ?_⟩
      have := not_and.mp hsize hpos
      omega

theorem relayAndCollect_dialogue (h : Dialogue ms sections) (hready : ready.type = msgReadyForQuery)
    (hsize : ready.payload.length ≤ maxMessageSize) (turn : Nat → Bool) (maxSize : Int)
    (hn : ms.length + sections.flatten.length < n) (buf : Bytes) (oversize : Bool)
    (backend client : Stream E) (a b : Bytes) :
    ∃ r, relayAndCollect turn maxSize n buf oversize ⟨onWire ms (onWire [ready] backend),
        onWire sections.flatten client, .unlimited a, .unlimited b⟩ =
      some (.ok r, ⟨backend, client, .unlimited (a ++ raws (ms ++ [ready])),
        .unlimited (b ++ raws sections.flatten)⟩) ∧
      Collected maxSize buf oversize ms ready r := by
  induction n generalizing ms sections buf oversize a b with
  | zero => omega
  | succ n ih =>
    cases ms with
    | nil =>
      have hnil : sections = [] := List.length_eq_zero_iff.mp h.count
      subst hnil
      rw [onWire_one]
      rw [relayAndCollect_ready (readMessage_raw hsize backend) (unlimited_write a ready.raw)
        hready]
      refine ⟨if (collect maxSize ready.raw buf oversize).2 then none
        else some (collect maxSize ready.raw buf oversize).1, by simp [raws, ofBytes], ?_⟩
      intro data hdata
      split at hdata
      · cases hdata
      · rename_i hkept
        obtain ⟨hover, hbuf, hmax⟩ := collect_kept (Bool.eq_false_iff.mpr hkept)
        cases hdata
        rw [hbuf]
        exact ⟨hover, by simp [raws], fun m hm => absurd hm List.not_mem_nil, hmax⟩
    | cons m ms =>
      simp only [List.length_cons] at hn
      obtain ⟨ms₁, ms₂, sections₁, sections₂, rfl, rfl, hd, hplain, hcopy⟩ :=
        h.step turn (n := n) (by omega) (onWire [ready] backend) client (a ++ m.raw) b
      have hlen : ms₂.length + sections₂.flatten.length < n := by
        simp only [List.length_append, List.flatten_append] at hn
        omega
      have hne := (h.plain m (.head _)).1
      rw [onWire_cons, relayAndCollect_next (readMessage_raw h.sized.head _)
        (unlimited_write a m.raw) hne hcopy]
      cases hc : isCopyType m.type with
      | true =>
        obtain ⟨r, hrest, hcol⟩ := ih hd hlen [] true (a ++ m.raw ++ raws ms₁)
          (b ++ raws sections₁.flatten)
        refine ⟨r, ?_, ?_⟩
        · simp only [if_true, hrest]
          simp [raws_cons]
        · intro data hdata
          cases (hcol data hdata).1
      | false =>
        obtain rfl := hplain hc
        obtain ⟨r, hrest, hcol⟩ := ih hd hlen (collect maxSize m.raw buf oversize).1
          (collect maxSize m.raw buf oversize).2 (a ++ m.raw ++ raws [])
          (b ++ raws sections₁.flatten)
        refine ⟨r, ?_, ?_⟩
        · simp only [Bool.false_eq_true, if_false, Option.getD_some, hrest]
          simp [raws]
        · intro data hdata
          obtain ⟨hkept, rfl, hcopies, hmax⟩ := hcol data hdata
          obtain ⟨hover, hbuf, -⟩ := collect_kept hkept
          refine ⟨hover, ?_, ?_, hmax⟩
          · rw [hbuf]
            simp [raws_cons]
          · exact List.forall_mem_cons.mpr ⟨hc, hcopies⟩

/-- Both relays forward a dialogue as it is, up to and including its ReadyForQuery; what
`relayAndCollect` returns is what it forwarded, without a COPY section and within the limit. -/
theorem relays_transparent (h : Dialogue ms sections) (hready : ready.type = msgReadyForQuery)
    (hsize : ready.payload.length ≤ maxMessageSize) (turn : Nat → Bool) (maxSize : Int)
    (hn : ms.length + sections.flatten.length < n) (wire : Buffer) (backend client : Stream E)
    (a b : Bytes) :
    ∃ wire' r,
      relayUntilReady turn n wire ⟨onWire (ms ++ [ready]) backend, onWire sections.flatten client,
          .unlimited a, .unlimited b⟩ =
        some (.ok (), wire', ⟨backend, client, .unlimited (a ++ raws (ms ++ [ready])),
          .unlimited (b ++ raws sections.flatten)⟩) ∧
      relayAndCollect turn maxSize n [] false ⟨onWire (ms ++ [ready]) backend,
          onWire sections.flatten client, .unlimited a, .unlimited b⟩ =
        some (.ok r, ⟨backend, client, .unlimited (a ++ raws (ms ++ [ready])),
          .unlimited (b ++ raws sections.flatten)⟩) ∧
      ∀ data, r = some data → data = raws (ms ++ [ready]) ∧
        (∀ m ∈ ms, isCopyType m.type = false) ∧ (0 < maxSize → (data.length : Int) ≤ maxSize) := by
  rw [onWire_append]
  obtain ⟨wire', hrelay⟩ := relayUntilReady_dialogue h hready hsize turn hn wire backend client a b
  obtain ⟨r, hcollect, hr⟩ :=
    relayAndCollect_dialogue h hready hsize turn maxSize hn [] false backend client a b
  exact ⟨wire', r, hrelay, hcollect, fun data hdata => (hr data hdata).2⟩

def copyInAnswer : Message := ⟨msgCopyInResponse, [0, 0, 0]⟩

def idleAnswer : Message := ⟨msgReadyForQuery, ['I'.toUInt8]⟩

def copyRow (row : Bytes) : List Message := [⟨msgCopyData, row⟩, ⟨msgCopyDone, []⟩]

theorem copyRow_stream (row : Bytes) : CopyInStream (copyRow row) :=
  ⟨[⟨msgCopyData, row⟩], ⟨msgCopyDone, []⟩, rfl, by simp, .inl rfl⟩

theorem sized_short (h : ∀ m ∈ ms, m.payload.length ≤ 5) : Sized ms := by
  intro m hm
  have := h m hm
  rw [maxMessageSize]
  omega

theorem relays_transparent_copy_in :
    Dialogue [copyInAnswer] [copyRow [1]] ∧ ∃ wire' r,
      relayUntilReady (fun _ => true) 10 ⟨[], 0⟩ (⟨onWire [copyInAnswer, idleAnswer] [],
          onWire (copyRow [1]) [], .unlimited [], .unlimited []⟩ : Wires Unit) =
        some (.ok (), wire', ⟨[], [], .unlimited (raws [copyInAnswer, idleAnswer]),
          .unlimited (raws (copyRow [1]))⟩) ∧
      relayAndCollect (fun _ => true) 0 10 [] false (⟨onWire [copyInAnswer, idleAnswer] [],
          onWire (copyRow [1]) [], .unlimited [], .unlimited []⟩ : Wires Unit) =
        some (.ok r, ⟨[], [], .unlimited (raws [copyInAnswer, idleAnswer]),
          .unlimited (raws (copyRow [1]))⟩) := by
  have h : Dialogue [copyInAnswer] [copyRow [1]] := by
    refine ⟨by decide, by decide, sized_short (by decide), ?_, by decide⟩
    intro part hpart
    rw [List.mem_singleton.mp hpart]
    exact ⟨copyRow_stream [1], sized_short (by decide)⟩
  obtain ⟨wire', r, hrelay, hcollect, -⟩ := relays_transparent (n := 10) (E := Unit) h
    (show idleAnswer.type = msgReadyForQuery from rfl) (by decide) (fun _ => true) 0 (by decide)
    ⟨[], 0⟩ [] [] [] []
  exact ⟨h, wire', r, hrelay, hcollect⟩

theorem readMessage_tooLarge (hread : readFull 5 s = (hdr, none, rest))
    (hlen : headerLength hdr = 4 + size) (hmax : maxMessageSize < size) :
    readMessage s = (.error (.tooLarge size), rest) := by
  unfold readMessage
  rw [hread]
  dsimp only
  rw [hlen, if_neg (by omega), Nat.add_sub_cancel_left, if_pos hmax]

theorem readMessage_large (hm : maxMessageSize < m.payload.length)
    (hs : 4 + m.payload.length < 2 ^ 32) (rest : Stream E) :
    readMessage (ofBytes m.raw ++ rest) =
      (.error (.tooLarge m.payload.length), ofBytes m.payload ++ rest) := by
  have hsplit : (ofBytes m.raw ++ rest : Stream E) =
      ofBytes (m.type :: putUint32 (4 + m.payload.length)) ++ (ofBytes m.payload ++ rest) := by
    rw [← List.append_assoc, ← ofBytes_append]
    rfl
  have hread := readFull_ofBytes (m.type :: putUint32 (4 + m.payload.length))
    (ofBytes m.payload ++ rest)
  rw [hsplit]
  exact readMessage_tooLarge hread (headerLength_put _ hs) hm

theorem relayCopyIn_unread {w : Wires E} (h : readMessage w.client = (.error err, s)) :
    relayCopyIn (n + 1) w = some (.error (.read err), { w with client := s }) := by
  rw [relayCopyIn, Wires.passToBackend, h]

theorem relayUntilReady_copy_failed {w : Wires E} {wire : Buffer} {err : RelayError E}
    (hread : readWire w.backend wire = (.ok t, wire', s))
    (hwrite : w.toClient.write wire'.bytes = (true, sink)) (ht : t ≠ msgReadyForQuery)
    (hcopy : relayCopy turn n t { w with backend := s, toClient := sink } = some (.error err, w')) :
    relayUntilReady turn (n + 1) wire w = some (.error err, wire', w') := by
  rw [relayUntilReady, hread]
  dsimp only
  rw [hwrite]
  dsimp only
  rw [if_neg ht, hcopy]

@[irreducible] def largeRow : Bytes := List.replicate (maxMessageSize + 1) 0

theorem largeRow_length : largeRow.length = maxMessageSize + 1 := by
  rw [largeRow, List.length_replicate]

/-- A row of COPY data that is larger than a message may be is not forwarded. -/
theorem large_copy_data_refused :
    Sized [copyInAnswer, idleAnswer] ∧ copyOutOpen false [copyInAnswer] = false ∧
      copyIns false [copyInAnswer] = 1 ∧ CopyInStream (copyRow largeRow) ∧
      ∀ (turn : Nat → Bool) (n : Nat) (wire : Buffer), ∃ wire' rest,
        relayUntilReady turn (n + 2) wire (⟨onWire [copyInAnswer, idleAnswer] [],
            onWire (copyRow largeRow) [], .unlimited [], .unlimited []⟩ : Wires Unit) =
          some (.error (.copyIn (.read (.tooLarge (maxMessageSize + 1)))), wire',
            ⟨onWire [idleAnswer] [], rest, .unlimited (raws [copyInAnswer]), .unlimited []⟩) := by
  refine ⟨sized_short (by decide), by decide, by decide, copyRow_stream _, ?_⟩
  intro turn n wire
  have hsized : copyInAnswer.payload.length ≤ maxMessageSize := by decide
  obtain ⟨wire', hread, hbytes⟩ := readWire_raw hsized (onWire [idleAnswer] []) wire
  have hwrite : (Sink.unlimited []).write wire'.bytes = (true, .unlimited copyInAnswer.raw) := by
    rw [hbytes]
    rfl
  have hlarge := largeRow_length
  have hmax : maxMessageSize = 16777216 := rfl
  have hcopy : relayCopy turn (n + 1) copyInAnswer.type
      (⟨onWire [idleAnswer] [], ofBytes (⟨msgCopyData, largeRow⟩ : Message).raw ++
        onWire [⟨msgCopyDone, []⟩] [], .unlimited copyInAnswer.raw, .unlimited []⟩ : Wires Unit) =
      some (.error (.copyIn (.read (.tooLarge largeRow.length))), ⟨onWire [idleAnswer] [],
        ofBytes largeRow ++ onWire [⟨msgCopyDone, []⟩] [], .unlimited copyInAnswer.raw,
        .unlimited []⟩) := by
    rw [relayCopy, if_pos (show copyInAnswer.type = msgCopyInResponse from rfl),
      relayCopyIn_unread (readMessage_large (by dsimp only; omega) (by dsimp only; omega) _)]
    rfl
  have hfail := relayUntilReady_copy_failed (w := ⟨ofBytes copyInAnswer.raw ++
    onWire [idleAnswer] [], ofBytes (⟨msgCopyData, largeRow⟩ : Message).raw ++
    onWire [⟨msgCopyDone, []⟩] [], .unlimited [], .unlimited []⟩) hread hwrite (by decide) hcopy
  rw [largeRow_length] at hfail
  refine ⟨wire', ofBytes largeRow ++ onWire [⟨msgCopyDone, []⟩] [], ?_⟩
  rw [onWire_cons copyInAnswer [idleAnswer], copyRow, onWire_cons ⟨msgCopyData, largeRow⟩,
    show raws [copyInAnswer] = copyInAnswer.raw from List.append_nil _]
  exact hfail

end Pgmux.Wire
