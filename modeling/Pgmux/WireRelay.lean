import Pgmux.Framing

namespace Pgmux.Wire

open ByteStream

/-- What a connection was written; it takes `room` more bytes before it breaks, or any number. -/
structure Sink where
  written : Bytes
  room : Option Nat
  deriving DecidableEq

def Sink.write (s : Sink) (bs : Bytes) : Bool × Sink :=
  match s.room with
  | none => (true, ⟨s.written ++ bs, none⟩)
  | some n =>
    if bs.length ≤ n then (true, ⟨s.written ++ bs, some (n - bs.length)⟩)
    else (false, ⟨s.written ++ bs.take n, some 0⟩)

/-- A client and a backend connection: what is still to be read and what was written. -/
structure Wires (E : Type) where
  backend : Stream E
  client : Stream E
  toClient : Sink
  toBackend : Sink
  deriving DecidableEq

inductive CopyError (E : Type) where
  | read (e : FrameError E)
  | forward
  deriving DecidableEq

inductive RelayError (E : Type) where
  | read (e : FrameError E)
  | forward
  | copyIn (e : CopyError E)
  | copyOut (e : CopyError E)
  | copyBoth (e : CopyError E)
  deriving DecidableEq

def Wires.passToBackend (w : Wires E) : Except (CopyError E) WireMessage × Wires E :=
  match readMessage w.client with
  | (.error e, s) => (.error (.read e), { w with client := s })
  | (.ok msg, s) =>
    match w.toBackend.write (forwardRaw msg) with
    | (false, sink) => (.error .forward, { w with client := s, toBackend := sink })
    | (true, sink) => (.ok msg, { w with client := s, toBackend := sink })

def Wires.passToClient (w : Wires E) : Except (CopyError E) WireMessage × Wires E :=
  match readMessage w.backend with
  | (.error e, s) => (.error (.read e), { w with backend := s })
  | (.ok msg, s) =>
    match w.toClient.write (forwardRaw msg) with
    | (false, sink) => (.error .forward, { w with backend := s, toClient := sink })
    | (true, sink) => (.ok msg, { w with backend := s, toClient := sink })

/-- COPY FROM STDIN. The loops have fuel for a number of rounds and are `none` without it. -/
def relayCopyIn : Nat → Wires E → Option (Except (CopyError E) Unit × Wires E)
  | 0, _ => none
  | n + 1, w =>
    match w.passToBackend with
    | (.error e, w) => some (.error e, w)
    | (.ok msg, w) =>
      if msg.type = msgCopyDone ∨ msg.type = msgCopyFail then some (.ok (), w)
      else if msg.type = msgCopyData then relayCopyIn n w
      -- An unexpected message ends the COPY as well.
      else some (.ok (), w)

def relayCopyOut : Nat → Wires E → Option (Except (CopyError E) Unit × Wires E)
  | 0, _ => none
  | n + 1, w =>
    match w.passToClient with
    | (.error e, w) => some (.error e, w)
    | (.ok msg, w) =>
      if msg.type = msgCopyDone then some (.ok (), w)
      else if msg.type = msgCopyData then relayCopyOut n w
      else some (.ok (), w)

/-- The two goroutines of `relayCopyBoth`: which still run, and what they have sent on `errCh`. -/
structure Both (E : Type) where
  backendRuns : Bool
  clientRuns : Bool
  errCh : List (Except (CopyError E) Unit)

/-- Streaming replication; `turn` says which goroutine moves while both run. -/
def relayCopyBoth (turn : Nat → Bool) :
    Nat → Both E → Wires E → Option (Except (CopyError E) Unit × Wires E)
  | 0, _, _ => none
  | n + 1, b, w =>
    if b.backendRuns && (turn n || !b.clientRuns) then
      match w.passToClient with
      | (.error e, w) =>
        relayCopyBoth turn n ⟨false, b.clientRuns, b.errCh ++ [.error e]⟩ w
      | (.ok msg, w) =>
        if msg.type = msgCopyDone then
          relayCopyBoth turn n ⟨false, b.clientRuns, b.errCh ++ [.ok ()]⟩ w
        else relayCopyBoth turn n b w
    else if b.clientRuns then
      match w.passToBackend with
      | (.error e, w) =>
        relayCopyBoth turn n ⟨b.backendRuns, false, b.errCh ++ [.error e]⟩ w
      | (.ok msg, w) =>
        if msg.type = msgCopyDone ∨ msg.type = msgCopyFail then
          relayCopyBoth turn n ⟨b.backendRuns, false, b.errCh ++ [.ok ()]⟩ w
        else relayCopyBoth turn n b w
    else
      -- Both have ended: the first error counts.
      match b.errCh with
      | .error e :: _ => some (.error e, w)
      | .ok _ :: r :: _ => some (r, w)
      | _ => some (.ok (), w)

def relayCopy (turn : Nat → Bool) (n : Nat) (msgType : UInt8) (w : Wires E) :
    Option (Except (RelayError E) Unit × Wires E) :=
  if msgType = msgCopyInResponse then
    (relayCopyIn n w).map fun r => (r.1.mapError .copyIn, r.2)
  else if msgType = msgCopyOutResponse then
    (relayCopyOut n w).map fun r => (r.1.mapError .copyOut, r.2)
  else if msgType = msgCopyBothResponse then
    (relayCopyBoth turn n ⟨true, true, []⟩ w).map fun r => (r.1.mapError .copyBoth, r.2)
  else some (.ok (), w)

/-- Read a message into the wire buffer, which grows if it is too small; the result is the type. -/
def readWire (s : Stream E) (wire : Buffer) : Except (FrameError E) UInt8 × Buffer × Stream E :=
  match readFull 5 s with
  | (_, some e, s) => (.error (.header e), wire, s)
  | (hdr, none, s) =>
    let length := headerLength hdr
    if length < 4 then (.error (.invalidLength length), wire, s)
    else
      let payloadLen := length - 4
      if maxMessageSize < payloadLen then (.error (.tooLarge payloadLen), wire, s)
      else
        let wire := wire.resize (5 + payloadLen)
        let wire := { wire with memory := overwrite wire.memory 0 hdr }
        if 0 < payloadLen then
          match readFull payloadLen s with
          | (part, some e, s) =>
            (.error (.payload e), { wire with memory := overwrite wire.memory 5 part }, s)
          | (payload, none, s) =>
            (.ok (hdr.headD 0), { wire with memory := overwrite wire.memory 5 payload }, s)
        else (.ok (hdr.headD 0), wire, s)

/-- Forward backend messages to the client up to and including ReadyForQuery, through a wire
buffer that is reused. -/
def relayUntilReady (turn : Nat → Bool) :
    Nat → Buffer → Wires E → Option (Except (RelayError E) Unit × Buffer × Wires E)
  | 0, _, _ => none
  | n + 1, wire, w =>
    match readWire w.backend wire with
    | (.error e, wire, s) => some (.error (.read e), wire, { w with backend := s })
    | (.ok msgType, wire, s) =>
      match w.toClient.write wire.bytes with
      | (false, sink) => some (.error .forward, wire, { w with backend := s, toClient := sink })
      | (true, sink) =>
        if msgType = msgReadyForQuery then
          some (.ok (), wire, { w with backend := s, toClient := sink })
        else
          match relayCopy turn n msgType { w with backend := s, toClient := sink } with
          | none => none
          | some (.error e, w) => some (.error e, wire, w)
          | some (.ok (), w) => relayUntilReady turn n wire w

/-- What is collected after a message, and whether collection was given up. -/
def collect (maxSize : Int) (wireBytes : Bytes) (buf : Bytes) (oversize : Bool) : Bytes × Bool :=
  if oversize then (buf, oversize)
  else if 0 < maxSize ∧ maxSize < (buf ++ wireBytes).length then ([], true)
  else (buf ++ wireBytes, false)

def isCopyType (msgType : UInt8) : Bool :=
  msgType = msgCopyInResponse ∨ msgType = msgCopyOutResponse ∨ msgType = msgCopyBothResponse

/-- Relay backend messages and collect them for the cache; the result is `none` where the source
has nil. -/
def relayAndCollect (turn : Nat → Bool) (maxSize : Int) :
    Nat → Bytes → Bool → Wires E → Option (Except (RelayError E) (Option Bytes) × Wires E)
  | 0, _, _, _ => none
  | n + 1, buf, oversize, w =>
    match readMessage w.backend with
    | (.error e, s) => some (.error (.read e), { w with backend := s })
    | (.ok msg, s) =>
      let wireBytes := msg.raw.getD []
      match w.toClient.write wireBytes with
      | (false, sink) => some (.error .forward, { w with backend := s, toClient := sink })
      | (true, sink) =>
        let collected := collect maxSize wireBytes buf oversize
        if msg.type = msgReadyForQuery then
          some (.ok (if collected.2 then none else some collected.1),
            { w with backend := s, toClient := sink })
        else
          match relayCopy turn n msg.type { w with backend := s, toClient := sink } with
          | none => none
          | some (.error e, w) => some (.error e, w)
          | some (.ok (), w) =>
            -- COPY results are not cacheable.
            if isCopyType msg.type then relayAndCollect turn maxSize n [] true w
            else relayAndCollect turn maxSize n collected.1 collected.2 w

theorem headD_append {hdr payload : Bytes} (h : hdr.length = 5) :
    (hdr ++ payload).headD 0 = hdr.headD 0 := by
  cases hdr with
  | nil => cases h
  | cons b hdr => rfl

/-- The wire buffer holds what `ReadMessage` reads, whatever it held before. -/
theorem readWire_message (h : readMessage s = (.ok msg, rest)) (wire : Buffer) :
    ∃ wire', readWire s wire = (.ok msg.type, wire', rest) ∧ wire'.bytes = forwardRaw msg := by
  unfold readMessage at h
  unfold readWire
  rcases hr : readFull 5 s with ⟨hdr, _ | e, s'⟩
  · have hlen := readFull_length hr
    rw [hr] at h
    dsimp only at h ⊢
    split at h
    · cases h
    rename_i h4
    split at h
    · cases h
    rename_i hmax
    rw [if_neg h4, if_neg hmax]
    split at h
    · rename_i hpos
      rw [if_pos hpos]
      rcases hp : readFull (headerLength hdr - 4) s' with ⟨payload, _ | e, s''⟩
      · have hpl := readFull_length hp
        rw [hp] at h
        cases h
        refine ⟨⟨overwrite (overwrite (wire.resize (5 + (headerLength hdr - 4))).memory 0 hdr) 5
          payload, (wire.resize (5 + (headerLength hdr - 4))).len⟩, ?_, ?_⟩
        · rw [headD_append hlen]
        · simp only [Buffer.bytes, resize_len, forwardRaw]
          rw [← hpl, take_overwrite_payload _ hdr payload hlen]
      · rw [hp] at h
        cases h
    · rename_i hpos
      have h0 : headerLength hdr - 4 = 0 := by omega
      rw [if_neg hpos]
      cases h
      refine ⟨_, rfl, ?_⟩
      simp only [h0, Buffer.bytes, resize_len, forwardRaw]
      rw [Nat.add_zero, take_overwrite_header _ hdr hlen]
  · rw [hr] at h
    cases h

end Pgmux.Wire
