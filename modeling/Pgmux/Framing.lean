import Pgmux.ByteStream
import Pgmux.Message

namespace Pgmux

open ByteStream

def maxMessageSize : Nat := 16 * 1024 * 1024

/-- A message as it is read; `raw` is `none` where the source has nil. -/
structure WireMessage where
  type : UInt8
  payload : Bytes
  raw : Option Bytes
  deriving DecidableEq

/-- The errors of the readers, each with the error or the number in its text. -/
inductive FrameError (E : Type) where
  | header (e : Fault E)
  | invalidLength (length : Nat)
  | tooLarge (payloadLen : Nat)
  | payload (e : Fault E)
  deriving DecidableEq

def headerLength : Bytes → Nat
  | [_, a, b, c, d] => uint32 a b c d
  | _ => 0

def readMessage (s : Stream E) : Except (FrameError E) WireMessage × Stream E :=
  match readFull 5 s with
  | (_, some e, s) => (.error (.header e), s)
  | (hdr, none, s) =>
    let length := headerLength hdr
    if length < 4 then (.error (.invalidLength length), s)
    else
      let payloadLen := length - 4
      if maxMessageSize < payloadLen then (.error (.tooLarge payloadLen), s)
      else if 0 < payloadLen then
        match readFull payloadLen s with
        | (_, some e, s) => (.error (.payload e), s)
        | (payload, none, s) =>
          let raw := hdr ++ payload
          (.ok ⟨raw.headD 0, raw.drop 5, some raw⟩, s)
      else (.ok ⟨hdr.headD 0, hdr.drop 5, some hdr⟩, s)

/-- A slice: the memory up to its capacity, of which the first `len` bytes are the slice. -/
structure Buffer where
  memory : Bytes
  len : Nat

def overwrite (memory : Bytes) (offset : Nat) (bs : Bytes) : Bytes :=
  memory.take offset ++ bs ++ memory.drop (offset + bs.length)

/-- The buffer cut to the length, or a new one if its capacity is too small. -/
def Buffer.resize (buf : Buffer) (wireLen : Nat) : Buffer :=
  if wireLen ≤ buf.memory.length then ⟨buf.memory, wireLen⟩ else ⟨List.replicate wireLen 0, wireLen⟩

def Buffer.bytes (buf : Buffer) : Bytes := buf.memory.take buf.len

def Buffer.message (buf : Buffer) (wireLen : Nat) : WireMessage :=
  ⟨buf.bytes.headD 0, (buf.bytes.take wireLen).drop 5, some (buf.bytes.take wireLen)⟩

def readMessageReuse (s : Stream E) (buf : Buffer) :
    Except (FrameError E) WireMessage × Buffer × Stream E :=
  match readFull 5 s with
  | (_, some e, s) => (.error (.header e), buf, s)
  | (hdr, none, s) =>
    let length := headerLength hdr
    if length < 4 then (.error (.invalidLength length), buf, s)
    else
      let payloadLen := length - 4
      if maxMessageSize < payloadLen then (.error (.tooLarge payloadLen), buf, s)
      else
        let wireLen := 5 + payloadLen
        let buf := buf.resize wireLen
        let buf := { buf with memory := overwrite buf.memory 0 hdr }
        if 0 < payloadLen then
          match readFull payloadLen s with
          | (part, some e, s) =>
            (.error (.payload e), { buf with memory := overwrite buf.memory 5 part }, s)
          | (payload, none, s) =>
            let buf := { buf with memory := overwrite buf.memory 5 payload }
            (.ok (buf.message wireLen), buf, s)
        else (.ok (buf.message wireLen), buf, s)

def writeMessage (msgType : UInt8) (payload : Bytes) : Bytes :=
  msgType :: putUint32 (4 + payload.length) ++ payload

def forwardRaw (m : WireMessage) : Bytes :=
  match m.raw with
  | some raw => raw
  | none => writeMessage m.type m.payload

def receiveMessages : Nat → Stream E → List (Except (FrameError E) WireMessage) × Stream E
  | 0, s => ([], s)
  | n + 1, s =>
    let r := readMessage s
    let rs := receiveMessages n r.2
    (r.1 :: rs.1, rs.2)

def receiveMessagesReuse : List Buffer → Stream E →
    List (Except (FrameError E) WireMessage) × Stream E
  | [], s => ([], s)
  | buf :: bufs, s =>
    let r := readMessageReuse s buf
    let rs := receiveMessagesReuse bufs r.2.2
    (r.1 :: rs.1, rs.2)

theorem headerLength_put (t : UInt8) (h : n < 2 ^ 32) : headerLength (t :: putUint32 n) = n := by
  show uint32 _ _ _ _ = n
  simp only [uint32, uint16, Nat.toUInt8_eq, UInt8.toNat_ofNat']
  omega

theorem readMessage_ok (hread : readFull 5 s = (hdr, none, rest))
    (hlen : headerLength hdr = 4 + size) (hmax : size ≤ maxMessageSize)
    (hpayload : readFull size rest = (payload, none, rest')) :
    readMessage s =
      (.ok ⟨(hdr ++ payload).headD 0, (hdr ++ payload).drop 5, some (hdr ++ payload)⟩, rest') := by
  unfold readMessage
  rw [hread]
  dsimp only
  rw [hlen, if_neg (by omega), Nat.add_sub_cancel_left, if_neg (by omega)]
  split
  · rw [hpayload]
  · have h0 : size = 0 := by omega
    subst h0
    cases hpayload
    rw [List.append_nil]

theorem readMessage_write (t : UInt8) (payload : Bytes) (hp : payload.length ≤ maxMessageSize)
    (rest : Stream E) :
    readMessage (ofBytes (writeMessage t payload) ++ rest) =
      (.ok ⟨t, payload, some (writeMessage t payload)⟩, rest) := by
  have hs : (ofBytes (writeMessage t payload) ++ rest : Stream E) =
      ofBytes (t :: putUint32 (4 + payload.length)) ++ (ofBytes payload ++ rest) := by
    rw [← List.append_assoc, ← ofBytes_append]
    rfl
  have hh := readFull_ofBytes (t :: putUint32 (4 + payload.length)) (ofBytes payload ++ rest)
  have hl : headerLength (t :: putUint32 (4 + payload.length)) = 4 + payload.length := by
    apply headerLength_put
    have hm : maxMessageSize = 16777216 := rfl
    omega
  rw [hs]
  exact readMessage_ok hh hl hp (readFull_ofBytes payload rest)

theorem take_overwrite_header (memory hdr : Bytes) (h : hdr.length = 5) :
    (overwrite memory 0 hdr).take 5 = hdr := by
  rw [overwrite, List.take_zero, List.nil_append, ← h, List.take_left]

theorem take_overwrite_payload (memory hdr payload : Bytes) (h : hdr.length = 5) :
    (overwrite (overwrite memory 0 hdr) 5 payload).take (5 + payload.length) = hdr ++ payload := by
  rw [overwrite, take_overwrite_header memory hdr h]
  have hl : 5 + payload.length = (hdr ++ payload).length := by rw [List.length_append, h]
  rw [hl, List.take_left]

theorem resize_len (buf : Buffer) (wireLen : Nat) : (buf.resize wireLen).len = wireLen := by
  unfold Buffer.resize
  split <;> rfl

theorem readMessageReuse_eq (s : Stream E) (buf : Buffer) :
    (readMessageReuse s buf).1 = (readMessage s).1 ∧
      (readMessageReuse s buf).2.2 = (readMessage s).2 := by
  unfold readMessageReuse readMessage
  rcases hr : readFull 5 s with ⟨hdr, _ | e, s'⟩
  · have hlen := readFull_length hr
    dsimp only
    split
    · exact ⟨rfl, rfl⟩
    · split
      · exact ⟨rfl, rfl⟩
      · split
        · rcases hp : readFull (headerLength hdr - 4) s' with ⟨payload, _ | e, s''⟩
          · have hpl := readFull_length hp
            dsimp only
            refine ⟨?_, rfl⟩
            congr 1
            simp only [Buffer.message, Buffer.bytes, resize_len, List.take_take, Nat.min_self]
            rw [← hpl, take_overwrite_payload _ hdr payload hlen]
          · exact ⟨rfl, rfl⟩
        · refine ⟨?_, rfl⟩
          have h0 : headerLength hdr - 4 = 0 := by omega
          simp only [h0, Buffer.message, Buffer.bytes, resize_len, List.take_take, Nat.min_self]
          rw [Nat.add_zero, take_overwrite_header _ hdr hlen]
  · exact ⟨rfl, rfl⟩

theorem putUint32_uint32 (a b c d : UInt8) : putUint32 (uint32 a b c d) = [a, b, c, d] := by
  have ha := a.toNat_lt
  have hb := b.toNat_lt
  have hc := c.toNat_lt
  have hd := d.toNat_lt
  simp only [putUint32, putUint16, uint32, uint16, List.cons_append, List.nil_append,
    List.cons.injEq, and_true]
  refine ⟨?_, ?_, ?_, ?_⟩ <;>
    (apply UInt8.toNat.inj; rw [Nat.toUInt8_eq, UInt8.toNat_ofNat']; omega)

theorem receiveMessagesReuse_eq (bufs : List Buffer) (s : Stream E) :
    receiveMessagesReuse bufs s = receiveMessages bufs.length s := by
  induction bufs generalizing s with
  | nil => rfl
  | cons buf bufs ih =>
    obtain ⟨h₁, h₂⟩ := readMessageReuse_eq s buf
    simp only [receiveMessagesReuse, List.length_cons, receiveMessages]
    rw [h₁, h₂, ih]

theorem receiveMessages_succ (h : readMessage s = (m, rest)) (n : Nat) :
    receiveMessages (n + 1) s = (m :: (receiveMessages n rest).1, (receiveMessages n rest).2) := by
  simp only [receiveMessages]
  rw [h]

theorem receiveMessages_write (msgs : List Message)
    (hm : ∀ m ∈ msgs, m.payload.length ≤ maxMessageSize) (trailing : Stream E) :
    receiveMessages msgs.length
        (ofBytes (msgs.flatMap fun m => writeMessage m.type m.payload) ++ trailing) =
      (msgs.map fun m => .ok ⟨m.type, m.payload, some (writeMessage m.type m.payload)⟩,
        trailing) := by
  induction msgs with
  | nil => rfl
  | cons m msgs ih =>
    have hp := hm m (.head _)
    rw [List.flatMap_cons, ofBytes_append, List.append_assoc, List.length_cons,
      receiveMessages_succ (readMessage_write m.type m.payload hp _),
      ih fun m' h' => hm m' (List.mem_cons_of_mem m h'), List.map_cons]

/-- What is written is read back with its own bytes, and what follows is left unread; a reader that
reuses buffers reads the same. -/
theorem framing_round_trip :
    (∀ msgs : List Message, (∀ m ∈ msgs, m.payload.length ≤ maxMessageSize) →
      ∀ trailing : Stream E, ∃ ms : List WireMessage,
        receiveMessages msgs.length
          (ofBytes (msgs.flatMap fun m => writeMessage m.type m.payload) ++ trailing) =
            (ms.map .ok, trailing) ∧
        ms.map (fun m => (m.type, m.payload)) = msgs.map (fun m => (m.type, m.payload)) ∧
        ms.map WireMessage.raw = msgs.map (fun m => some (writeMessage m.type m.payload)) ∧
        ms.map forwardRaw = msgs.map fun m => writeMessage m.type m.payload) ∧
    ∀ (bufs : List Buffer) (s : Stream E),
      receiveMessagesReuse bufs s = receiveMessages bufs.length s := by
  refine ⟨?_, receiveMessagesReuse_eq⟩
  intro msgs hm trailing
  refine ⟨msgs.map fun m => ⟨m.type, m.payload, some (writeMessage m.type m.payload)⟩,
    ?_, ?_, ?_, ?_⟩
  · rw [receiveMessages_write msgs hm, List.map_map]
    rfl
  · rw [List.map_map]
    rfl
  · rw [List.map_map]
    rfl
  · rw [List.map_map]
    rfl

end Pgmux
