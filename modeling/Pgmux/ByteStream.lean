import Mathlib.Data.List.Basic

namespace ByteStream

/-- What a read that needs more bytes can end with. -/
inductive Fault (E : Type) where
  /-- The stream ended before the first byte. -/
  | eof
  /-- The stream ended after some bytes. -/
  | unexpectedEOF
  | other (e : E)
  deriving DecidableEq

/-- An input stream: bytes, with the errors that reads meet between them, up to its end. -/
abbrev Stream (E : Type) := List (UInt8 ⊕ E)

def ofBytes (bs : List UInt8) : Stream E := bs.map .inl

def take : Nat → Stream E → List UInt8 × Option (Option E) × Stream E
  | 0, s => ([], none, s)
  | _ + 1, [] => ([], some none, [])
  | _ + 1, .inr e :: s => ([], some (some e), s)
  | n + 1, .inl b :: s =>
    let r := take n s
    (b :: r.1, r.2.1, r.2.2)

/-- `io.ReadFull` of `n` bytes: what it has read, its error and the rest. -/
def readFull (n : Nat) (s : Stream E) : List UInt8 × Option (Fault E) × Stream E :=
  match take n s with
  | (bs, none, rest) => (bs, none, rest)
  | (bs, some none, rest) => (bs, some (if bs = [] then .eof else .unexpectedEOF), rest)
  | (bs, some (some e), rest) => (bs, some (.other e), rest)

theorem take_length (h : take n s = (bs, none, rest)) : bs.length = n := by
  induction n generalizing s bs with
  | zero =>
    simp only [take, Prod.mk.injEq] at h
    rw [← h.1]
    rfl
  | succ n ih =>
    cases s with
    | nil => simp [take] at h
    | cons x s =>
      cases x with
      | inr e => simp [take] at h
      | inl b =>
        simp only [take, Prod.mk.injEq] at h
        rw [← h.1, List.length_cons, ih (Prod.ext rfl (Prod.ext h.2.1 h.2.2))]

theorem take_ofBytes (bs : List UInt8) (rest : Stream E) :
    take bs.length (ofBytes bs ++ rest) = (bs, none, rest) := by
  induction bs with
  | nil => rfl
  | cons b bs ih =>
    simp only [ofBytes, List.map_cons, List.cons_append, List.length_cons, take] at ih ⊢
    rw [ih]

theorem readFull_length (h : readFull n s = (bs, none, rest)) : bs.length = n := by
  unfold readFull at h
  split at h
  · rename_i bs' rest' ht
    simp only [Prod.mk.injEq, true_and] at h
    rw [← h.1]
    exact take_length ht
  · simp at h
  · simp at h

theorem readFull_ofBytes (bs : List UInt8) (rest : Stream E) :
    readFull bs.length (ofBytes bs ++ rest) = (bs, none, rest) := by
  unfold readFull
  rw [take_ofBytes]

theorem ofBytes_append (a b : List UInt8) :
    (ofBytes (a ++ b) : Stream E) = ofBytes a ++ ofBytes b := List.map_append

end ByteStream
