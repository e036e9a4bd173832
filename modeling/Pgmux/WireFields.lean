import Pgmux.Cursor
import Pgmux.Framing

namespace Pgmux

open Codec Cursor

section Numbers

theorem uint16_lt (a b : UInt8) : uint16 a b < 65536 := by
  have ha := a.toNat_lt
  have hb := b.toNat_lt
  simp only [uint16]
  omega

theorem uint32_lt (a b c d : UInt8) : uint32 a b c d < 4294967296 := by
  have hab := uint16_lt a b
  have hcd := uint16_lt c d
  simp only [uint32]
  omega

theorem putUint16_uint16 (a b : UInt8) : putUint16 (uint16 a b) = [a, b] := by
  have ha := a.toNat_lt
  have hb := b.toNat_lt
  simp only [putUint16, uint16, List.cons.injEq, and_true]
  constructor <;> (apply UInt8.toNat.inj; rw [Nat.toUInt8_eq, UInt8.toNat_ofNat']; omega)

def bigEndianUint16 : Bytes → Nat
  | a :: b :: _ => uint16 a b
  | _ => 0

def bigEndianUint32 : Bytes → Nat
  | a :: b :: c :: d :: _ => uint32 a b c d
  | _ => 0

theorem bigEndianUint16_put (h : n < 65536) (t : Bytes) :
    bigEndianUint16 (putUint16 n ++ t) = n := by
  show uint16 _ _ = n
  simp only [uint16, Nat.toUInt8_eq, UInt8.toNat_ofNat']
  omega

theorem bigEndianUint32_put (h : n < 4294967296) (t : Bytes) :
    bigEndianUint32 (putUint32 n ++ t) = n := by
  show uint32 _ _ _ _ = n
  simp only [uint32, uint16, Nat.toUInt8_eq, UInt8.toNat_ofNat']
  omega

def readUint16 : Parser UInt8 Nat
  | a :: b :: p => some (uint16 a b, p)
  | _ => none

def readUint32 : Parser UInt8 Nat
  | a :: b :: c :: d :: p => some (uint32 a b c d, p)
  | _ => none

theorem readUint16_inverts : Inverts readUint16 (· < 65536) putUint16 := by
  intro p n t
  constructor
  · intro h
    rcases p with _ | ⟨a, _ | ⟨b, p⟩⟩
    · cases h
    · cases h
    · cases h
      exact ⟨uint16_lt a b, by rw [putUint16_uint16]; rfl⟩
  · rintro ⟨hn, rfl⟩
    have hput := bigEndianUint16_put hn t
    exact congrArg some (Prod.ext hput rfl)

theorem readUint32_inverts : Inverts readUint32 (· < 4294967296) putUint32 := by
  intro p n t
  constructor
  · intro h
    rcases p with _ | ⟨a, _ | ⟨b, _ | ⟨c, _ | ⟨d, p⟩⟩⟩⟩
    · cases h
    · cases h
    · cases h
    · cases h
    · cases h
      exact ⟨uint32_lt a b c d, by rw [putUint32_uint32]; rfl⟩
  · rintro ⟨hn, rfl⟩
    have hput := bigEndianUint32_put hn t
    exact congrArg some (Prod.ext hput rfl)

/-- The values of an `int16`. -/
def IsInt16 (n : Int) : Prop := -32768 ≤ n ∧ n < 32768

def putInt16 (n : Int) : Bytes := putUint16 (n % 65536).toNat

theorem isInt16_int16 (h : n < 65536) : IsInt16 (int16 n) := by
  unfold IsInt16 int16
  split <;> omega

theorem putInt16_int16 (h : n < 65536) : putInt16 (int16 n) = putUint16 n := by
  unfold putInt16 int16
  congr 1
  split <;> omega

theorem int16_put (h : IsInt16 n) : int16 (n % 65536).toNat = n := by
  unfold IsInt16 at h
  unfold int16
  split <;> omega

def readInt16 : Parser UInt8 Int := fun p => do
  let (n, p) ← readUint16 p
  return (int16 n, p)

theorem readInt16_inverts : Inverts readInt16 IsInt16 putInt16 := by
  intro p n t
  simp only [readInt16, Option.bind_eq_bind, Option.bind_eq_some_iff, Option.pure_def,
    Option.some.injEq, Prod.mk.injEq, Prod.exists]
  constructor
  · rintro ⟨k, p', hk, rfl, rfl⟩
    obtain ⟨hlt, rfl⟩ := (readUint16_inverts _ _ _).mp hk
    exact ⟨isInt16_int16 hlt, by rw [putInt16_int16 hlt]⟩
  · rintro ⟨hn, rfl⟩
    refine ⟨(n % 65536).toNat, t, ?_, int16_put hn, rfl⟩
    apply readUint16_inverts.read
    unfold IsInt16 at hn
    omega

/-- The value of a 32-bit pattern as `int32`. -/
def int32 (n : Nat) : Int := if n < 2147483648 then n else (n : Int) - 4294967296

end Numbers

section Strings

theorem cString_inverts : Inverts cString (0 ∉ ·) (· ++ [0]) := by
  intro p name t
  constructor
  · intro h
    refine ⟨cString_noNul h, ?_⟩
    unfold cString at h
    split at h
    · cases h
    · rename_i c rest hd
      cases h
      have hc : c = 0 := by
        have hhead := List.head?_dropWhile_not (· ≠ (0 : UInt8)) p
        rw [hd] at hhead
        simpa using hhead
      have hp := List.takeWhile_append_dropWhile (p := (· ≠ (0 : UInt8))) (l := p)
      rw [hd, hc] at hp
      rw [List.append_assoc]
      exact hp.symm
  · rintro ⟨hn, rfl⟩
    rw [List.append_assoc]
    exact cString_nul hn t

/-- `bytes.IndexByte`; `none` stands for -1. -/
def indexOf (data : Bytes) (b : UInt8) : Option Nat := data.findIdx? (· = b)

theorem indexOf_of_cString (h : cString p = some (name, t)) : indexOf p 0 = some name.length := by
  obtain ⟨hn, rfl⟩ := (cString_inverts _ _ _).mp h
  have hnone : name.findIdx? (fun c => decide (c = 0)) = none := by
    apply List.findIdx?_eq_none_iff.mpr
    intro c hc
    simp only [decide_eq_false_iff_not]
    rintro rfl
    exact hn hc
  rw [indexOf, List.append_assoc, List.findIdx?_append, hnone]
  simp [List.findIdx?_cons]

theorem indexOf_of_no_cString (h : cString p = none) : indexOf p 0 = none := by
  unfold cString at h
  split at h
  · rename_i hd
    apply List.findIdx?_eq_none_iff.mpr
    intro c hc
    simpa using List.dropWhile_eq_nil_iff.mp hd c hc
  · cases h

end Strings

namespace Sliced

variable {E : Type} (payload : Bytes)

/-- Read up to an index behind the position and pass the byte there. -/
def upTo (missing : E) (pos : Int) : Option Nat → Checked E (Bytes × Int)
  | none => .error (.error missing)
  | some stop => do
    let name ← slice payload pos (pos + stop)
    return (name, pos + stop + 1)

/-- Read up to a NUL and pass it; the error is for a NUL that is missing. -/
def terminated (missing : E) (pos : Int) : Checked E (Bytes × Int) := do
  let rest ← slice payload pos payload.length
  upTo payload missing pos (indexOf rest 0)

/-- Read a big-endian number; the error is for a payload that ends before. -/
def numberAt (width : Nat) (value : Bytes → Nat) (truncated : E) (pos : Int) :
    Checked E (Nat × Int) :=
  if payload.length < pos + width then .error (.error truncated)
  else do
    let b ← slice payload pos (pos + width)
    return (value b, pos + width)

def uint16At (truncated : E) (pos : Int) : Checked E (Nat × Int) :=
  numberAt payload 2 bigEndianUint16 truncated pos

def uint32At (truncated : E) (pos : Int) : Checked E (Nat × Int) :=
  numberAt payload 4 bigEndianUint32 truncated pos

variable {payload}

theorem terminated_follows (missing : E) :
    Follows payload (terminated payload missing) cString where
  some pos name t hpos h := by
    have hidx := indexOf_of_cString h
    obtain ⟨-, hd⟩ := (cString_inverts _ _ _).mp h
    have hlen : pos + name.length + 1 ≤ payload.length := by
      have := congrArg List.length hd
      simp only [List.length_drop, List.length_append, List.length_cons, List.length_nil] at this
      omega
    refine ⟨pos + name.length + 1, hlen, ?_, ?_⟩
    · rw [Nat.add_assoc, ← List.drop_drop, hd, List.append_assoc, ← List.drop_drop,
        List.drop_left]
      rfl
    · have hname : (payload.drop pos).take name.length = name := by
        rw [hd, List.append_assoc, List.take_left]
      rw [terminated, slice_rest hpos]
      show upTo payload missing pos (indexOf (payload.drop pos) 0) = _
      rw [hidx, upTo, slice_add (by omega), hname]
      rfl
  none pos hpos h := by
    refine ⟨missing, ?_⟩
    rw [terminated, slice_rest hpos]
    show upTo payload missing pos (indexOf (payload.drop pos) 0) = _
    rw [indexOf_of_no_cString h, upTo]

theorem numberAt_follows {parse : Parser UInt8 Nat}
    (hshort : ∀ p : Bytes, p.length < width → parse p = none)
    (hlong : ∀ p : Bytes, width ≤ p.length → parse p = some (value (p.take width), p.drop width))
    (truncated : E) : Follows payload (numberAt payload width value truncated) parse where
  some pos n t hpos h := by
    have hlen : width ≤ (payload.drop pos).length := by
      by_contra hlt
      rw [hshort _ (Nat.lt_of_not_le hlt)] at h
      cases h
    rw [hlong _ hlen] at h
    rw [List.length_drop] at hlen
    cases h
    refine ⟨pos + width, by omega, List.drop_drop, ?_⟩
    rw [numberAt, if_neg (by omega), slice_add (by omega)]
    rfl
  none pos hpos h := by
    have hlen : ¬ width ≤ (payload.drop pos).length := by
      intro hle
      rw [hlong _ hle] at h
      cases h
    rw [List.length_drop] at hlen
    exact ⟨truncated, by rw [numberAt, if_pos (by omega)]⟩

theorem uint16At_follows (truncated : E) :
    Follows payload (uint16At payload truncated) readUint16 := by
  apply numberAt_follows
  · intro p h
    rcases p with _ | ⟨a, _ | ⟨b, p⟩⟩
    · rfl
    · rfl
    · simp only [List.length_cons] at h
      omega
  · intro p h
    rcases p with _ | ⟨a, _ | ⟨b, p⟩⟩
    · cases h
    · simp at h
    · rfl

theorem uint32At_follows (truncated : E) :
    Follows payload (uint32At payload truncated) readUint32 := by
  apply numberAt_follows
  · intro p h
    rcases p with _ | ⟨a, _ | ⟨b, _ | ⟨c, _ | ⟨d, p⟩⟩⟩⟩
    · rfl
    · rfl
    · rfl
    · rfl
    · simp only [List.length_cons] at h
      omega
  · intro p h
    rcases p with _ | ⟨a, _ | ⟨b, _ | ⟨c, _ | ⟨d, p⟩⟩⟩⟩
    · cases h
    · simp at h
    · simp at h
    · simp at h
    · rfl

end Sliced

end Pgmux
