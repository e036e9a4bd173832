import Pgmux.Codec

namespace Cursor

open Codec

variable {α β γ E : Type}

/-- A call ends with an error of its own, or by an access that is out of range. -/
inductive Stop (E : Type) where
  | error (e : E)
  | outOfRange
  deriving DecidableEq

abbrev Checked (E : Type) := Except (Stop E)

/-- The slice `s[i:j]`. -/
def slice (s : List β) (i j : Int) : Checked E (List β) :=
  if 0 ≤ i ∧ i ≤ j ∧ j ≤ s.length then .ok ((s.drop i.toNat).take (j - i).toNat)
  else .error .outOfRange

theorem slice_add {s : List β} {pos n : Nat} (h : pos + n ≤ s.length) :
    (slice s pos (pos + n) : Checked E (List β)) = .ok ((s.drop pos).take n) := by
  have hn : ((pos : Int) + n - pos).toNat = n := by omega
  unfold slice
  rw [if_pos (by omega), Int.toNat_natCast, hn]

theorem slice_rest {s : List β} {pos : Nat} (h : pos ≤ s.length) :
    (slice s pos s.length : Checked E (List β)) = .ok (s.drop pos) := by
  unfold slice
  rw [if_pos (by omega), Int.toNat_natCast]
  congr 1
  apply List.take_of_length_le
  rw [List.length_drop]
  omega

theorem slice_front {s : List β} (h : n ≤ s.length) :
    (slice s 0 n : Checked E (List β)) = .ok (s.take n) := by
  unfold slice
  rw [if_pos (by omega)]
  rfl

theorem slice_backwards {s : List β} (h : j < i) :
    (slice s i j : Checked E (List β)) = .error .outOfRange := by
  unfold slice
  rw [if_neg (by omega)]

theorem map_eq_error {x : Except γ α} {f : α → β} : x.map f = .error e ↔ x = .error e := by
  cases x <;> simp [Except.map]

/-- A loop that reads one value in each of its rounds, `i` being the index of the first. -/
def collect (body : Nat → Int → Checked E (α × Int)) : Nat → Nat → Int → Checked E (List α × Int)
  | 0, _, pos => .ok ([], pos)
  | n + 1, i, pos => do
    let (x, pos) ← body i pos
    let (xs, pos) ← collect body n (i + 1) pos
    return (x :: xs, pos)

/-- A loop over a slice that reads one value in each round, up to the end or to a round that leaves
it. -/
def collectUpTo (s : List β) (body : Nat → Int → Checked E (Option (α × Int))) :
    Nat → Nat → Int → Checked E (List α)
  | 0, _, _ => .ok []
  | n + 1, i, pos =>
    if pos < s.length then body i pos >>= fun r =>
      match r with
      | none => .ok []
      | some (x, pos) => do
        let xs ← collectUpTo s body n (i + 1) pos
        return x :: xs
    else .ok []

/-- The read returns what the parser finds from its position on, and an error where the parser finds
nothing; it never accesses the slice out of range. -/
structure Follows (s : List β) (read : Int → Checked E (α × Int)) (parse : Parser β α) : Prop where
  some : ∀ pos x t, pos ≤ s.length → parse (s.drop pos) = some (x, t) →
    ∃ next : Nat, next ≤ s.length ∧ t = s.drop next ∧ read pos = .ok (x, (next : Int))
  none : ∀ pos : Nat, pos ≤ s.length → parse (s.drop pos) = none →
    ∃ e, read pos = .error (.error e)

namespace Follows

variable {s : List β} {read : Int → Checked E (α × Int)} {parse : Parser β α}

theorem pure (x : α) : Follows s (fun pos => (.ok (x, pos) : Checked E _))
    (fun p => Option.some (x, p)) where
  some pos y t hpos h := by
    cases h
    exact ⟨pos, hpos, rfl, rfl⟩
  none pos hpos h := by cases h

theorem bind {read' : α → Int → Checked E (γ × Int)} {parse' : α → Parser β γ}
    (h : Follows s read parse) (h' : ∀ x, Follows s (read' x) (parse' x)) :
    Follows s (fun pos => read pos >>= fun r => read' r.1 r.2)
      (fun p => parse p >>= fun r => parse' r.1 r.2) where
  some pos y t hpos hp := by
    obtain ⟨⟨x, t'⟩, hx, hy⟩ := Option.bind_eq_some_iff.mp hp
    obtain ⟨next, hnext, rfl, hr⟩ := h.some pos x t' hpos hx
    obtain ⟨next', hnext', ht, hr'⟩ := (h' x).some next y t hnext hy
    refine ⟨next', hnext', ht, ?_⟩
    rw [hr]
    exact hr'
  none pos hpos hp := by
    cases hx : parse (s.drop pos) with
    | none =>
      obtain ⟨e, he⟩ := h.none pos hpos hx
      refine ⟨e, ?_⟩
      rw [he]
      rfl
    | some r =>
      obtain ⟨next, hnext, ht, hr⟩ := h.some pos r.1 r.2 hpos hx
      rw [hx] at hp
      have hp' : parse' r.1 (s.drop next) = Option.none := by
        rw [← ht]
        exact hp
      obtain ⟨e, he⟩ := (h' r.1).none next hnext hp'
      refine ⟨e, ?_⟩
      rw [hr]
      exact he

theorem collect {body : Nat → Int → Checked E (α × Int)} (h : ∀ i, Follows s (body i) parse)
    (n i : Nat) : Follows s (collect body n i) (many parse n) := by
  induction n generalizing i with
  | zero => exact Follows.pure []
  | succ n ih => exact (h i).bind fun x => (ih (i + 1)).bind fun xs => Follows.pure (x :: xs)

end Follows

section UpTo

variable {s : List β} {body : Nat → Int → Checked E (Option (α × Int))} {n i : Nat} {pos : Int}

theorem collectUpTo_end (h : ¬ pos < s.length) : collectUpTo s body n i pos = .ok [] := by
  cases n with
  | zero => rfl
  | succ n => rw [collectUpTo, if_neg h]

theorem collectUpTo_leave (h : body i pos = .ok none) :
    collectUpTo s body n i pos = .ok [] := by
  cases n with
  | zero => rfl
  | succ n =>
    rw [collectUpTo, h]
    split <;> rfl

theorem collectUpTo_stop (hpos : pos < s.length) (h : body i pos = .error e) :
    collectUpTo s body (n + 1) i pos = .error e := by
  rw [collectUpTo, if_pos hpos, h]
  rfl

theorem collectUpTo_read (hpos : pos < s.length) (h : body i pos = .ok (some (x, next))) :
    collectUpTo s body (n + 1) i pos = (collectUpTo s body n (i + 1) next).map (x :: ·) := by
  rw [collectUpTo, if_pos hpos, h]
  cases hxs : collectUpTo s body n (i + 1) next with
  | error e =>
    show (collectUpTo s body n (i + 1) next >>= _) = _
    rw [hxs]
    rfl
  | ok xs =>
    show (collectUpTo s body n (i + 1) next >>= _) = _
    rw [hxs]
    rfl

/-- A loop over encoded values reads all of them, `value` being what a round makes of one. -/
theorem collectUpTo_encoded (enc : γ → List β) (value : Nat → γ → α) {xs : List γ}
    (hbody : ∀ i x t, x ∈ xs → ∀ pos : Nat, s.drop pos = enc x ++ t →
      body i pos = .ok (some (value i x, ((pos + (enc x).length : Nat) : Int))))
    (hne : ∀ x ∈ xs, enc x ≠ []) (i pos : Nat) (t : List β)
    (hs : s.drop pos = xs.flatMap enc ++ t) :
    collectUpTo s body xs.length i pos = .ok ((xs.zipIdx i).map fun p => value p.2 p.1) := by
  induction xs generalizing i pos with
  | nil => rfl
  | cons x xs ih =>
    rw [List.flatMap_cons, List.append_assoc] at hs
    have hlt : pos < s.length := by
      by_contra hle
      have hnil := congrArg List.length hs
      have hpos := List.length_pos_iff.mpr (hne x (.head _))
      rw [List.drop_of_length_le (Nat.le_of_not_lt hle), List.length_append] at hnil
      simp only [List.length_nil] at hnil
      omega
    have hnext : s.drop (pos + (enc x).length) = xs.flatMap enc ++ t := by
      rw [← List.drop_drop, hs, List.drop_left]
    have hrest := ih (fun i y t hy => hbody i y t (.tail _ hy))
      (fun y hy => hne y (.tail _ hy)) (i + 1) _ hnext
    rw [List.length_cons, collectUpTo_read (by omega)
      (hbody i x _ (.head _) pos hs), hrest]
    rfl

end UpTo

end Cursor
