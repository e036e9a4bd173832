import Mathlib.Data.List.Basic

namespace Codec

variable {α β γ : Type}

abbrev Parser (β α : Type) := List β → Option (α × List β)

/-- The parser accepts the encodings of the valid values, with anything behind them, and nothing
else. -/
def Inverts (parse : Parser β α) (Valid : α → Prop) (enc : α → List β) : Prop :=
  ∀ p x t, parse p = some (x, t) ↔ Valid x ∧ p = enc x ++ t

def both (parse : Parser β α) (parse' : Parser β γ) : Parser β (α × γ) := fun p => do
  let (x, p) ← parse p
  let (y, p) ← parse' p
  return ((x, y), p)

def many (item : Parser β α) : Nat → Parser β (List α)
  | 0, p => some ([], p)
  | n + 1, p => do
    let (x, p) ← item p
    let (xs, p) ← many item n p
    return (x :: xs, p)

def counted (count : Parser β Nat) (item : Parser β α) : Parser β (List α) := fun p => do
  let (n, p) ← count p
  many item n p

theorem both_eq_some {parse : Parser β α} {parse' : Parser β γ} :
    both parse parse' p = some ((x, y), t) ↔
      ∃ p', parse p = some (x, p') ∧ parse' p' = some (y, t) := by
  simp [both, Option.bind_eq_some_iff]

theorem many_succ_eq_some {item : Parser β α} :
    many item (n + 1) p = some (xs, t) ↔
      ∃ x p' xs', item p = some (x, p') ∧ many item n p' = some (xs', t) ∧ xs = x :: xs' := by
  simp only [many, Option.bind_eq_bind, Option.bind_eq_some_iff, Option.pure_def,
    Option.some.injEq, Prod.mk.injEq, Prod.exists]
  constructor
  · rintro ⟨x, p', hx, xs', t', hxs, rfl, rfl⟩
    exact ⟨x, p', xs', hx, hxs, rfl⟩
  · rintro ⟨x, p', xs', hx, hxs, rfl⟩
    exact ⟨x, p', hx, xs', t, hxs, rfl, rfl⟩

theorem counted_eq_some {count : Parser β Nat} {item : Parser β α} :
    counted count item p = some (xs, t) ↔
      ∃ n p', count p = some (n, p') ∧ many item n p' = some (xs, t) := by
  simp [counted, Option.bind_eq_some_iff]

namespace Inverts

variable {parse : Parser β α} {parse' : Parser β γ} {Valid : α → Prop} {Valid' : γ → Prop}
  {enc : α → List β} {enc' : γ → List β}

theorem read (h : Inverts parse Valid enc) (hx : Valid x) (t : List β) :
    parse (enc x ++ t) = some (x, t) :=
  (h _ _ _).mpr ⟨hx, rfl⟩

theorem both (h : Inverts parse Valid enc) (h' : Inverts parse' Valid' enc') :
    Inverts (both parse parse') (fun x => Valid x.1 ∧ Valid' x.2)
      (fun x => enc x.1 ++ enc' x.2) := by
  rintro p ⟨x, y⟩ t
  rw [both_eq_some]
  constructor
  · rintro ⟨p', hx, hy⟩
    obtain ⟨hv, rfl⟩ := (h _ _ _).mp hx
    obtain ⟨hv', rfl⟩ := (h' _ _ _).mp hy
    exact ⟨⟨hv, hv'⟩, (List.append_assoc ..).symm⟩
  · rintro ⟨⟨hv, hv'⟩, rfl⟩
    refine ⟨enc' y ++ t, ?_, h'.read hv' t⟩
    rw [List.append_assoc]
    exact h.read hv _

theorem many (h : Inverts parse Valid enc) (n : Nat) :
    Inverts (many parse n) (fun xs => xs.length = n ∧ ∀ x ∈ xs, Valid x) (List.flatMap enc) := by
  induction n with
  | zero =>
    intro p xs t
    simp only [Codec.many, Option.some.injEq, Prod.mk.injEq, List.length_eq_zero_iff]
    constructor
    · rintro ⟨rfl, rfl⟩
      simp
    · rintro ⟨⟨rfl, -⟩, rfl⟩
      simp
  | succ n ih =>
    intro p xs t
    rw [many_succ_eq_some]
    constructor
    · rintro ⟨x, p', xs', hx, hxs, rfl⟩
      obtain ⟨hv, rfl⟩ := (h _ _ _).mp hx
      obtain ⟨⟨hlen, hall⟩, rfl⟩ := (ih _ _ _).mp hxs
      refine ⟨⟨by rw [List.length_cons, hlen], List.forall_mem_cons.mpr ⟨hv, hall⟩⟩, ?_⟩
      rw [List.flatMap_cons, List.append_assoc]
    · rintro ⟨⟨hlen, hall⟩, rfl⟩
      cases xs with
      | nil => cases hlen
      | cons x xs =>
        obtain ⟨hv, hall⟩ := List.forall_mem_cons.mp hall
        refine ⟨x, xs.flatMap enc ++ t, xs, ?_, ih.read ⟨Nat.succ.inj hlen, hall⟩ t, rfl⟩
        rw [List.flatMap_cons, List.append_assoc]
        exact h.read hv _

theorem counted {count : Parser β Nat} {put : Nat → List β}
    (hc : Inverts count (· < bound) put) (h : Inverts parse Valid enc) :
    Inverts (counted count parse) (fun xs => xs.length < bound ∧ ∀ x ∈ xs, Valid x)
      (fun xs => put xs.length ++ xs.flatMap enc) := by
  intro p xs t
  rw [counted_eq_some]
  constructor
  · rintro ⟨n, p', hn, hxs⟩
    obtain ⟨hlt, rfl⟩ := (hc _ _ _).mp hn
    obtain ⟨⟨rfl, hall⟩, rfl⟩ := (h.many n _ _ _).mp hxs
    exact ⟨⟨hlt, hall⟩, (List.append_assoc ..).symm⟩
  · rintro ⟨⟨hlt, hall⟩, rfl⟩
    refine ⟨xs.length, xs.flatMap enc ++ t, ?_, (h.many _).read ⟨rfl, hall⟩ t⟩
    rw [List.append_assoc]
    exact hc.read hlt _

end Inverts

end Codec
