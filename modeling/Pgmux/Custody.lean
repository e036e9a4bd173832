import Mathlib.Data.List.Basic

namespace Custody

inductive Act (P E : Type) where
  | take (p : P)
  | give (p : P)
  | toss (p : P)
  | lose
  | use (e : E)
  deriving DecidableEq

/-- In which state a pool hands a resource out, which uses are allowed and what they can do to it,
when it may be given back or thrown away, and whether it may be lost. -/
structure Rules (P E σ : Type) where
  fresh : P → σ → Prop
  allowed : σ → E → Prop
  step : σ → E → σ → Prop
  back : P → σ → Prop
  gone : P → σ → Prop
  lost : Prop

/-- The party obeys the rules and ends in `Q`, whatever the resource does; `none` is that the party
does not hold it. -/
def Safe (D : Rules P E σ) (Q : Option σ → Prop) : Option σ → List (Act P E) → Prop
  | s, [] => Q s
  | none, .take p :: t => ∀ s, D.fresh p s → Safe D Q (some s) t
  | some _, .take _ :: _ => True
  | some s, .give p :: t => D.back p s ∧ Safe D Q none t
  | some s, .toss p :: t => D.gone p s ∧ Safe D Q none t
  | some s, .lose :: t => D.lost ∧ Safe D Q (some s) t
  | some s, .use e :: t => D.allowed s e ∧ ∀ s', D.step s e s' → Safe D Q (some s') t
  | none, _ :: _ => False

theorem Safe.mono (h : Safe D Q s t) (hQ : ∀ s, Q s → Q' s) : Safe D Q' s t := by
  induction t generalizing s with
  | nil => exact hQ _ h
  | cons a t ih =>
    cases s with
    | none =>
      cases a with
      | take p => exact fun s hs => ih (h s hs)
      | give p => exact h
      | toss p => exact h
      | lose => exact h
      | use e => exact h
    | some s =>
      cases a with
      | take p => trivial
      | give p => exact ⟨h.1, ih h.2⟩
      | toss p => exact ⟨h.1, ih h.2⟩
      | lose => exact ⟨h.1, ih h.2⟩
      | use e => exact ⟨h.1, fun s' hs => ih (h.2 s' hs)⟩

theorem safe_append : Safe D Q s (t₁ ++ t₂) ↔ Safe D (fun s' => Safe D Q s' t₂) s t₁ := by
  induction t₁ generalizing s with
  | nil => exact Iff.rfl
  | cons a t ih => cases s <;> cases a <;> simp only [List.cons_append, Safe, ih]

theorem Safe.left (h : Safe D Q s (t₁ ++ t₂)) : Safe D (fun _ => True) s t₁ :=
  (safe_append.mp h).mono fun _ _ => trivial

theorem Safe.append (h : Safe D Q' s t₁) (h' : ∀ s', Q' s' → Safe D Q s' t₂) :
    Safe D Q s (t₁ ++ t₂) :=
  safe_append.mpr (h.mono h')

/-- Where the resource is: not there, in a pool, or with a party. -/
inductive Place (I P σ : Type) where
  | away
  | pooled (p : P) (s : σ)
  | held (i : I) (s : σ)

/-- What the acts of the parties do to the resource, also those that break the rules. -/
inductive Move (D : Rules P E σ) : Place I P σ → I × Act P E → Place I P σ → Prop
  | create : D.fresh p s → Move D .away (i, .take p) (.held i s)
  | take : Move D (.pooled p s) (i, .take p) (.held i s)
  | give : Move D (.held j s) (i, .give p) (.pooled p s)
  | giveAgain : Move D (.pooled q s) (i, .give p) (.pooled p s)
  | toss : Move D w (i, .toss p) .away
  | lose : Move D w (i, .lose) w
  | use : D.step s e s' → Move D (.held j s) (i, .use e) (.held j s')
  | usePooled : D.step s e s' → Move D (.pooled p s) (i, .use e) (.pooled p s')

def Obeys (D : Rules P E σ) (w : Place I P σ) : I × Act P E → Prop
  | (_, .take _) => True
  | (i, .give p) => ∃ s, w = .held i s ∧ D.back p s
  | (i, .toss p) => ∃ s, w = .held i s ∧ D.gone p s
  | (i, .lose) => ∃ s, w = .held i s ∧ D.lost
  | (i, .use e) => ∃ s, w = .held i s ∧ D.allowed s e

def Obedient (D : Rules P E σ) : Place I P σ → List (I × Act P E) → Prop
  | _, [] => True
  | w, a :: t => Obeys D w a ∧ ∀ w', Move D w a w' → Obedient D w' t

section Parties

variable {I P E σ : Type} [DecidableEq I] {D : Rules P E σ} {w w' : Place I P σ} {i : I}

def Place.view (i : I) : Place I P σ → Option σ
  | .held j s => if j = i then some s else none
  | _ => none

def acts (i : I) (t : List (I × Act P E)) : List (Act P E) :=
  (t.filter fun a => a.1 = i).map Prod.snd

@[simp] theorem acts_self (a : Act P E) (t : List (I × Act P E)) :
    acts i ((i, a) :: t) = a :: acts i t := by
  simp [acts]

theorem acts_other {j : I} (h : j ≠ i) (a : Act P E) (t : List (I × Act P E)) :
    acts i ((j, a) :: t) = acts i t := by
  simp [acts, h]

theorem held_of_view (h : w.view i = some s) : w = .held i s := by
  cases w with
  | away => cases h
  | pooled p s => cases h
  | held j s =>
    simp only [Place.view, Option.ite_none_right_eq_some, Option.some.injEq] at h
    rw [h.1, h.2]

theorem obeys_of_safe (h : Safe D Q (w.view i) (a :: t)) : Obeys D w (i, a) := by
  cases hv : w.view i with
  | none =>
    rw [hv] at h
    cases a with
    | take p => trivial
    | give p => exact h.elim
    | toss p => exact h.elim
    | lose => exact h.elim
    | use e => exact h.elim
  | some s =>
    have hw := held_of_view hv
    rw [hv] at h
    cases a with
    | take p => trivial
    | give p => exact ⟨s, hw, h.1⟩
    | toss p => exact ⟨s, hw, h.1⟩
    | lose => exact ⟨s, hw, h.1⟩
    | use e => exact ⟨s, hw, h.1⟩

theorem view_other {j : I} (ho : Obeys D w (j, a)) (hm : Move D w (j, a) w') (hj : j ≠ i) :
    w'.view i = w.view i := by
  cases hm with
  | create => simp [Place.view, hj]
  | take => simp [Place.view, hj]
  | give =>
    obtain ⟨s, hw, -⟩ := ho
    cases hw
    simp [Place.view, hj]
  | giveAgain => rfl
  | toss =>
    obtain ⟨s, rfl, -⟩ := ho
    simp [Place.view, hj]
  | lose => rfl
  | use =>
    obtain ⟨s, hw, -⟩ := ho
    cases hw
    simp [Place.view, hj]
  | usePooled => rfl

/-- The acting party stays safe after a move, if what is pooled is as the pool hands it out. -/
theorem safe_of_move (h : Safe D Q (w.view i) (a :: t)) (hm : Move D w (i, a) w')
    (hw : ∀ p s, w = .pooled p s → D.fresh p s) : Safe D Q (w'.view i) t := by
  have ho := obeys_of_safe h
  cases hm with
  | create hf => simpa [Place.view] using h _ hf
  | take => simpa [Place.view] using h _ (hw _ _ rfl)
  | give =>
    obtain ⟨s, hs, -⟩ := ho
    cases hs
    simp only [Place.view, if_true, Safe] at h
    exact h.2
  | giveAgain => exact h.elim
  | toss =>
    obtain ⟨s, rfl, -⟩ := ho
    simp only [Place.view, if_true, Safe] at h
    exact h.2
  | lose =>
    obtain ⟨s, rfl, -⟩ := ho
    simp only [Place.view, if_true, Safe] at h ⊢
    exact h.2
  | use hs =>
    obtain ⟨s, hs', -⟩ := ho
    cases hs'
    simp only [Place.view, if_true, Safe] at h ⊢
    exact h.2 _ hs
  | usePooled => exact h.elim

omit [DecidableEq I] in
/-- After an act that obeys the rules, what is pooled is as the pool hands it out. -/
theorem fresh_of_move {x : I × Act P E} (hD : ∀ p s, D.back p s → D.fresh p s) (ho : Obeys D w x)
    (hm : Move D w x w') (hw : ∀ p s, w = .pooled p s → D.fresh p s) :
    ∀ p s, w' = .pooled p s → D.fresh p s := by
  intro p s hp
  cases hm with
  | create => cases hp
  | take => cases hp
  | give =>
    cases hp
    obtain ⟨s, hs, hb⟩ := ho
    cases hs
    exact hD _ _ hb
  | giveAgain =>
    obtain ⟨s, hs, -⟩ := ho
    cases hs
  | toss => cases hp
  | lose => exact hw p s hp
  | use => cases hp
  | usePooled =>
    obtain ⟨s, hs, -⟩ := ho
    cases hs

theorem obedient_of_safe {t : List (I × Act P E)} (hD : ∀ p s, D.back p s → D.fresh p s)
    (hw : ∀ p s, w = .pooled p s → D.fresh p s)
    (h : ∀ i, Safe D (fun _ => True) (w.view i) (acts i t)) : Obedient D w t := by
  induction t generalizing w with
  | nil => trivial
  | cons x t ih =>
    obtain ⟨i, a⟩ := x
    have hi := h i
    rw [acts_self] at hi
    have ho := obeys_of_safe hi
    refine ⟨ho, fun w' hm => ih (fresh_of_move hD ho hm hw) fun j => ?_⟩
    by_cases hj : i = j
    · subst hj
      exact safe_of_move hi hm hw
    · rw [view_other ho hm hj, ← acts_other hj a t]
      exact h j

end Parties

end Custody
