import Mathlib.Data.List.Basic

namespace Interaction

/-- Programs that call operations `o`, answered in `Ans o` by the environment, with unbounded
loops. -/
inductive Prog {Op : Type} (Ans : Op → Type) : Type → Type 1 where
  | ret {α : Type} (a : α) : Prog Ans α
  | call {α : Type} (o : Op) (k : Ans o → Prog Ans α) : Prog Ans α
  | loop {σ β α : Type} (body : σ → Prog Ans (σ ⊕ β)) (s : σ) (k : β → Prog Ans α) : Prog Ans α

variable {Op : Type} {Ans : Op → Type}

def Prog.bind : Prog Ans α → (α → Prog Ans β) → Prog Ans β
  | .ret a, f => f a
  | .call o k, f => .call o fun x => (k x).bind f
  | .loop body s k, f => .loop body s fun b => (k b).bind f

instance : Monad (Prog Ans) where
  pure := .ret
  bind := .bind

def perform (o : Op) : Prog Ans (Ans o) := .call o .ret

def iterate (body : σ → Prog Ans (σ ⊕ β)) (s : σ) : Prog Ans β := .loop body s .ret

abbrev Trace (Ans : Op → Type) := List (Sigma Ans)

def answers [DecidableEq Op] (o : Op) (tr : Trace Ans) : List (Ans o) :=
  tr.filterMap fun e => if h : e.1 = o then some (h ▸ e.2) else none

theorem mem_answers [DecidableEq Op] {o : Op} {x : Ans o} {tr : Trace Ans} :
    x ∈ answers o tr ↔ ⟨o, x⟩ ∈ tr := by
  unfold answers
  rw [List.mem_filterMap]
  constructor
  · rintro ⟨⟨o', y⟩, hm, hy⟩
    split at hy
    · rename_i h
      cases h
      cases hy
      exact hm
    · cases hy
  · intro h
    exact ⟨_, h, by simp⟩

theorem answers_append [DecidableEq Op] (o : Op) (t₁ t₂ : Trace Ans) :
    answers o (t₁ ++ t₂) = answers o t₁ ++ answers o t₂ := List.filterMap_append

theorem answers_cons_self [DecidableEq Op] (o : Op) (x : Ans o) (t : Trace Ans) :
    answers o (⟨o, x⟩ :: t) = x :: answers o t := by
  simp [answers]

theorem answers_cons_ne [DecidableEq Op] {o : Op} {e : Sigma Ans} (h : e.1 ≠ o) (t : Trace Ans) :
    answers o (e :: t) = answers o t := by
  simp [answers, h]

theorem answers_eq_nil [DecidableEq Op] {o : Op} {tr : Trace Ans} (h : ∀ e ∈ tr, e.1 ≠ o) :
    answers o tr = [] := by
  unfold answers
  rw [List.filterMap_eq_nil_iff]
  intro e he
  simp [h e he]

theorem answers_subset [DecidableEq Op] {o : Op} {t tr : Trace Ans} (h : t ⊆ tr) :
    answers o t ⊆ answers o tr := fun _ hx => mem_answers.mpr (h (mem_answers.mp hx))

/-- The program can make the calls of the trace, be answered so, and return the result. -/
inductive Runs : {α : Type} → Prog Ans α → Trace Ans → α → Prop
  | ret {a : α} : Runs (.ret a) [] a
  | call {k : Ans o → Prog Ans α} : Runs (k x) tr a → Runs (.call o k) (⟨o, x⟩ :: tr) a
  | again {body : σ → Prog Ans (σ ⊕ β)} {k : β → Prog Ans α} :
      Runs (body s) t₁ (.inl s') → Runs (.loop body s' k) t₂ a →
      Runs (.loop body s k) (t₁ ++ t₂) a
  | leave {body : σ → Prog Ans (σ ⊕ β)} {k : β → Prog Ans α} :
      Runs (body s) t₁ (.inr b) → Runs (k b) t₂ a → Runs (.loop body s k) (t₁ ++ t₂) a

@[simp] theorem runs_pure {a b : α} {tr : Trace Ans} :
    Runs (pure a : Prog Ans α) tr b ↔ tr = [] ∧ b = a := by
  constructor
  · intro h
    cases h
    exact ⟨rfl, rfl⟩
  · rintro ⟨rfl, rfl⟩
    exact .ret

@[simp] theorem runs_perform {o : Op} {x : Ans o} {tr : Trace Ans} :
    Runs (perform o) tr x ↔ tr = [⟨o, x⟩] := by
  constructor
  · intro h
    cases h with
    | call h => cases h; rfl
  · rintro rfl
    exact .call .ret

theorem Runs.bind {p : Prog Ans α} {f : α → Prog Ans β} (h₁ : Runs p t₁ a)
    (h₂ : Runs (f a) t₂ b) : Runs (p >>= f) (t₁ ++ t₂) b := by
  induction h₁ with
  | ret => exact h₂
  | call _ ih => exact .call (ih h₂)
  | again hb _ _ ih =>
    rw [List.append_assoc]
    exact .again hb (ih h₂)
  | leave hb _ _ ih =>
    rw [List.append_assoc]
    exact .leave hb (ih h₂)

theorem Runs.of_loop_bind {body : σ → Prog Ans (σ ⊕ γ)} {k : γ → Prog Ans α}
    {f : α → Prog Ans β} (h : Runs (.loop body s fun c => (k c).bind f) tr b)
    (ih : ∀ c t, Runs ((k c).bind f) t b →
      ∃ t₁ a t₂, Runs (k c) t₁ a ∧ Runs (f a) t₂ b ∧ t = t₁ ++ t₂) :
    ∃ t₁ a t₂, Runs (.loop body s k) t₁ a ∧ Runs (f a) t₂ b ∧ tr = t₁ ++ t₂ := by
  generalize hp : Prog.loop body s (fun c => (k c).bind f) = p at h
  induction h generalizing s with
  | ret => cases hp
  | call => cases hp
  | again hb _ _ ihl =>
    cases hp
    obtain ⟨t₁, a, t₂, h₁, h₂, rfl⟩ := ihl ih rfl
    exact ⟨_, a, t₂, .again hb h₁, h₂, (List.append_assoc ..).symm⟩
  | leave hb hk =>
    cases hp
    obtain ⟨t₁, a, t₂, h₁, h₂, rfl⟩ := ih _ _ hk
    exact ⟨_, a, t₂, .leave hb h₁, h₂, (List.append_assoc ..).symm⟩

theorem Runs.of_bind {p : Prog Ans α} {f : α → Prog Ans β} (h : Runs (p >>= f) tr b) :
    ∃ t₁ a t₂, Runs p t₁ a ∧ Runs (f a) t₂ b ∧ tr = t₁ ++ t₂ := by
  change Runs (p.bind f) tr b at h
  induction p generalizing tr with
  | ret a => exact ⟨[], a, tr, .ret, h, rfl⟩
  | call o k ih =>
    cases h with
    | call h =>
      obtain ⟨t₁, a, t₂, h₁, h₂, rfl⟩ := ih _ h
      exact ⟨_, a, t₂, .call h₁, h₂, rfl⟩
  | loop body s k _ ih => exact h.of_loop_bind fun c t hc => ih c hc

@[simp] theorem runs_bind {p : Prog Ans α} {f : α → Prog Ans β} :
    Runs (p >>= f) tr b ↔ ∃ t₁ a t₂, Runs p t₁ a ∧ Runs (f a) t₂ b ∧ tr = t₁ ++ t₂ :=
  ⟨Runs.of_bind, fun ⟨_, _, _, h₁, h₂, h⟩ => h ▸ h₁.bind h₂⟩

theorem runs_perform_bind {o : Op} {f : Ans o → Prog Ans β} :
    Runs (perform o >>= f) tr b ↔ ∃ x t, Runs (f x) t b ∧ tr = ⟨o, x⟩ :: t := by
  constructor
  · intro h
    cases h with
    | call h => exact ⟨_, _, h, rfl⟩
  · rintro ⟨x, t, h, rfl⟩
    exact .call h

theorem Runs.of_seq {p : Prog Ans α} {f : α → Prog Ans β} (h : Runs (p >>= f) tr b) :
    ∃ t₁ a t₂, tr = t₁ ++ t₂ ∧ Runs p t₁ a ∧ Runs (f a) t₂ b := by
  obtain ⟨t₁, a, t₂, h₁, h₂, ht⟩ := h.of_bind
  exact ⟨t₁, a, t₂, ht, h₁, h₂⟩

theorem Runs.of_map {p : Prog Ans α} {f : α → β} (h : Runs (p >>= fun a => pure (f a)) tr b) :
    ∃ a, Runs p tr a ∧ b = f a := by
  obtain ⟨t₁, a, t₂, h₁, h₂, rfl⟩ := h.of_bind
  obtain ⟨rfl, rfl⟩ := runs_pure.mp h₂
  exact ⟨a, by rwa [List.append_nil], rfl⟩

/-- What holds before the loop and is kept by every round that goes on holds before the round
that leaves it. -/
theorem Runs.of_iterate {body : σ → Prog Ans (σ ⊕ β)} {I : σ → Trace Ans → Prop}
    (h : Runs (iterate body s) tr b) (init : I s [])
    (round : ∀ s t t' s', I s t → Runs (body s) t' (.inl s') → I s' (t ++ t')) :
    ∃ s' t t', I s' t ∧ Runs (body s') t' (.inr b) ∧ tr = t ++ t' := by
  suffices ∀ pre, I s pre →
      ∃ s' t t', I s' (pre ++ t) ∧ Runs (body s') t' (.inr b) ∧ tr = t ++ t' by
    simpa using this [] init
  clear init
  unfold iterate at h
  generalize hp : Prog.loop body s .ret = p at h
  induction h generalizing s with
  | ret => cases hp
  | call => cases hp
  | again hb _ _ ih =>
    cases hp
    intro pre hpre
    obtain ⟨s', t, t', hI, hr, rfl⟩ := ih round rfl (pre ++ _) (round _ _ _ _ hpre hb)
    exact ⟨s', _, t', by simpa using hI, hr, (List.append_assoc ..).symm⟩
  | leave hb hk =>
    cases hp
    cases hk
    intro pre hpre
    exact ⟨s, [], _, by simpa using hpre, hb, by simp⟩

/-- The rounds of a loop: the state before each with the calls that it makes. -/
inductive Rounds (body : σ → Prog Ans (σ ⊕ β)) : σ → List (σ × Trace Ans) → β → Prop
  | leave : Runs (body s) t (.inr b) → Rounds body s [(s, t)] b
  | again : Runs (body s) t (.inl s') → Rounds body s' rs b → Rounds body s ((s, t) :: rs) b

def flat (rs : List (σ × Trace Ans)) : Trace Ans := (rs.map Prod.snd).flatten

@[simp] theorem flat_cons (r : σ × Trace Ans) (rs : List (σ × Trace Ans)) :
    flat (r :: rs) = r.2 ++ flat rs := rfl

theorem runs_iterate {body : σ → Prog Ans (σ ⊕ β)} :
    Runs (iterate body s) tr b ↔ ∃ rs, Rounds body s rs b ∧ tr = flat rs := by
  constructor
  · intro h
    unfold iterate at h
    generalize hp : Prog.loop body s .ret = p at h
    induction h generalizing s with
    | ret => cases hp
    | call => cases hp
    | again hb _ _ ih =>
      cases hp
      obtain ⟨rs, hr, rfl⟩ := ih rfl
      exact ⟨_, .again hb hr, rfl⟩
    | leave hb hk =>
      cases hp
      cases hk
      exact ⟨_, .leave hb, by simp [flat]⟩
  · rintro ⟨rs, hr, rfl⟩
    induction hr with
    | leave hb => exact .leave hb .ret
    | again hb _ ih => exact .again hb ih

/-- What holds of the state at first, with the states before it, and is kept by every round, holds
at each round. -/
theorem Rounds.at_round {body : σ → Prog Ans (σ ⊕ β)} {I : List σ → σ → Prop}
    (h : Rounds body s rs b) (init : I [] s)
    (round : ∀ past s t s', (s, t) ∈ rs → I past s → Runs (body s) t (.inl s') → I (past ++ [s]) s')
    (hrs : rs = pre ++ (s₁, t₁) :: post) :
    I (pre.map Prod.fst) s₁ ∧ ∃ r, Runs (body s₁) t₁ r := by
  suffices ∀ past, I past s → I (past ++ pre.map Prod.fst) s₁ ∧ ∃ r, Runs (body s₁) t₁ r from
    this [] init
  clear init
  induction h generalizing pre with
  | leave hb =>
    intro past init
    cases pre with
    | nil =>
      cases hrs
      exact ⟨by simpa using init, _, hb⟩
    | cons r pre => simp at hrs
  | again hb _ ih =>
    intro past init
    cases pre with
    | nil =>
      cases hrs
      exact ⟨by simpa using init, _, hb⟩
    | cons r pre =>
      cases hrs
      have hnext := round past _ _ _ (.head _) init hb
      have hlater := ih (fun past s t s' hm => round past s t s' (.tail _ hm)) rfl
        _ hnext
      simpa using hlater

theorem Rounds.head {body : σ → Prog Ans (σ ⊕ β)} (h : Rounds body s rs b)
    (hr : rs.head? = some r) : r.1 = s := by
  cases h <;> cases hr <;> rfl

theorem Rounds.drop {body : σ → Prog Ans (σ ⊕ β)} (h : Rounds body s rs b)
    (hrs : rs = pre ++ r :: post) : Rounds body r.1 (r :: post) b := by
  induction h generalizing pre with
  | leave hb =>
    cases pre with
    | nil =>
      cases hrs
      exact .leave hb
    | cons r₀ pre => simp at hrs
  | again hb hrest ih =>
    cases pre with
    | nil =>
      cases hrs
      exact .again hb hrest
    | cons r₀ pre =>
      cases hrs
      exact ih rfl

theorem Rounds.uncons {body : σ → Prog Ans (σ ⊕ β)} (h : Rounds body s (r :: next :: post) b) :
    Runs (body r.1) r.2 (.inl next.1) ∧ Rounds body next.1 (next :: post) b := by
  cases h with
  | again hrun hrest =>
    rw [hrest.head rfl]
    exact ⟨hrun, hrest⟩

theorem Rounds.runs_of_mem {body : σ → Prog Ans (σ ⊕ β)} (h : Rounds body s rs b)
    (hm : (s₁, t₁) ∈ rs) : ∃ r, Runs (body s₁) t₁ r := by
  obtain ⟨pre, post, hrs⟩ := List.append_of_mem hm
  exact (h.at_round (I := fun _ _ => True) trivial (fun _ _ _ _ _ _ _ => trivial) hrs).2

theorem mem_flat {rs : List (σ × Trace Ans)} {e : Sigma Ans} :
    e ∈ flat rs ↔ ∃ r ∈ rs, e ∈ r.2 := by
  unfold flat
  rw [List.mem_flatten]
  constructor
  · rintro ⟨t, ht, he⟩
    obtain ⟨r, hr, rfl⟩ := List.mem_map.mp ht
    exact ⟨r, hr, he⟩
  · rintro ⟨r, hr, he⟩
    exact ⟨r.2, List.mem_map_of_mem hr, he⟩

def Within (P : Op → Prop) (p : Prog Ans α) : Prop := ∀ tr a, Runs p tr a → ∀ e ∈ tr, P e.1

theorem Within.mono {P Q : Op → Prop} {p : Prog Ans α} (hp : Within P p) (h : ∀ o, P o → Q o) :
    Within Q p := fun tr a hr e he => h _ (hp tr a hr e he)

theorem within_pure {P : Op → Prop} (a : α) : Within P (pure a : Prog Ans α) := by
  intro tr b h e he
  obtain ⟨rfl, -⟩ := runs_pure.mp h
  cases he

theorem within_perform {P : Op → Prop} {o : Op} (h : P o) :
    Within P (perform o : Prog Ans (Ans o)) := by
  intro tr x hr e he
  obtain rfl := runs_perform.mp hr
  obtain rfl := List.mem_singleton.mp he
  exact h

theorem Within.bind {P : Op → Prop} {p : Prog Ans α} {f : α → Prog Ans β} (hp : Within P p)
    (hf : ∀ a, Within P (f a)) : Within P (p >>= f) := by
  intro tr b h e he
  obtain ⟨t₁, a, t₂, h₁, h₂, rfl⟩ := h.of_bind
  rcases List.mem_append.mp he with he | he
  · exact hp t₁ a h₁ e he
  · exact hf a t₂ b h₂ e he

theorem Within.ite {P : Op → Prop} {b : Prop} [Decidable b] {p q : Prog Ans α}
    (hp : Within P p) (hq : Within P q) : Within P (if b then p else q) := by
  split
  · exact hp
  · exact hq

theorem Within.iterate {P : Op → Prop} {body : σ → Prog Ans (σ ⊕ β)}
    (h : ∀ s, Within P (body s)) (s : σ) : Within P (Interaction.iterate body s) := by
  intro tr b hr e he
  obtain ⟨s', t, t', ht, hr', rfl⟩ := hr.of_iterate (I := fun _ t => ∀ e ∈ t, P e.1)
    (by simp) (by
      intro s t t' s' ht hb e he
      rcases List.mem_append.mp he with he | he
      · exact ht e he
      · exact h s t' _ hb e he)
  rcases List.mem_append.mp he with he | he
  · exact ht e he
  · exact h s' t' _ hr' e he

theorem Within.answers_eq_nil [DecidableEq Op] {P : Op → Prop} {o : Op} {p : Prog Ans α}
    (hp : Within P p) (h : Runs p tr a) (ho : ¬ P o) : answers o tr = [] := by
  apply Interaction.answers_eq_nil
  rintro e he rfl
  exact ho (hp tr a h e he)

structure Joins (P : Trace Ans → Prop) : Prop where
  nil : P []
  append : P t₁ → P t₂ → P (t₁ ++ t₂)

def Always (P : Trace Ans → Prop) (p : Prog Ans α) : Prop := ∀ tr a, Runs p tr a → P tr

section Always

variable {P : Trace Ans → Prop} (hP : Joins P)

include hP

theorem Joins.pure (a : α) : Always P (Pure.pure a : Prog Ans α) := by
  intro tr b h
  obtain ⟨rfl, -⟩ := runs_pure.mp h
  exact hP.nil

theorem Joins.bind {p : Prog Ans α} {f : α → Prog Ans β} (hp : Always P p)
    (hf : ∀ a, Always P (f a)) : Always P (p >>= f) := by
  intro tr b h
  obtain ⟨t₁, a, t₂, h₁, h₂, rfl⟩ := h.of_bind
  exact hP.append (hp t₁ a h₁) (hf a t₂ b h₂)

theorem Joins.iterate {body : σ → Prog Ans (σ ⊕ β)} (h : ∀ s, Always P (body s)) (s : σ) :
    Always P (Interaction.iterate body s) := by
  intro tr b hr
  obtain ⟨s', t, t', ht, hr', rfl⟩ := hr.of_iterate (I := fun _ t => P t) hP.nil
    fun s t t' s' ht hb => hP.append ht (h s t' _ hb)
  exact hP.append ht (h s' t' _ hr')

end Always

theorem Always.ite {P : Trace Ans → Prop} {b : Prop} [Decidable b] {p q : Prog Ans α}
    (hp : Always P p) (hq : Always P q) : Always P (if b then p else q) := by
  split
  · exact hp
  · exact hq

abbrev Handler (Ans : Op → Type) (σ : Type) := σ → (o : Op) → Ans o × σ

/-- Execute a program against an environment; `none` when the fuel runs out. -/
def Prog.drive (env : Handler Ans σ) : Nat → σ → Prog Ans α → Option (α × Trace Ans × σ)
  | 0, _, _ => none
  | _ + 1, e, .ret a => some (a, [], e)
  | n + 1, e, .call o k =>
    ((k (env e o).1).drive env n (env e o).2).map fun r =>
      (r.1, ⟨o, (env e o).1⟩ :: r.2.1, r.2.2)
  | n + 1, e, .loop body s k =>
    match (body s).drive env n e with
    | none => none
    | some (.inl s', t₁, e') =>
      ((Prog.loop body s' k).drive env n e').map fun r => (r.1, t₁ ++ r.2.1, r.2.2)
    | some (.inr b, t₁, e') =>
      ((k b).drive env n e').map fun r => (r.1, t₁ ++ r.2.1, r.2.2)

theorem Prog.drive_runs {env : Handler Ans σ} {p : Prog Ans α}
    (h : p.drive env n e = some (a, tr, e')) : Runs p tr a := by
  induction n generalizing α e tr e' with
  | zero => cases p <;> cases h
  | succ n ih =>
    cases p with
    | ret b =>
      cases h
      exact .ret
    | call o k =>
      simp only [drive, Option.map_eq_some_iff] at h
      obtain ⟨r, hk, hr⟩ := h
      cases hr
      exact .call (ih hk)
    | loop body s k =>
      simp only [drive] at h
      split at h
      · cases h
      · rename_i hb
        obtain ⟨r, hk, hr⟩ := Option.map_eq_some_iff.mp h
        cases hr
        exact .again (ih hb) (ih hk)
      · rename_i hb
        obtain ⟨r, hk, hr⟩ := Option.map_eq_some_iff.mp h
        cases hr
        exact .leave (ih hb) (ih hk)

def driveRounds (env : Handler Ans ε) (body : σ → Prog Ans (σ ⊕ β)) :
    Nat → ε → σ → Option (List (σ × Trace Ans) × β × ε)
  | 0, _, _ => none
  | n + 1, e, s =>
    match (body s).drive env n e with
    | none => none
    | some (.inl s', t, e') =>
      (driveRounds env body n e' s').map fun r => ((s, t) :: r.1, r.2)
    | some (.inr b, t, e') => some ([(s, t)], b, e')

theorem driveRounds_rounds {env : Handler Ans ε} {body : σ → Prog Ans (σ ⊕ β)}
    (h : driveRounds env body n e s = some (rs, b, e')) : Rounds body s rs b := by
  induction n generalizing e s rs with
  | zero => cases h
  | succ n ih =>
    simp only [driveRounds] at h
    split at h
    · cases h
    · rename_i hb
      obtain ⟨⟨rs', b', e''⟩, hr, hs⟩ := Option.map_eq_some_iff.mp h
      cases hs
      exact .again (Prog.drive_runs hb) (ih hr)
    · rename_i hb
      cases h
      exact .leave (Prog.drive_runs hb)

def Yields (R : α → Prop) (p : Prog Ans α) : Prop := ∀ tr a, Runs p tr a → R a

theorem yields_pure {R : α → Prop} (h : R a) : Yields R (pure a : Prog Ans α) := by
  intro tr b hr
  obtain ⟨-, rfl⟩ := runs_pure.mp hr
  exact h

theorem Yields.bind {R : β → Prop} {p : Prog Ans α} {f : α → Prog Ans β}
    (hf : ∀ a, Yields R (f a)) : Yields R (p >>= f) := by
  intro tr b hr
  obtain ⟨t₁, a, t₂, -, h, -⟩ := hr.of_bind
  exact hf a t₂ b h

section Tells

variable {up : Sigma Ans → Bool} {good : α → Bool}

def Smooth (up : Sigma Ans → Bool) (tr : Trace Ans) : Prop := ∀ e ∈ tr, up e = true

def Tells (up : Sigma Ans → Bool) (good : α → Bool) (p : Prog Ans α) : Prop :=
  ∀ tr a, Runs p tr a → (good a = true ↔ Smooth up tr)

theorem smooth_nil : Smooth up [] := by
  intro e he
  cases he

theorem smooth_append {t₁ t₂ : Trace Ans} :
    Smooth up (t₁ ++ t₂) ↔ Smooth up t₁ ∧ Smooth up t₂ := List.forall_mem_append

theorem smooth_cons {e : Sigma Ans} {t : Trace Ans} :
    Smooth up (e :: t) ↔ up e ∧ Smooth up t := List.forall_mem_cons

theorem tells_pure (h : good a) : Tells up good (pure a : Prog Ans α) := by
  intro tr b hr
  obtain ⟨rfl, rfl⟩ := runs_pure.mp hr
  exact ⟨fun _ => smooth_nil, fun _ => h⟩

theorem Tells.perform_bind {o : Op} {f : Ans o → Prog Ans α}
    (hup : ∀ x, up ⟨o, x⟩ = true → Tells up good (f x))
    (hdown : ∀ x, up ⟨o, x⟩ = false → Yields (fun a => good a = false) (f x)) :
    Tells up good (perform o >>= f) := by
  intro tr a hr
  rw [runs_perform_bind] at hr
  obtain ⟨x, t, hr, rfl⟩ := hr
  rw [smooth_cons]
  cases hx : up ⟨o, x⟩ with
  | true => simp [hup x hx t a hr]
  | false => simp [hdown x hx t a hr]

theorem Tells.bind {good' : β → Bool} {p : Prog Ans β} {f : β → Prog Ans α}
    (hp : Tells up good' p) (hgood : ∀ b, good' b → Tells up good (f b))
    (hbad : ∀ b, good' b = false → Yields (fun a => good a = false) (f b)) :
    Tells up good (p >>= f) := by
  intro tr a hr
  obtain ⟨t₁, b, t₂, h₁, h₂, rfl⟩ := hr.of_bind
  rw [smooth_append, ← hp t₁ b h₁]
  cases hb : good' b with
  | true => simp [hgood b hb t₂ a h₂]
  | false => simp [hbad b hb t₂ a h₂]

theorem Tells.ite {p q : Prog Ans α} [Decidable c] (hp : Tells up good p) (hq : Tells up good q) :
    Tells up good (if c then p else q) := by
  split
  · exact hp
  · exact hq

theorem Tells.iterate_of {body : σ → Prog Ans (σ ⊕ α)} {I : σ → Bool}
    (h : ∀ s t r, Runs (body s) t r → (Sum.elim I good r ↔ I s ∧ Smooth up t))
    (hs : I s) : Tells up good (Interaction.iterate body s) := by
  intro tr a hr
  obtain ⟨s', t, t', hI, hb, rfl⟩ := hr.of_iterate (I := fun s t => I s ↔ Smooth up t)
    ⟨fun _ => smooth_nil, fun _ => hs⟩ (by
    intro s t t' s' hI hb
    rw [smooth_append, ← hI]
    exact h s t' _ hb)
  rw [smooth_append, ← hI]
  exact h s' t' _ hb

theorem Tells.iterate {body : σ → Prog Ans (σ ⊕ α)}
    (h : ∀ s, Tells up (Sum.elim (fun _ => true) good) (body s)) (s : σ) :
    Tells up good (Interaction.iterate body s) :=
  .iterate_of (I := fun _ => true) (fun s t r hr => by simp [h s t r hr]) rfl

end Tells

end Interaction
