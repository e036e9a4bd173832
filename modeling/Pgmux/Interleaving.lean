import Mathlib.Algebra.BigOperators.Group.Multiset.Basic
import Mathlib.Algebra.Order.BigOperators.Group.Multiset
import Mathlib.Logic.Relation

namespace Interleaving

/-- Threads over a shared state: how a call begins, and what an atomic section of a thread does. -/
structure System (σ θ : Type) where
  call : θ → Prop
  act : σ → θ → σ → Option θ → Prop

structure State (σ θ : Type) where
  shared : σ
  threads : Multiset θ

def next : Option θ → Multiset θ
  | none => 0
  | some t => {t}

/-- A call begins, or one of the threads does its next section, which `ok` allows. -/
inductive Step (M : System σ θ) (ok : State σ θ → θ → Prop) : State σ θ → State σ θ → Prop
  | call : M.call t → Step M ok ⟨x, ts⟩ ⟨x, t ::ₘ ts⟩
  | act : M.act x t x' r → ok ⟨x, t ::ₘ ts⟩ t → Step M ok ⟨x, t ::ₘ ts⟩ ⟨x', next r + ts⟩

abbrev Reach (M : System σ θ) (ok : State σ θ → θ → Prop) : State σ θ → State σ θ → Prop :=
  Relation.ReflTransGen (Step M ok)

theorem Reach.invariant {M : System σ θ} {I : State σ θ → Prop} (h : Reach M ok s s') (hs : I s)
    (hI : ∀ s s', I s → Step M ok s s' → I s') : I s' := by
  induction h with
  | refl => exact hs
  | tail _ h ih => exact hI _ _ ih h

theorem Reach.call {M : System σ θ} (t : θ) (hc : M.call t) (h : Reach M ok ⟨x, t ::ₘ ts⟩ s) :
    Reach M ok ⟨x, ts⟩ s :=
  .head (.call hc) h

theorem Reach.act {M : System σ θ} (t : θ) (ts : Multiset θ) (ha : M.act x t x' r)
    (hok : ok ⟨x, t ::ₘ ts⟩ t) (h : Reach M ok ⟨x', next r + ts⟩ s) :
    Reach M ok ⟨x, t ::ₘ ts⟩ s :=
  .head (.act ha hok) h

section Total

variable [AddCommMonoid A]

def total (w : θ → A) (ts : Multiset θ) : A := (ts.map w).sum

@[simp] theorem total_cons (w : θ → A) (t : θ) (ts : Multiset θ) :
    total w (t ::ₘ ts) = w t + total w ts := by
  simp [total]

@[simp] theorem total_next (w : θ → A) (r : Option θ) (ts : Multiset θ) :
    total w (next r + ts) = r.elim 0 w + total w ts := by
  cases r <;> simp [total, next]

theorem total_add (w w' : θ → A) (ts : Multiset θ) :
    total (fun t => w t + w' t) ts = total w ts + total w' ts :=
  Multiset.sum_map_add

theorem total_le [Preorder A] [AddLeftMono A] {w w' : θ → A} (h : ∀ t, w t ≤ w' t)
    (ts : Multiset θ) : total w ts ≤ total w' ts :=
  Multiset.sum_map_le_sum_map _ _ fun t _ => h t

theorem total_eq_zero {w : θ → Nat} (h : ∀ t ∈ ts, w t = 0) : total w ts = 0 := by
  induction ts using Multiset.induction_on with
  | empty => rfl
  | cons t ts ih =>
    rw [total_cons, h t (Multiset.mem_cons_self t ts),
      ih fun u hu => h u (Multiset.mem_cons_of_mem hu)]

end Total

end Interleaving
