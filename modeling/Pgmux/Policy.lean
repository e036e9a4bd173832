import Pgmux.Tenure

namespace Pgmux

open Interaction Custody

section Policy

variable [External]

/-- The states in which the relay may hold the connection `c`, for the pool noted with it and
whether it will be reset before it is released. -/
structure Policy (R : Bytes → Prop) (c : ConnId) (D : Rules PoolId Traffic σ) where
  inv : PoolId → Bool → σ → Prop
  fresh : D.fresh p s → inv p false s
  mono : inv p false s → inv p true s
  back : inv p d s → HandedBack R c (some p) d t → Safe D (· = none) (some s) (connActs c t)

variable {R : Bytes → Prop} {c : ConnId} {σ : Type} {D : Rules PoolId Traffic σ}
  (P : Policy R c D)

theorem Policy.weaken (h : P.inv p d s) (hd : d = true → d' = true) : P.inv p d' s := by
  cases d with
  | true => rwa [hd rfl]
  | false =>
    cases d' with
    | true => exact P.mono h
    | false => exact h

/-- An exchange of the messages takes a connection held with the flag `d` to one held with `d'`;
when it fails, the connection may be discarded. -/
def Policy.Serves (ms : List Message) (d d' : Bool) : Prop :=
  ∀ p s t ok, P.inv p d s → Exchange c ms t ok →
    Safe D (fun x => ∃ s', x = some s' ∧ if ok then P.inv p d' s' else D.gone p s') (some s)
      (connActs c t)

def Policy.Repool (p q : PoolId) : Prop :=
  ∀ s, (∀ d, P.inv p d s → P.inv q d s) ∧ (D.gone p s → D.gone q s)

def Relay.readerConn (st : Relay) : Option ConnId := st.boundReader.map ReaderLease.conn

inductive Policy.Own (P : Policy R c D) (st : Relay) : Option σ → Prop
  | free : st.boundConn ≠ some c → st.readerConn ≠ some c → Own P st none
  | writer : st.boundWriter = some ⟨c, p⟩ → st.readerConn ≠ some c → P.inv p st.connDirty s →
      Own P st (some s)
  | reader : st.boundConn ≠ some c → st.boundReader = some l → l.conn = c →
      P.inv l.pool false s → Own P st (some s)
  | lost : D.lost → st.boundConn ≠ some c → st.readerConn ≠ some c → Own P st (some s)

variable {P}

theorem Policy.Own.kept (h : P.Own st S) (hw : st'.boundWriter = st.boundWriter)
    (hr : st'.boundReader = st.boundReader) (hd : st.connDirty → st'.connDirty) :
    P.Own st' S := by
  have hc : st'.boundConn = st.boundConn := by simp [Relay.boundConn, hw]
  have hrc : st'.readerConn = st.readerConn := by simp [Relay.readerConn, hr]
  cases h with
  | free h₁ h₂ => exact .free (hc ▸ h₁) (hrc ▸ h₂)
  | writer h₁ h₂ h₃ => exact .writer (hw ▸ h₁) (hrc ▸ h₂) (P.weaken h₃ hd)
  | reader h₁ h₂ h₃ h₄ => exact .reader (hc ▸ h₁) (hr ▸ h₂) h₃ h₄
  | lost h h₁ h₂ => exact .lost h (hc ▸ h₁) (hrc ▸ h₂)

theorem Policy.Own.other (h : P.Own st S) (hw : st.boundConn ≠ some c)
    (hw' : st'.boundConn ≠ some c) (hr : st'.boundReader = st.boundReader) : P.Own st' S := by
  have hrc : st'.readerConn = st.readerConn := by simp [Relay.readerConn, hr]
  cases h with
  | free h₁ h₂ => exact .free hw' (hrc ▸ h₂)
  | writer h₁ h₂ h₃ => exact (hw (by simp [Relay.boundConn, h₁])).elim
  | reader h₁ h₂ h₃ h₄ => exact .reader hw' (hr ▸ h₂) h₃ h₄
  | lost h h₁ h₂ => exact .lost h hw' (hrc ▸ h₂)

theorem Policy.lose (hl : D.lost) (hi : P.inv p d s) (h : HandedBack R c none d t) :
    Safe D (fun x => ∃ s', x = some s') (some s) (connActs c t) := by
  have hlose : ∀ x, Safe D (· = none) x [.give p] ∨ Safe D (· = none) x [.toss p] →
      Safe D (fun x => ∃ s', x = some s') x [.lose] := by
    rintro (_ | x) h
    · rcases h with h | h <;> exact h.elim
    · exact ⟨hl, x, rfl⟩
  cases h with
  | plain =>
    have hb := P.back hi .plain
    rw [connActs_release] at hb
    rw [connActs_release_nil]
    exact hlose _ (.inl hb)
  | reset hq hp =>
    have hb := P.back hi (.reset hq hp)
    rw [connActs_append, connActs_release, safe_append] at hb
    rw [connActs_append, connActs_release_nil, safe_append]
    exact hb.mono fun x hx => hlose x (.inl hx)
  | failed hq hp =>
    have hb := P.back hi (.failed hq hp)
    rw [connActs_append, connActs_discard, safe_append] at hb
    rw [connActs_append, connActs_discard_nil, safe_append]
    exact hb.mono fun x hx => hlose x (.inr hx)

theorem Visit.safe (hs : P.Serves ms false strict) (h : Visit R strict ms t) (S : Option σ) :
    Safe D (· = S) S (connActs c t) := by
  cases h with
  | look => simp [connActs, eventConn, Safe]
  | refused => simp [connActs, eventConn, Safe]
  | failed hx =>
    rename_i c' t p
    by_cases hc : c' = c
    · subst hc
      rw [connActs_cons _ _ rfl rfl]
      cases S with
      | some s => trivial
      | none =>
        intro s hf
        rw [connActs_append]
        refine (hs p s t false (P.fresh hf) hx).append ?_
        rintro _ ⟨s', rfl, hg⟩
        rw [connActs_discard]
        exact ⟨by simpa using hg, rfl⟩
    · rw [(Only.cons rfl (hx.only.append (.cons rfl .nil))).connActs hc]
      exact rfl
  | served hx hb hd =>
    rename_i c' t₁ p dirty t₂
    by_cases hc : c' = c
    · subst hc
      rw [connActs_cons _ _ rfl rfl]
      cases S with
      | some s => trivial
      | none =>
        intro s hf
        rw [connActs_append]
        refine (hs p s t₁ true (P.fresh hf) hx).append ?_
        rintro _ ⟨s', rfl, hi⟩
        exact P.back (P.weaken hi hd) hb
    · rw [(Only.cons rfl (hx.only.append hb.only)).connActs hc]
      exact rfl

theorem Visits.safe (hs : P.Serves ms false strict) (h : Visits R strict ms t) (S : Option σ) :
    Safe D (· = S) S (connActs c t) := by
  induction h with
  | nil => exact rfl
  | cons hv _ ih =>
    rw [connActs_append]
    refine (hv.safe hs S).append ?_
    rintro _ rfl
    exact ih

structure Steady (D : Rules PoolId Traffic σ) : Prop where
  use : ∀ s e, D.allowed s e ∧ ∀ s', D.step s e s' → s' = s
  back : ∀ p s, D.fresh p s → D.back p s
  gone : ∀ p s, D.fresh p s → D.gone p s

theorem Steady.talk (hD : Steady D) (h : Talk c t) (hf : D.fresh p s) :
    Safe D (fun x => ∃ s', x = some s' ∧ D.fresh p s') (some s) (connActs c t) := by
  have hu : ∀ s e, D.fresh p s → D.allowed s e ∧ ∀ s', D.step s e s' → D.fresh p s' := by
    intro s e hs
    refine ⟨(hD.use s e).1, fun s' hs' => ?_⟩
    rwa [(hD.use s e).2 s' hs']
  exact h.safe (fun s m ok _ => hu s _) (fun s r => hu s _) hf

def Steady.policy (hD : Steady D) : Policy R c D where
  inv p _ s := D.fresh p s
  fresh hf := hf
  mono hf := hf
  back {p s d t} hf h := by
    cases h with
    | plain =>
      rw [connActs_release]
      exact ⟨hD.back _ _ hf, rfl⟩
    | reset _ hp =>
      rw [connActs_append, connActs_release]
      refine (hD.talk hp.talk hf).append ?_
      rintro _ ⟨s', rfl, hs⟩
      exact ⟨hD.back _ _ hs, rfl⟩
    | failed _ hp =>
      rw [connActs_append, connActs_discard]
      refine (hD.talk hp.talk hf).append ?_
      rintro _ ⟨s', rfl, hs⟩
      exact ⟨hD.gone _ _ hs, rfl⟩

theorem Steady.serves (hD : Steady D) : (hD.policy (R := R) (c := c)).Serves ms d d' := by
  intro p s t ok hi hx
  refine (hD.talk hx.talk hi).mono ?_
  rintro _ ⟨s', rfl, hs⟩
  refine ⟨s', rfl, ?_⟩
  cases ok with
  | true => exact hs
  | false => exact hD.gone _ _ hs

end Policy

end Pgmux
