import Pgmux.DataApi
import Pgmux.Tenure

namespace Pgmux

open Interaction Custody

section PoolUsers

variable [External] {T : ConnId → Trace Ans → Bool → Prop}

/-- A look at the writer pool, a refused acquire, or a loan, in which a connection is acquired, used
as in `T` and given back, to be used again only if all went well. After a panic it is not given
back. -/
inductive Loan (T : ConnId → Trace Ans → Bool → Prop) : Trace Ans → Prop
  | look : Loan T [⟨.writerPool, p⟩]
  | refused : Loan T [⟨.acquire p, none⟩]
  | returned : T c t true → Loan T (⟨.acquire p, some c⟩ :: (t ++ [⟨.release (some p) c, ()⟩]))
  | tossed : T c t ok → Loan T (⟨.acquire p, some c⟩ :: (t ++ [⟨.discard (some p) c, ()⟩]))
  | lost : T c t ok → Loan T (⟨.acquire p, some c⟩ :: t)

inductive Loans (T : ConnId → Trace Ans → Bool → Prop) : Trace Ans → Prop
  | nil : Loans T []
  | cons : Loan T t₁ → Loans T t₂ → Loans T (t₁ ++ t₂)

theorem Loan.loans (h : Loan T t) : Loans T t := by
  simpa using Loans.cons h .nil

theorem Loans.append (h₁ : Loans T t₁) (h₂ : Loans T t₂) : Loans T (t₁ ++ t₂) := by
  induction h₁ with
  | nil => exact h₂
  | cons h _ ih =>
    rw [List.append_assoc]
    exact .cons h ih

theorem Loan.safe {D : Rules PoolId Traffic σ} (h : Loan T t)
    (htalk : ∀ c t ok, T c t ok → Talk c t)
    (hT : ∀ t ok p s, T c t ok → D.fresh p s →
      Safe D (fun x => ∃ s', x = some s' ∧ D.gone p s' ∧ (ok = true → D.back p s')) (some s)
        (connActs c t)) (S : Option σ) : Safe D (fun _ => True) S (connActs c t) := by
  have hloan {c' t ok p t'} (ht : T c' t ok) (honly : Only c' t')
      (hend : ∀ s', D.gone p s' ∧ (ok = true → D.back p s') →
        Safe D (fun _ => True) (some s') (connActs c' t')) :
      Safe D (fun _ => True) S (connActs c (⟨.acquire p, some c'⟩ :: (t ++ t'))) := by
    by_cases hc : c' = c
    · subst hc
      rw [connActs_cons _ _ rfl rfl, connActs_append]
      cases S with
      | some s => trivial
      | none =>
        refine fun s hf => (hT t ok p s ht hf).append ?_
        rintro _ ⟨s', rfl, hs'⟩
        exact hend s' hs'
    · rw [(Only.cons rfl ((htalk _ _ _ ht).only.append honly)).connActs hc]
      trivial
  cases h with
  | look => simp [connActs, eventConn, Safe]
  | refused => simp [connActs, eventConn, Safe]
  | returned ht =>
    refine hloan ht (.cons rfl .nil) fun s' hs' => ?_
    rw [connActs_release]
    exact ⟨hs'.2 rfl, trivial⟩
  | tossed ht =>
    refine hloan ht (.cons rfl .nil) fun s' hs' => ?_
    rw [connActs_discard]
    exact ⟨hs'.1, trivial⟩
  | lost ht => simpa using hloan ht .nil fun _ _ => trivial

theorem Loans.safe {D : Rules PoolId Traffic σ} (h : Loans T t)
    (htalk : ∀ c t ok, T c t ok → Talk c t)
    (hT : ∀ t ok p s, T c t ok → D.fresh p s →
      Safe D (fun x => ∃ s', x = some s' ∧ D.gone p s' ∧ (ok = true → D.back p s')) (some s)
        (connActs c t)) (S : Option σ) : Safe D (fun _ => True) S (connActs c t) := by
  induction h generalizing S with
  | nil => trivial
  | cons hl _ ih =>
    rw [connActs_append]
    exact (hl.safe htalk hT S).append fun S' _ => ih S'

theorem pollReader_loans (h : Runs (pollReader addr) tr ()) :
    Loans (fun c => Probed c replayLSNQuery) (conn tr) := by
  unfold pollReader at h
  rw [runs_perform_bind] at h
  obtain ⟨pool, t, h, rfl⟩ := h
  cases pool with
  | none =>
    obtain ⟨rfl, -⟩ := runs_pure.mp h
    exact .nil
  | some p =>
    dsimp only at h
    rw [runs_perform_bind] at h
    obtain ⟨c, t, h, rfl⟩ := h
    cases c with
    | none =>
      obtain ⟨rfl, -⟩ := runs_pure.mp h
      exact Loan.refused.loans
    | some c =>
      dsimp only at h
      rw [runs_bind] at h
      obtain ⟨t₁, lsn, t₂, h₁, h, rfl⟩ := h
      obtain ⟨ok, hp, hok⟩ := queryLSN_probed h₁
      cases lsn with
      | none =>
        obtain ⟨_, h₃, -⟩ := h.of_map
        simpa [conn_cons, Op.onConn, (discardToPool_conn h₃).1] using (Loan.tossed hp).loans
      | some lsn =>
        cases hok rfl
        dsimp only at h
        rw [runs_bind] at h
        obtain ⟨t₃, _, t₄, h₃, h, rfl⟩ := h
        obtain rfl := runs_perform.mp h
        simpa [conn_cons, Op.onConn, (releaseToPool_conn h₃).1] using (Loan.returned hp).loans

theorem pollAll_loans (h : Runs (pollAll addrs) tr ()) :
    Loans (fun c => Probed c replayLSNQuery) (conn tr) := by
  induction addrs generalizing tr with
  | nil =>
    obtain ⟨rfl, -⟩ := runs_pure.mp h
    exact .nil
  | cons addr addrs ih =>
    obtain ⟨t₁, _, t₂, rfl, h₁, h₂⟩ := h.of_seq
    rw [conn_append]
    exact (pollReader_loans h₁).append (ih h₂)

theorem pollReaderLSNsForGroup_loans (h : Runs pollReaderLSNsForGroup tr ()) :
    Loans (fun c => Probed c replayLSNQuery) (conn tr) := by
  unfold pollReaderLSNsForGroup at h
  rw [runs_perform_bind] at h
  obtain ⟨addrs, t, h, rfl⟩ := h
  change Loans _ (conn t)
  exact pollAll_loans h

theorem drainUntilReady_within {P : Op → Prop} (hP : RelayOps P c) :
    Within P (drainUntilReady c) := by
  refine .iterate (fun _ => .bind (within_perform hP.read) fun r => ?_) ()
  split <;> exact within_pure _

theorem readResponse_within {P : Op → Prop} (hP : RelayOps P c) : Within P (readResponse c) := by
  refine .iterate (fun _ => .bind (within_perform hP.read) fun r => ?_) _
  split
  · exact within_pure _
  · refine .ite (.bind (drainUntilReady_within hP) fun _ => within_pure _)
      (.ite (within_pure _) (.ite ?_ ?_))
    · exact .bind (within_perform (hP.copy _)) fun _ =>
        .bind (drainUntilReady_within hP) fun _ => within_pure _
    · split <;> exact within_pure _

theorem drainUntilReady_relayed (h : Runs (drainUntilReady c) tr ok) : Relayed c (conn tr) ok := by
  refine ⟨Within.reads (drainUntilReady_within (relayOps_readsOnly c)) h, ?_⟩
  rintro rfl
  unfold drainUntilReady at h
  obtain ⟨_, t, t', -, hb, rfl⟩ :=
    h.of_iterate (I := fun _ _ => True) trivial fun _ _ _ _ _ _ => trivial
  rw [runs_perform_bind] at hb
  obtain ⟨x, t₁, hb, rfl⟩ := hb
  rcases accepted_cases x with hx | ⟨m, rfl, hx⟩ <;> simp only [hx] at hb
  · simp at hb
  · obtain ⟨rfl, hm⟩ := runs_pure.mp hb
    split at hm
    · rename_i hr
      exact ⟨conn t, m, by rw [conn_append]; rfl, hr⟩
    · cases hm

def Outcome.isDone : Outcome α → Bool
  | .done _ => true
  | _ => false

theorem readResponse_relayed (h : Runs (readResponse c) tr r) :
    Relayed c (conn tr) r.isDone := by
  constructor
  · exact Within.reads (readResponse_within (relayOps_readsOnly c)) h
  · intro hr
    obtain ⟨f, hf, hround⟩ := readResponse_rounds c
    rw [hf] at h
    obtain ⟨ms, t, t', -, hb, rfl⟩ :=
      h.of_iterate (I := fun _ _ => True) trivial fun _ _ _ _ _ _ => trivial
    generalize hx : Sum.inr r = x at hb
    cases hround _ _ _ hb with
    | more => cases hx
    | @done m _ hm => exact ⟨conn t, m, by rw [conn_append]; rfl, hm⟩
    | panicked =>
      cases hx
      cases hr
    | failed =>
      cases hx
      cases hr

theorem executeQuery_exchange (h : Runs (executeQuery c sql) tr r) (hs : sql ≠ []) :
    Exchange c [queryMessage sql] (conn tr) r.isDone := by
  unfold executeQuery at h
  rw [if_neg hs, runs_perform_bind] at h
  obtain ⟨ok, t, h, rfl⟩ := h
  cases ok with
  | true => exact .sent (.more .done) (readResponse_relayed h)
  | false =>
    simp only [Bool.false_eq_true, if_false] at h
    obtain ⟨rfl, rfl⟩ := runs_pure.mp h
    exact .unsent .fail

inductive ApiUse (R : Bytes → Prop) (sql : Bytes) (c : ConnId) : Trace Ans → Bool → Prop
  | query : Exchange c [queryMessage sql] t ok → ApiUse R sql c t false
  | reset : Exchange c [queryMessage sql] t₁ true → R q → Exchange c [queryMessage q] t₂ ok →
      ApiUse R sql c (t₁ ++ t₂) ok

theorem ApiUse.talk (h : ApiUse R sql c t ok) : Talk c t := by
  cases h with
  | query hx => exact hx.talk
  | reset hx _ hy => exact hx.talk.append hy.talk

theorem executeOnPool_loan (h : Runs (executeOnPool sql p) tr r) (hs : sql ≠ [])
    (hR : Configured R tr) : Loan (ApiUse R sql) (conn tr) := by
  cases executeOnPool_ways h with
  | refused => exact .refused
  | panicked h₁ =>
    simpa [conn_cons, Op.onConn] using
      Loan.lost (p := p) (ApiUse.query (R := R) (executeQuery_exchange h₁ hs))
  | stopped _ h₁ =>
    simpa [conn_cons, Op.onConn] using
      Loan.tossed (p := p) (ApiUse.query (R := R) (executeQuery_exchange h₁ hs))
  | @unsent _ _ _ cfg h₁ =>
    have hu := ApiUse.reset (executeQuery_exchange h₁ hs) (hR cfg (by simp)) (.unsent .fail)
    simpa [conn_cons, Op.onConn] using Loan.tossed (p := p) hu
  | @answered _ _ _ _ drained cancelled cfg h₁ h₂ =>
    have hu := ApiUse.reset (executeQuery_exchange h₁ hs) (hR cfg (by simp))
      (.sent (.more .done) (drainUntilReady_relayed h₂))
    by_cases hback : drained = true ∧ cancelled = false
    · rw [hback.1] at hu
      simpa [conn_cons, Op.onConn, hback] using Loan.returned (p := p) hu
    · rw [if_neg hback]
      simpa [conn_cons, Op.onConn] using Loan.tossed (p := p) hu

theorem executeRead_loans (h : Runs (executeRead sql pq w dbName) tr r) (hs : sql ≠ [])
    (hR : Configured R tr) : Loans (ApiUse R sql) (conn tr) := by
  have hlook {t x} (h : Runs (lookupResponse sql pq dbName) t x) : conn t = [] :=
    (lookupResponse_foot.quiet rfl).conn h
  cases executeRead_ways h with
  | hit h₀ =>
    rw [hlook h₀]
    exact .nil
  | passed h₀ hk _ h₁ =>
    rw [conn_append, conn_append, hlook h₀, hk.conn rfl]
    exact (executeOnPool_loan h₁ hs hR.right.right).loans
  | panicked h₀ h₁ =>
    simpa [conn_cons, Op.onConn, hlook h₀] using
      (executeOnPool_loan h₁ hs hR.right.tail.tail).loans
  | failed h₀ h₁ h₂ =>
    simpa [conn_cons, Op.onConn, hlook h₀] using Loans.cons
      (executeOnPool_loan h₁ hs hR.right.tail.tail.left)
      (executeOnPool_loan h₂ hs hR.right.tail.tail.right.tail).loans
  | served h₀ h₁ h₂ =>
    simpa [conn_cons, Op.onConn, hlook h₀, (storeResponse_foot.quiet rfl).conn h₂] using
      (executeOnPool_loan h₁ hs hR.right.tail.tail.left).loans

theorem executeWrite_loans (h : Runs (executeWrite sql pq w) tr r) (hs : sql ≠ [])
    (hR : Configured R tr) : Loans (ApiUse R sql) (conn tr) := by
  obtain ⟨t₁, result, t₂, rfl, h₁, h⟩ := h.of_seq
  have hl := (executeOnPool_loan h₁ hs hR.left).loans
  cases result with
  | panicked =>
    obtain ⟨rfl, -⟩ := runs_pure.mp h
    simpa using hl
  | failed =>
    obtain ⟨rfl, -⟩ := runs_pure.mp h
    simpa using hl
  | done ms =>
    obtain ⟨t₃, kept, t₄, h₃, h₄, rfl⟩ := h.of_bind
    have hq := (invalidateWrite_foot.quiet rfl).conn h₃
    cases kept <;>
    · obtain ⟨rfl, -⟩ := runs_pure.mp h₄
      simpa [hq] using hl

theorem querySQL_loans (h : Runs (querySQL dbName sql) tr r) (hs : sql ≠ [])
    (hR : Configured R tr) : Loans (ApiUse R sql) (conn tr) := by
  unfold querySQL at h
  rw [runs_perform_bind] at h
  obtain ⟨cfg, t, h, rfl⟩ := h
  change Loans _ (conn t)
  split at h
  · obtain ⟨rfl, -⟩ := runs_pure.mp h
    exact .nil
  dsimp only at h
  split at h
  · obtain ⟨rfl, -⟩ := runs_pure.mp h
    exact .nil
  rw [runs_bind] at h
  obtain ⟨t₁, qtype, t₂, h₁, h, rfl⟩ := h
  rw [conn_append, (classifyQueryParsed_foot.quiet rfl).conn h₁, List.nil_append]
  rw [runs_perform_bind] at h
  obtain ⟨w, t, h, rfl⟩ := h
  have hlook : Loan (ApiUse R sql) [⟨.writerPool, w⟩] := .look
  refine .cons hlook ?_
  change Loans _ (conn t)
  cases qtype with
  | write =>
    dsimp only at h
    rw [runs_bind] at h
    obtain ⟨t₃, _, t₄, h₃, h, rfl⟩ := h
    obtain ⟨rfl, -⟩ := runs_pure.mp h
    simpa using executeWrite_loans h₃ hs hR.tail.right.tail.left
  | read =>
    dsimp only at h
    rw [runs_bind] at h
    obtain ⟨t₃, _, t₄, h₃, h, rfl⟩ := h
    obtain ⟨rfl, -⟩ := runs_pure.mp h
    simpa using executeRead_loans h₃ hs hR.tail.right.tail.left

theorem handleApiQuery_sql (h : Runs (handleApiQuery req) tr r) :
    IdleTrace tr ∨ ∃ dbName sql t₀ t, req.sql = some sql ∧ sql ≠ [] ∧ IdleTrace t₀ ∧
      Runs (querySQL dbName sql) t r ∧ tr = t₀ ++ t := by
  unfold handleApiQuery at h
  split at h
  · obtain ⟨rfl, -⟩ := runs_pure.mp h
    exact .inl .nil
  rw [runs_perform_bind] at h
  obtain ⟨cfg, t, h, rfl⟩ := h
  split at h
  · obtain ⟨rfl, -⟩ := runs_pure.mp h
    exact .inl (.cons ⟨rfl, rfl⟩ .nil)
  rw [runs_perform_bind] at h
  obtain ⟨ok, t, h, rfl⟩ := h
  have hpre : IdleTrace [⟨.config, cfg⟩, ⟨.allow .all, ok⟩] :=
    .cons ⟨rfl, rfl⟩ (.cons ⟨rfl, rfl⟩ .nil)
  split at h
  · cases hq : req.sql with
    | none =>
      simp only [hq] at h
      obtain ⟨rfl, -⟩ := runs_pure.mp h
      exact .inl hpre
    | some sql =>
      simp only [hq] at h
      split at h
      · obtain ⟨rfl, -⟩ := runs_pure.mp h
        exact .inl hpre
      rename_i hs
      rw [runs_bind] at h
      obtain ⟨t₁, dbName, t₂, h₁, h, rfl⟩ := h
      have hw : Idle (resolveDB req.database) := .ite (idle_ask ⟨rfl, rfl⟩) (within_pure _)
      rw [runs_perform_bind] at h
      obtain ⟨known, t, h, rfl⟩ := h
      have hi : IdleTrace ([⟨.config, cfg⟩, ⟨.allow .all, ok⟩] ++ (t₁ ++
          [⟨.knownDB dbName, known⟩])) :=
        hpre.append ((hw.trace h₁).append (.cons ⟨rfl, rfl⟩ .nil))
      split at h
      · exact .inr ⟨dbName, sql, _, t, rfl, hs, hi, h, by simp⟩
      · obtain ⟨rfl, -⟩ := runs_pure.mp h
        exact .inl hi
  · obtain ⟨rfl, -⟩ := runs_pure.mp h
    exact .inl hpre

theorem handleApiQuery_loans (h : Runs (handleApiQuery req) tr r) (hR : Configured R tr) :
    Loans (ApiUse R (req.sql.getD [])) (conn tr) := by
  rcases handleApiQuery_sql h with hi | ⟨dbName, sql, t₀, t, hq, hs, hi, hrun, rfl⟩
  · rw [hi.conn]
    exact .nil
  · rw [conn_append, hi.conn, hq]
    exact querySQL_loans hrun hs hR.right

end PoolUsers

end Pgmux
