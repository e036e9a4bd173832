import Pgmux.Stored

namespace Pgmux

open Interaction

section Invalidation

variable [External]

def invalidations (tables : List Bytes) : Trace Ans :=
  tables.map fun table => ⟨.invalidateTable table, ()⟩

theorem invalidateAll_trace (h : Runs (invalidateAll tables) t ()) : t = invalidations tables := by
  induction tables generalizing t with
  | nil => exact (runs_pure.mp h).1
  | cons table tables ih =>
    unfold invalidateAll at h
    rw [runs_perform_bind] at h
    obtain ⟨_, t, h, rfl⟩ := h
    rw [ih h]
    rfl

inductive Invalidates (query : Bytes) (qtype : QueryType) : Trace Ans → Prop
  | off : Invalidates query qtype [⟨.queryCache, false⟩]
  | read : qtype = .read → Invalidates query qtype [⟨.queryCache, b⟩]
  | panicked {cfg : Config} : qtype = .write → IdleTrace t₀ → ⟨.config, cfg⟩ ∈ t₀ →
      writeTables cfg.astParser query = none → Invalidates query qtype (⟨.queryCache, true⟩ :: t₀)
  | write {cfg : Config} : qtype = .write → IdleTrace t₀ → ⟨.config, cfg⟩ ∈ t₀ →
      writeTables cfg.astParser query = some tables → IdleTrace t₁ →
      Invalidates query qtype (⟨.queryCache, true⟩ :: (t₀ ++ (invalidations tables ++ t₁)))

theorem invalidateTables_trace (h : Runs (invalidateTables tables) t ()) :
    ∃ t', IdleTrace t' ∧ t = invalidations tables ++ t' := by
  obtain ⟨t₁, _, t₂, h₁, h₂, rfl⟩ := h.of_bind
  have hp : Idle (if tables ≠ [] then ask (.publish tables) else pure ()) :=
    .ite (idle_ask ⟨rfl, rfl⟩) (within_pure _)
  exact ⟨t₂, hp.trace h₂, by rw [invalidateAll_trace h₁]⟩

theorem invalidateWrite_invalidates (h : Runs (invalidateWrite query pq qtype) tr kept)
    (hpq : TreeOf query pq) : Invalidates query qtype tr := by
  replace h := runs_perform_bind.mp h
  obtain ⟨cached, t, h, rfl⟩ := h
  split at h
  · rename_i hc
    obtain ⟨hc, hw⟩ := hc
    obtain ⟨t₁, tables, t₂, rfl, h₁, h⟩ := h.of_seq
    obtain ⟨cfg, hcfg, rfl⟩ := extractQueryTablesParsed_tables h₁ hpq
    have hi := (extractQueryTablesParsed_foot.idle rfl).trace h₁
    rw [hc]
    cases ht : writeTables cfg.astParser query with
    | none =>
      rw [ht] at h
      obtain ⟨rfl, -⟩ := runs_pure.mp h
      rw [List.append_nil]
      exact .panicked hw hi hcfg ht
    | some tables =>
      rw [ht] at h
      obtain ⟨_, h, -⟩ := h.of_map
      obtain ⟨t', hi', rfl⟩ := invalidateTables_trace h
      exact .write hw hi hcfg ht hi'
  · rename_i hc
    obtain ⟨rfl, -⟩ := runs_pure.mp h
    cases cached with
    | false => exact .off
    | true =>
      cases qtype with
      | read => exact .read rfl
      | write => exact (hc ⟨rfl, rfl⟩).elim

theorem handleWriteQuery_use (h : Runs (handleWriteQuery c msg query s pq qtype cfg) tr r)
    (hpq : TreeOf query pq) : UncachedTrace tr ∧ ⟨.writerRecord false, ()⟩ ∈ tr ∨
      ∃ t₁ t₂ t₃, Runs (forwardAndRelay c [msg]) t₁ true ∧ UncachedTrace t₂ ∧
        Invalidates query qtype t₃ ∧ tr = t₁ ++ (t₂ ++ t₃) := by
  cases handleWriteQuery_ways h with
  | failed h₁ =>
    exact .inl ⟨((forwardAndRelay_foot.uncached rfl).trace h₁).append
      (.cons rfl IdleTrace.nil.uncached), by simp⟩
  | relayed h₁ h₂ h₃ =>
    exact .inr ⟨_, _ :: _, _, h₁, .cons rfl ((trackWriteLSN_foot.uncached rfl).trace h₂),
      invalidateWrite_invalidates h₃ hpq, rfl⟩

theorem Invalidates.no_set (h : Invalidates query qtype t) :
    ⟨.cacheSet key data tables, ()⟩ ∉ t := by
  intro hm
  cases h with
  | off => simp at hm
  | read => simp at hm
  | panicked _ h₀ =>
    rcases List.mem_cons.mp hm with hm | hm
    · cases hm
    · exact h₀.uncached.no_set hm
  | write _ h₀ _ _ h₁ =>
    simp only [List.mem_cons, List.mem_append, invalidations, List.mem_map] at hm
    rcases hm with hm | hm | ⟨_, -, hm⟩ | hm
    · cases hm
    · exact h₀.uncached.no_set hm
    · cases hm
    · exact h₁.uncached.no_set hm

theorem handleWriteQuery_no_set (h : Runs (handleWriteQuery c msg query s pq qtype cfg) tr r)
    (hpq : TreeOf query pq) : ⟨.cacheSet key data tables, ()⟩ ∉ tr := by
  intro hm
  rcases handleWriteQuery_use h hpq with ⟨hu, -⟩ | ⟨t₁, t₂, t₃, h₁, h₂, h₃, rfl⟩
  · exact hu.no_set hm
  · replace hm := ((forwardAndRelay_foot.uncached rfl).trace h₁).set_behind hm
    exact h₃.no_set (h₂.set_behind hm)

end Invalidation

end Pgmux
