import Pgmux.ApiCache

namespace Pgmux

open Interaction

section CacheUsers

variable [External] {I M : Type}

/-- The users of the cache: a client session whose rounds satisfy `ok`, or a request to the Data
API. -/
inductive UserRun (ok : Relay → Trace Ans → Prop) : Trace Ans → Prop
  | session : RelayRun dbName session multiplex rs t → (∀ r ∈ rs, ok r.1 r.2) →
      UserRun ok (flat rs ++ t)
  | request : Runs (handleApiQuery req) tr resp → UserRun ok tr

theorem UserRun.cached (h : UserRun ok tr) (he : e ∈ tr) (hc : e.1.cacheCall ≠ none) :
    (∃ st t r, ok st t ∧ Runs (relayStep st) t r ∧ e ∈ t) ∨
      ∃ dbName sql t r, Runs (querySQL dbName sql) t r ∧ e ∈ t := by
  cases h with
  | session hrun hok =>
    obtain ⟨st, hrs, ht⟩ := hrun
    rcases List.mem_append.mp he with he | he
    · obtain ⟨⟨st₁, t₁⟩, hm, he⟩ := mem_flat.mp he
      obtain ⟨r, hr⟩ := hrs.runs_of_mem hm
      exact .inl ⟨st₁, t₁, r, hok _ hm, hr, he⟩
    · exact (hc ((cleanup_foot.uncached rfl).trace ht e he)).elim
  | request hr =>
    rcases handleApiQuery_sql hr with hi | ⟨dbName, sql, t₀, t, -, -, hi, hq, rfl⟩
    · exact (hc (hi e he).2).elim
    · rcases List.mem_append.mp he with he | he
      · exact (hc (hi e he).2).elim
      · exact .inr ⟨dbName, sql, t, _, hq, he⟩

/-- An operation of a user at a time, something that a backend does for a user, or an invalidation
from elsewhere. -/
inductive Happening (I M : Type) where
  | op (i : I) (now : Nat) (e : Event)
  | mark (i : I) (m : M)
  | invalidate (now : Nat) (table : Bytes)
  | flush (now : Nat)

def Happening.event [DecidableEq I] (i : I) : Happening I M → Option Event
  | .op j _ e => if j = i then some e else none
  | _ => none

def eventsOf [DecidableEq I] (i : I) (history : List (Happening I M)) : Trace Ans :=
  history.filterMap (Happening.event i)

def Happening.cacheCall : Happening I M → Option (Nat × CacheCall)
  | .op _ now e => e.1.cacheCall.map fun o => (now, o)
  | .mark _ _ => none
  | .invalidate now table => some (now, .invalidateTable table)
  | .flush now => some (now, .flushAll)

def cacheCalls (history : List (Happening I M)) : List (Nat × CacheCall) :=
  history.filterMap Happening.cacheCall

def CacheUsers [DecidableEq I] (ok : Relay → Trace Ans → Prop)
    (history : List (Happening I M)) : Prop :=
  ∀ i, ∃ tr, UserRun ok tr ∧ eventsOf i history <+: tr

theorem mem_cacheCalls_set {history : List (Happening I M)}
    (h : (now, .set key data tables) ∈ cacheCalls history) :
    ∃ i, .op i now ⟨.cacheSet key data tables, ()⟩ ∈ history := by
  obtain ⟨x, hx, hc⟩ := List.mem_filterMap.mp h
  cases x with
  | op i now' e =>
    obtain ⟨o, ho, he⟩ := Option.map_eq_some_iff.mp hc
    cases he
    obtain ⟨o, x⟩ := e
    cases o <;> simp only [Op.cacheCall, Option.some.injEq, reduceCtorEq, CacheCall.set.injEq] at ho
    obtain ⟨rfl, rfl, rfl⟩ := ho
    exact ⟨i, hx⟩
  | mark => cases hc
  | invalidate => cases hc
  | flush => cases hc

theorem CacheUsers.mem [DecidableEq I] {history : List (Happening I M)}
    (h : CacheUsers ok history) (hm : .op i now e ∈ history) : ∃ tr, UserRun ok tr ∧ e ∈ tr := by
  obtain ⟨tr, hrun, hpre⟩ := h i
  exact ⟨tr, hrun, hpre.subset (List.mem_filterMap.mpr ⟨_, hm, by simp [Happening.event]⟩)⟩

theorem CacheUsers.entry [DecidableEq I] {history : List (Happening I M)} {c : Cache}
    {e : CacheEntry} (h : CacheUsers ok history) (hc : c.entries = [])
    (he : e ∈ (c.after (cacheCalls history)).entries) :
    ∃ tr, UserRun ok tr ∧ ⟨.cacheSet e.key e.result e.tables, ()⟩ ∈ tr := by
  rcases Cache.origin he with ⟨he, -⟩ | ⟨pre, now, post, hcalls, -⟩
  · rw [hc] at he
    cases he
  · obtain ⟨i, hi⟩ := mem_cacheCalls_set
      (hcalls ▸ List.mem_append_right pre (.head _))
    exact h.mem hi

def soleUser (tr : Trace Ans) : List (Happening Unit M) := tr.map (Happening.op () 0)

theorem eventsOf_soleUser (tr : Trace Ans) (i : Unit) :
    eventsOf i (soleUser tr : List (Happening Unit M)) = tr := by
  simp [eventsOf, soleUser, Happening.event, Function.comp_def]

theorem cacheUsers_sole (h : UserRun ok tr) :
    CacheUsers ok (soleUser tr : List (Happening Unit M)) := by
  intro i
  exact ⟨tr, h, [], by rw [eventsOf_soleUser, List.append_nil]⟩

end CacheUsers

end Pgmux
