import Mathlib.Data.List.Dedup
import Pgmux.StatementBound

namespace Pgmux

inductive StmtCall where
  | register (name query : Bytes) (paramOIDs : List Nat)
  | get (name : Bytes)
  | close (name : Bytes)

def registrations (calls : List StmtCall) : List Bytes :=
  calls.filterMap fun c => match c with
    | .register name _ _ => some name
    | .get _ => none
    | .close _ => none

namespace Synthesizer

variable {s : Synthesizer} {n name : Bytes} {c : StmtCall}

def call (s : Synthesizer) : StmtCall → Synthesizer
  | .register name query paramOIDs => s.registerStatement name query paramOIDs
  | .get _ => s
  | .close name => s.closeStatement name

def after (calls : List StmtCall) : Synthesizer := calls.foldl call empty

theorem after_concat (calls : List StmtCall) (c : StmtCall) :
    after (calls ++ [c]) = (after calls).call c := by
  rw [after, List.foldl_append]
  rfl

theorem Ordered.call (h : s.Ordered) (c : StmtCall) : (s.call c).Ordered := by
  cases c with
  | register name query paramOIDs => exact h.register name query paramOIDs
  | get name => exact h
  | close name => exact h.close name

theorem ordered_after (calls : List StmtCall) : (after calls).Ordered := by
  induction calls using List.reverseRecOn with
  | nil => exact ordered_empty
  | append_singleton calls c ih =>
    rw [after_concat]
    exact ih.call c

theorem Ordered.length (h : s.Ordered) : s.order.length = s.statements.keys.length := by
  apply List.Perm.length_eq
  rw [List.perm_ext_iff_of_nodup h.nodup s.statements.keys_nodup]
  intro n
  rw [h.mem, AList.mem_keys]

section Register

theorem registerStatement_known (h : name ∈ s.statements) (query : Bytes) (paramOIDs : List Nat) :
    s.registerStatement name query paramOIDs =
      ⟨s.statements.insert name ⟨query, paramOIDs⟩, s.order.erase name ++ [name]⟩ :=
  if_pos h

theorem registerStatement_room (h : name ∉ s.statements)
    (hroom : s.statements.keys.length < maxSynthStatements) (query : Bytes) (paramOIDs : List Nat) :
    s.registerStatement name query paramOIDs =
      ⟨s.statements.insert name ⟨query, paramOIDs⟩, s.order ++ [name]⟩ := by
  rw [registerStatement, if_neg h, if_neg (by omega)]

theorem registerStatement_full (h : name ∉ s.statements)
    (hfull : maxSynthStatements ≤ s.statements.keys.length) (ho : s.order = oldest :: rest)
    (query : Bytes) (paramOIDs : List Nat) :
    s.registerStatement name query paramOIDs =
      ⟨(s.statements.erase oldest).insert name ⟨query, paramOIDs⟩, rest ++ [name]⟩ := by
  rw [registerStatement, if_neg h, if_pos hfull, ho]

theorem Ordered.order_ne_nil (h : s.Ordered)
    (hfull : maxSynthStatements ≤ s.statements.keys.length) : s.order ≠ [] := by
  intro ho
  have hlen := h.length
  rw [ho, List.length_nil] at hlen
  have hpos : 0 < maxSynthStatements := by decide
  omega

def evicted (s : Synthesizer) : StmtCall → Option Bytes
  | .register name _ _ =>
    if name ∉ s.statements ∧ maxSynthStatements ≤ s.statements.keys.length then s.order.head?
    else none
  | .get _ => none
  | .close _ => none

theorem evicted_known (h : name ∈ s.statements) :
    s.evicted (.register name query paramOIDs) = none :=
  if_neg fun hc => hc.1 h

theorem evicted_room (h : s.statements.keys.length < maxSynthStatements) :
    s.evicted (.register name query paramOIDs) = none :=
  if_neg fun hc => absurd hc.2 (Nat.not_le_of_lt h)

theorem evicted_full (h : name ∉ s.statements)
    (hfull : maxSynthStatements ≤ s.statements.keys.length) (ho : s.order = oldest :: rest) :
    s.evicted (.register name query paramOIDs) = some oldest := by
  rw [evicted, if_pos ⟨h, hfull⟩, ho]
  rfl

theorem lookup_insert_eq (m : AList fun _ : Bytes => PreparedStmt) (name : Bytes)
    (stmt : PreparedStmt) (n : Bytes) :
    (m.insert name stmt).lookup n = if n = name then some stmt else m.lookup n := by
  split
  · rename_i hn
    rw [hn, AList.lookup_insert]
  · rename_i hn
    rw [AList.lookup_insert_ne hn]

/-- What is registered is found, and a registration removes only what it evicts. -/
theorem Ordered.getStatement_register (h : s.Ordered) (name query : Bytes) (paramOIDs : List Nat)
    (n : Bytes) :
    (s.registerStatement name query paramOIDs).getStatement n =
      if n = name then some ⟨query, paramOIDs⟩
      else if s.evicted (.register name query paramOIDs) = some n then none
      else s.getStatement n := by
  unfold getStatement
  by_cases hknown : name ∈ s.statements
  · rw [registerStatement_known hknown, evicted_known hknown, lookup_insert_eq]
    simp
  · by_cases hfull : maxSynthStatements ≤ s.statements.keys.length
    · obtain ⟨oldest, rest, ho⟩ := List.exists_cons_of_ne_nil (h.order_ne_nil hfull)
      rw [registerStatement_full hknown hfull ho, evicted_full hknown hfull ho, lookup_insert_eq]
      split
      · rfl
      · split
        · rename_i he
          rw [← Option.some.inj he, AList.lookup_erase]
        · rename_i he
          rw [AList.lookup_erase_ne fun hc => he (congrArg some hc.symm)]
    · have hroom := Nat.lt_of_not_le hfull
      rw [registerStatement_room hknown hroom, evicted_room hroom, lookup_insert_eq]
      simp

theorem Ordered.order_register (h : s.Ordered) (name query : Bytes) (paramOIDs : List Nat) :
    ∃ rest, rest.Sublist (s.order.erase name) ∧
      (s.registerStatement name query paramOIDs).order = rest ++ [name] := by
  by_cases hknown : name ∈ s.statements
  · rw [registerStatement_known hknown]
    exact ⟨_, List.Sublist.refl _, rfl⟩
  · have hnot : name ∉ s.order := fun hm => hknown ((h.mem name).mp hm)
    rw [List.erase_of_not_mem hnot]
    by_cases hfull : maxSynthStatements ≤ s.statements.keys.length
    · obtain ⟨oldest, rest, ho⟩ := List.exists_cons_of_ne_nil (h.order_ne_nil hfull)
      rw [registerStatement_full hknown hfull ho, ho]
      exact ⟨rest, List.sublist_cons_self oldest rest, rfl⟩
    · rw [registerStatement_room hknown (Nat.lt_of_not_le hfull)]
      exact ⟨_, List.Sublist.refl _, rfl⟩

end Register

section Recency

theorem dedup_concat (l : List Bytes) (a : Bytes) : (l ++ [a]).dedup = l.dedup.erase a ++ [a] := by
  induction l with
  | nil => rfl
  | cons b l ih =>
    rw [List.cons_append]
    by_cases hb : b ∈ l
    · rw [List.dedup_cons_of_mem hb, List.dedup_cons_of_mem (List.mem_append_left _ hb), ih]
    · rw [List.dedup_cons_of_notMem hb]
      have hd : b ∉ l.dedup := fun hm => hb (List.mem_dedup.mp hm)
      by_cases hba : b = a
      · subst hba
        rw [List.dedup_cons_of_mem (by simp), ih, List.erase_of_not_mem hd, List.erase_cons_head]
      · rw [List.dedup_cons_of_notMem (by simp [hb, hba]), ih,
          List.erase_cons_tail (by simpa using hba), List.cons_append]

theorem registrations_register (calls : List StmtCall) :
    registrations (calls ++ [.register name query paramOIDs]) = registrations calls ++ [name] := by
  rw [registrations, List.filterMap_append]
  rfl

theorem registrations_get (calls : List StmtCall) :
    registrations (calls ++ [.get name]) = registrations calls := by
  rw [registrations, List.filterMap_append]
  exact List.append_nil _

theorem registrations_close (calls : List StmtCall) :
    registrations (calls ++ [.close name]) = registrations calls := by
  rw [registrations, List.filterMap_append]
  exact List.append_nil _

theorem Ordered.order_call (h : s.Ordered) (hs : s.order.Sublist (registrations calls).dedup)
    (c : StmtCall) : (s.call c).order.Sublist (registrations (calls ++ [c])).dedup := by
  cases c with
  | register name query paramOIDs =>
    obtain ⟨rest, hrest, ho⟩ := h.order_register name query paramOIDs
    rw [registrations_register, dedup_concat, Synthesizer.call, ho]
    exact (hrest.trans (hs.erase name)).append_right [name]
  | get name =>
    rw [registrations_get]
    exact hs
  | close name =>
    rw [registrations_close]
    exact (List.erase_sublist).trans hs

theorem order_after (calls : List StmtCall) :
    (after calls).order.Sublist (registrations calls).dedup := by
  induction calls using List.reverseRecOn with
  | nil => exact List.Sublist.refl _
  | append_singleton calls c ih =>
    rw [after_concat]
    exact (ordered_after calls).order_call ih c

end Recency

section Lookup

def Spares (s : Synthesizer) (n : Bytes) : StmtCall → Prop
  | .register name query paramOIDs =>
    name ≠ n ∧ s.evicted (.register name query paramOIDs) ≠ some n
  | .get _ => True
  | .close name => name ≠ n

def Survives (n : Bytes) (s : Synthesizer) : List StmtCall → Prop
  | [] => True
  | c :: calls => s.Spares n c ∧ Survives n (s.call c) calls

theorem survives_concat : Survives n s (calls ++ [c]) ↔
    Survives n s calls ∧ (calls.foldl call s).Spares n c := by
  induction calls generalizing s with
  | nil => simp [Survives]
  | cons d calls ih =>
    rw [List.cons_append, Survives, Survives, ih, and_assoc]
    rfl

theorem Ordered.getStatement_call (h : s.Ordered) (c : StmtCall) :
    (s.call c).getStatement n = some stmt ↔
      c = .register n stmt.query stmt.paramOIDs ∨ s.Spares n c ∧ s.getStatement n = some stmt := by
  cases c with
  | register name query paramOIDs =>
    rw [Synthesizer.call, h.getStatement_register, Spares, StmtCall.register.injEq]
    by_cases hn : n = name
    · subst hn
      simp only [if_true, Option.some.injEq, ne_eq, not_true_eq_false,
        false_and, or_false, true_and]
      constructor
      · rintro rfl
        exact ⟨rfl, rfl⟩
      · rintro ⟨rfl, rfl⟩
        rfl
    · rw [if_neg hn]
      split
      · rename_i he
        simp [he, Ne.symm hn]
      · rename_i he
        simp [he, Ne.symm hn]
  | get name => simp [Synthesizer.call, Spares]
  | close name =>
    rw [Synthesizer.call, closeStatement, getStatement, Spares]
    by_cases hn : n = name
    · subst hn
      rw [AList.lookup_erase]
      simp
    · rw [AList.lookup_erase_ne hn]
      simp [Ne.symm hn, getStatement]

/-- A lookup finds the last registration that was neither closed nor evicted since. -/
theorem getStatement_after (calls : List StmtCall) :
    (after calls).getStatement n = some stmt ↔
      ∃ before since, calls = before ++ .register n stmt.query stmt.paramOIDs :: since ∧
        Survives n (after (before ++ [.register n stmt.query stmt.paramOIDs])) since := by
  induction calls using List.reverseRecOn with
  | nil => simp [after, empty, getStatement]
  | append_singleton calls c ih =>
    rw [after_concat, (ordered_after calls).getStatement_call, ih]
    constructor
    · rintro (rfl | ⟨hspare, before, since, rfl, hsince⟩)
      · exact ⟨calls, [], rfl, trivial⟩
      · refine ⟨before, since ++ [c], by simp, survives_concat.mpr ⟨hsince, ?_⟩⟩
        rwa [after, ← List.foldl_append, List.append_assoc, List.singleton_append]
    · rintro ⟨before, since, he, hsince⟩
      rcases List.eq_nil_or_concat' since with rfl | ⟨since, d, rfl⟩
      · exact .inl (List.append_inj_right' he rfl |> List.singleton_inj.mp)
      · rw [← List.cons_append, ← List.append_assoc] at he
        obtain ⟨rfl, hd⟩ := List.append_inj' he rfl
        obtain rfl := List.singleton_inj.mp hd
        obtain ⟨hsince, hspare⟩ := survives_concat.mp hsince
        refine .inr ⟨?_, before, since, rfl, hsince⟩
        rwa [after, ← List.foldl_append, List.append_assoc, List.singleton_append] at hspare

end Lookup

end Synthesizer

/-- What the registry keeps over any calls: its order lists its names once each, in the order of
their last registrations and not too many, so that there is one to evict at capacity. A new name at
capacity evicts the least recently registered one and nothing else, and a lookup finds the last
registration that was neither closed nor evicted since. -/
theorem registry_invariant (calls : List StmtCall) :
    let s := Synthesizer.after calls
    s.order.Nodup ∧ (∀ n, n ∈ s.order ↔ n ∈ s.statements) ∧
    s.order.length ≤ maxSynthStatements ∧
    (maxSynthStatements ≤ s.statements.keys.length → s.order ≠ []) ∧
    s.order.Sublist (registrations calls).dedup ∧
    (∀ name query paramOIDs, name ∉ s.statements →
      maxSynthStatements ≤ s.statements.keys.length →
      ∃ oldest, s.order.head? = some oldest ∧ oldest ≠ name ∧
        (s.registerStatement name query paramOIDs).order = s.order.tail ++ [name] ∧
        (s.registerStatement name query paramOIDs).getStatement oldest = none ∧
        ∀ n, n ≠ name → n ≠ oldest →
          (s.registerStatement name query paramOIDs).getStatement n = s.getStatement n) ∧
    ∀ n query paramOIDs, s.getStatement n = some ⟨query, paramOIDs⟩ ↔
      ∃ before since, calls = before ++ .register n query paramOIDs :: since ∧
        Synthesizer.Survives n
          (Synthesizer.after (before ++ [.register n query paramOIDs])) since := by
  intro s
  have h : s.Ordered := Synthesizer.ordered_after calls
  refine ⟨h.nodup, h.mem, ?_, h.order_ne_nil, Synthesizer.order_after calls, ?_, ?_⟩
  · rw [h.length]
    exact h.bounded
  · intro name query paramOIDs hnew hfull
    obtain ⟨oldest, rest, ho⟩ := List.exists_cons_of_ne_nil (h.order_ne_nil hfull)
    have hne : oldest ≠ name := by
      rintro rfl
      exact hnew ((h.mem oldest).mp (by simp [ho]))
    have hev : s.evicted (.register name query paramOIDs) = some oldest :=
      Synthesizer.evicted_full hnew hfull ho
    refine ⟨oldest, by rw [ho]; rfl, hne, ?_, ?_, ?_⟩
    · rw [Synthesizer.registerStatement_full hnew hfull ho, ho]
      rfl
    · rw [h.getStatement_register, if_neg hne, if_pos hev]
    · intro n hn hold
      rw [h.getStatement_register, if_neg hn, if_neg]
      rw [hev]
      exact fun he => hold (Option.some.inj he).symm
  · intro n query paramOIDs
    exact Synthesizer.getStatement_after calls

end Pgmux
