import Mathlib.Data.List.AList
import Pgmux.Literal

namespace Pgmux

structure PreparedStmt where
  query : Bytes
  paramOIDs : List Nat
  deriving DecidableEq

def maxSynthStatements : Nat := 10000

/-- The prepared statements of one session in multiplex mode, and their registration order. -/
structure Synthesizer where
  statements : AList fun _ : Bytes => PreparedStmt
  order : List Bytes

def Synthesizer.empty : Synthesizer := ⟨∅, []⟩

def Synthesizer.registerStatement (s : Synthesizer) (name query : Bytes)
    (paramOIDs : List Nat) : Synthesizer :=
  if name ∈ s.statements then
    { statements := s.statements.insert name ⟨query, paramOIDs⟩
      order := s.order.erase name ++ [name] }
  else
    let s := if maxSynthStatements ≤ s.statements.keys.length then
      match s.order with
      | oldest :: rest => { statements := s.statements.erase oldest, order := rest }
      | [] => s
    else s
    { statements := s.statements.insert name ⟨query, paramOIDs⟩
      order := s.order ++ [name] }

def Synthesizer.getStatement (s : Synthesizer) (name : Bytes) : Option PreparedStmt :=
  s.statements.lookup name

def Synthesizer.closeStatement (s : Synthesizer) (name : Bytes) : Synthesizer :=
  { statements := s.statements.erase name, order := s.order.erase name }

theorem lookup_insert_cases {s : AList fun _ : Bytes => β}
    (h : (s.insert name new).lookup n = some x) :
    (n = name ∧ x = new) ∨ (n ≠ name ∧ s.lookup n = some x) := by
  by_cases hn : n = name
  · subst hn
    rw [AList.lookup_insert] at h
    exact .inl ⟨rfl, (Option.some.inj h).symm⟩
  · rw [AList.lookup_insert_ne hn] at h
    exact .inr ⟨hn, h⟩

theorem lookup_erase_some {s : AList fun _ : Bytes => β}
    (h : (s.erase name).lookup n = some x) : n ≠ name ∧ s.lookup n = some x := by
  by_cases hn : n = name
  · subst hn
    rw [AList.lookup_erase] at h
    cases h
  · exact ⟨hn, by rwa [AList.lookup_erase_ne hn] at h⟩

theorem getStatement_registerStatement {s : Synthesizer}
    (h : (s.registerStatement name query paramOIDs).getStatement n = some stmt) :
    (n = name ∧ stmt = ⟨query, paramOIDs⟩) ∨ (n ≠ name ∧ s.getStatement n = some stmt) := by
  unfold Synthesizer.registerStatement Synthesizer.getStatement at h
  split at h
  · exact lookup_insert_cases h
  dsimp only at h
  split at h
  · split at h
    · exact (lookup_insert_cases h).imp_right fun h => ⟨h.1, (lookup_erase_some h.2).2⟩
    · exact lookup_insert_cases h
  · exact lookup_insert_cases h

theorem getStatement_registerStatement_self (s : Synthesizer) (name query : Bytes)
    (paramOIDs : List Nat) :
    (s.registerStatement name query paramOIDs).getStatement name = some ⟨query, paramOIDs⟩ := by
  unfold Synthesizer.registerStatement Synthesizer.getStatement
  split <;> exact AList.lookup_insert _

theorem getStatement_closeStatement {s : Synthesizer}
    (h : (s.closeStatement name).getStatement n = some stmt) :
    n ≠ name ∧ s.getStatement n = some stmt :=
  lookup_erase_some h

/-- The placeholder number `N` of a `$N` whose digits start the text, if it is a parameter. -/
def placeholder (literals : List Bytes) (s : Bytes) : Option Bytes :=
  if s.head?.any (fun c => isDigit c && c ≠ '0'.toUInt8) then
    literals[decimal (s.takeWhile isDigit) - 1]?
  else none

/-- The scan of `replacePlaceholders`; `skip` bytes of a replaced placeholder are still to be
passed over. A dollar-quote tag that ends the query is written and then read again. -/
def replaceFrom (literals : List Bytes) : Nat → Mode → Bytes → Bytes
  | _, _, [] => []
  | skip + 1, m, _ :: s => replaceFrom literals skip m s
  | 0, .plain, c :: s =>
    if c = quote then c :: replaceFrom literals 0 .single s
    else match parseDollarTag (c :: s) with
      | some tag =>
        if tag.length = s.length + 1 then tag ++ c :: replaceFrom literals 0 .plain s
        else c :: replaceFrom literals 0 (.copy (tag.length - 2) (.dollar tag)) s
      | none =>
        if c = '$'.toUInt8 then
          match placeholder literals s with
          | some lit => lit ++ replaceFrom literals (s.takeWhile isDigit).length .plain s
          | none => c :: replaceFrom literals 0 .plain s
        else c :: replaceFrom literals 0 .plain s
  | 0, m, c :: s => c :: replaceFrom literals 0 (m.next false c s) s

def replacePlaceholders (query : Bytes) (literals : List Bytes) : Bytes :=
  replaceFrom literals 0 .plain query

/-- The format code of parameter `i`: one code stands for all parameters. -/
def formatCode (formatCodes : List Int) (i : Nat) : Int :=
  match formatCodes with
  | [fc] => fc
  | _ => formatCodes.getD i 0

section Runtime

variable [CaseTable] [FloatFormat]

def paramLiterals (paramOIDs : List Nat) (formatCodes : List Int) :
    Nat → List (Option Bytes) → Option (List Bytes)
  | _, [] => some []
  | i, param :: params => do
    let lit ← paramToLiteral param (paramOIDs.getD i 0) (formatCode formatCodes i)
    let lits ← paramLiterals paramOIDs formatCodes (i + 1) params
    return lit :: lits

/-- The simple query for a Bind; `none` is a synthesis error. -/
def Synthesizer.synthesize (s : Synthesizer) (stmtName : Bytes) (params : List (Option Bytes))
    (formatCodes : List Int) : Option Bytes :=
  match s.statements.lookup stmtName with
  | none => none
  | some stmt =>
    (paramLiterals stmt.paramOIDs formatCodes 0 params).map (replacePlaceholders stmt.query)

theorem synthesize_statement {synth : Synthesizer}
    (h : synth.synthesize name params codes = some query) :
    ∃ stmt, synth.getStatement name = some stmt := by
  unfold Synthesizer.synthesize at h
  cases hl : synth.statements.lookup name with
  | none => simp [hl] at h
  | some stmt => exact ⟨stmt, hl⟩

end Runtime

end Pgmux
