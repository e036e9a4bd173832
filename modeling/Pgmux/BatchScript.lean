import Mathlib.Data.List.Infix
import Mathlib.Logic.Function.Basic
import Pgmux.Collect
import Pgmux.Synthesizer

namespace Pgmux

/-- A statement that is bound to arguments: what follows the names in a Bind. -/
structure Portal where
  stmt : PreparedStmt
  args : Bytes
  deriving DecidableEq

/-- What a backend is asked to do by the messages of a batch, once the names are resolved. -/
inductive Action where
  | parse (stmt : PreparedStmt)
  | bind (portal : Portal)
  | describeStatement (stmt : PreparedStmt)
  | describePortal (portal : Portal)
  | execute (portal : Portal) (maxRows : Nat)
  | close
  deriving DecidableEq

/-- A message that every backend refuses, by its type and the name at fault. -/
structure Refusal where
  type : UInt8
  name : Bytes
  deriving DecidableEq

inductive Effect where
  | silent
  | act (a : Action)
  | refuse (r : Refusal)

structure Names where
  stmts : Bytes → Option PreparedStmt
  portals : Bytes → Option Portal

def Names.start (stmts : Bytes → Option PreparedStmt) : Names := ⟨stmts, fun _ => none⟩

def Names.setStmt (k : Names) (name : Bytes) (stmt : Option PreparedStmt) : Names :=
  { k with stmts := Function.update k.stmts name stmt }

def Names.setPortal (k : Names) (name : Bytes) (portal : Option Portal) : Names :=
  { k with portals := Function.update k.portals name portal }

/-- Only the unnamed statement can be parsed again without a Close. -/
def Names.parse (k : Names) (payload : Bytes) : Effect × Names :=
  let full := parseParseMessageFull payload
  if full.ok ∧ (full.stmtName = [] ∨ k.stmts full.stmtName = none) then
    let stmt : PreparedStmt := ⟨full.query, full.paramOIDs⟩
    (.act (.parse stmt), k.setStmt full.stmtName (some stmt))
  else (.refuse ⟨msgParse, full.stmtName⟩, k)

def Names.bind (k : Names) (payload : Bytes) : Effect × Names :=
  match cString payload with
  | none => (.refuse ⟨msgBind, []⟩, k)
  | some (portal, rest) =>
    match cString rest with
    | none => (.refuse ⟨msgBind, []⟩, k)
    | some (name, args) =>
      match k.stmts name with
      | none => (.refuse ⟨msgBind, name⟩, k)
      | some stmt =>
        if portal = [] ∨ k.portals portal = none then
          (.act (.bind ⟨stmt, args⟩), k.setPortal portal (some ⟨stmt, args⟩))
        else (.refuse ⟨msgBind, portal⟩, k)

def Names.describe (k : Names) (payload : Bytes) : Effect :=
  let (kind, name) := parseCloseMessage payload
  if kind = 'S'.toUInt8 then
    match k.stmts name with
    | some stmt => .act (.describeStatement stmt)
    | none => .refuse ⟨msgDescribe, name⟩
  else if kind = 'P'.toUInt8 then
    match k.portals name with
    | some portal => .act (.describePortal portal)
    | none => .refuse ⟨msgDescribe, name⟩
  else .refuse ⟨msgDescribe, []⟩

def Names.execute (k : Names) (payload : Bytes) : Effect :=
  match k.portals (payload.takeWhile (· ≠ 0)) with
  | some portal => .act (.execute portal (maxRows payload))
  | none => .refuse ⟨msgExecute, payload.takeWhile (· ≠ 0)⟩

def Names.close (k : Names) (payload : Bytes) : Effect × Names :=
  let (kind, name) := parseCloseMessage payload
  if kind = 'S'.toUInt8 then (.act .close, k.setStmt name none)
  else if kind = 'P'.toUInt8 then (.act .close, k.setPortal name none)
  else (.refuse ⟨msgClose, []⟩, k)

def msgFlush : UInt8 := 'H'.toUInt8

/-- Outside a COPY its messages are ignored, and a Flush has no answer of its own. -/
def isSilent (type : UInt8) : Bool :=
  type = msgFlush || type = msgCopyData || type = msgCopyDone || type = msgCopyFail

def Names.message (k : Names) (m : Message) : Effect × Names :=
  if m.type = msgParse then k.parse m.payload
  else if m.type = msgBind then k.bind m.payload
  else if m.type = msgDescribe then (k.describe m.payload, k)
  else if m.type = msgExecute then (k.execute m.payload, k)
  else if m.type = msgClose then k.close m.payload
  else if isSilent m.type then (.silent, k)
  else (.refuse ⟨m.type, []⟩, k)

/-- What a batch asks for: actions, up to the Sync or to a message that is refused. -/
structure BatchScript where
  actions : List Action
  refused : Option Refusal
  deriving DecidableEq

def script (k : Names) : List Message → BatchScript
  | [] => ⟨[], none⟩
  | m :: ms =>
    match k.message m with
    | (.silent, k) => script k ms
    | (.act a, k) => { script k ms with actions := a :: (script k ms).actions }
    | (.refuse r, _) => ⟨[], some r⟩

/-- A backend over fixed data: what it answers to an action or a refused message depends on what
the batch has done before. -/
structure FixedBackend where
  fails : List Action → Action → Bool
  error : List Action → Action → Bytes
  refusal : List Action → Refusal → Bytes
  /-- The answer to a Describe or an Execute that does not fail. -/
  answer : List Action → Action → List Message
  status : List Action → UInt8

namespace FixedBackend

def complete (D : FixedBackend) (past : List Action) : Action → List Message
  | .parse _ => [⟨'1'.toUInt8, []⟩]
  | .bind _ => [⟨'2'.toUInt8, []⟩]
  | .close => [⟨'3'.toUInt8, []⟩]
  | a => D.answer past a

def ready (D : FixedBackend) (past : List Action) : Message := ⟨msgReadyForQuery, [D.status past]⟩

/-- The first error ends the answers; the rest of the batch is skipped up to the Sync. -/
def run (D : FixedBackend) (refused : Option Refusal) : List Action → List Action → List Message
  | past, [] =>
    (refused.map fun r => ⟨msgErrorResponse, D.refusal past r⟩).toList ++ [D.ready past]
  | past, a :: as =>
    if D.fails past a then [⟨msgErrorResponse, D.error past a⟩, D.ready past]
    else D.complete past a ++ D.run refused (past ++ [a]) as

def respond (D : FixedBackend) (s : BatchScript) : List Message := D.run s.refused [] s.actions

def offScript : Message := ⟨msgErrorResponse, [1]⟩

def following (s : BatchScript) : FixedBackend where
  fails past a := !(past ++ [a]).isPrefixOf s.actions
  error _ _ := [1]
  refusal past r := if past = s.actions ∧ s.refused = some r then [0] else [1]
  answer _ _ := []
  status _ := 'I'.toUInt8

theorem complete_following (past : List Action) (a : Action) : ∀ m ∈ (following s).complete past a,
    m = ⟨'1'.toUInt8, []⟩ ∨ m = ⟨'2'.toUInt8, []⟩ ∨ m = ⟨'3'.toUInt8, []⟩ := by
  intro m hm
  cases a <;> simp only [complete, following, List.mem_singleton, List.not_mem_nil] at hm
  · exact .inl hm
  · exact .inr (.inl hm)
  · exact .inr (.inr hm)

theorem run_following (refused : Option Refusal) (past as : List Action) :
    ∃ ms z, (following s).run refused past as = ms ++ [z] ∧ z.type = msgReadyForQuery ∧
      z.payload.length ≤ maxMessageSize ∧ ∀ m ∈ ms, m.type ≠ msgReadyForQuery ∧
        isCopyResponse m = false ∧ m.payload.length ≤ maxMessageSize := by
  have herror : ∀ b : UInt8, (⟨msgErrorResponse, [b]⟩ : Message).type ≠ msgReadyForQuery ∧
      isCopyResponse ⟨msgErrorResponse, [b]⟩ = false ∧ [b].length ≤ maxMessageSize := by
    intro b
    exact ⟨show msgErrorResponse ≠ msgReadyForQuery by decide, rfl, Nat.le_add_left 1 _⟩
  have hready : ∀ past, ((following s).ready past).payload.length ≤ maxMessageSize :=
    fun _ => Nat.le_add_left 1 _
  induction as generalizing past with
  | nil =>
    refine ⟨_, _, rfl, rfl, hready past, ?_⟩
    intro m hm
    obtain ⟨r, -, rfl⟩ := Option.map_eq_some_iff.mp (Option.mem_toList.mp hm)
    simp only [following]
    split
    · exact herror 0
    · exact herror 1
  | cons a as ih =>
    rw [run]
    split
    · refine ⟨[_], _, rfl, rfl, hready past, ?_⟩
      intro m hm
      rw [List.mem_singleton.mp hm]
      exact herror 1
    · obtain ⟨ms, z, hrun, hz, hshort, hms⟩ := ih (past ++ [a])
      refine ⟨(following s).complete past a ++ ms, z, by simp [hrun], hz, hshort, ?_⟩
      intro m hm
      rcases List.mem_append.mp hm with hm | hm
      · rcases complete_following past a m hm with rfl | rfl | rfl
        all_goals exact ⟨by decide, rfl, Nat.zero_le _⟩
      · exact hms m hm

theorem offScript_not_mem_complete : offScript ∉ (following s).complete past a := by
  intro hm
  rcases complete_following past a _ hm with h | h | h <;> cases h

theorem offScript_not_mem_self (h : past ++ as = s.actions) :
    offScript ∉ (following s).run s.refused past as := by
  induction as generalizing past with
  | nil =>
    rw [List.append_nil] at h
    intro hm
    rcases List.mem_append.mp hm with hm | hm
    · obtain ⟨r, hr, heq⟩ := Option.map_eq_some_iff.mp (Option.mem_toList.mp hm)
      simp [following, offScript, h, hr] at heq
    · cases List.mem_singleton.mp hm
  | cons a as ih =>
    have hpre : (past ++ [a]).isPrefixOf s.actions := by
      rw [List.isPrefixOf_iff_prefix]
      exact ⟨as, by simpa using h⟩
    rw [run, if_neg (by simp [following, hpre])]
    intro hm
    rcases List.mem_append.mp hm with hm | hm
    · exact offScript_not_mem_complete hm
    · exact ih (by simpa using h) hm

theorem prefix_of_offScript (hpast : past <+: s.actions)
    (h : offScript ∉ (following s).run refused past as) : past ++ as <+: s.actions ∧
      ∀ r, refused = some r → past ++ as = s.actions ∧ s.refused = some r := by
  induction as generalizing past with
  | nil =>
    rw [List.append_nil]
    refine ⟨hpast, ?_⟩
    rintro r rfl
    by_contra hn
    exact h (by simp [run, following, offScript, hn])
  | cons a as ih =>
    by_cases hpre : (past ++ [a]).isPrefixOf s.actions
    · rw [run, if_neg (by simp [following, hpre])] at h
      have hlater := ih (List.isPrefixOf_iff_prefix.mp hpre) fun hm => h (by simp [hm])
      simpa using hlater
    · have hfails : (following s).fails past a := by
        change (!(past ++ [a]).isPrefixOf s.actions)
        rw [Bool.not_eq_true']
        exact Bool.eq_false_iff.mpr hpre
      rw [run, if_pos hfails] at h
      exact (h (by simp [following, offScript])).elim

theorem script_prefix (h : (following s).respond s = (following s).respond s') :
    s'.actions <+: s.actions ∧ ∀ r, s'.refused = some r → s'.actions = s.actions ∧
      s.refused = some r := by
  have hself : offScript ∉ (following s).respond s := offScript_not_mem_self rfl
  rw [h] at hself
  exact prefix_of_offScript List.nil_prefix hself

theorem script_ext (h : (following s).respond s = (following s).respond s')
    (h' : (following s').respond s = (following s').respond s') : s = s' := by
  obtain ⟨h₁, hr₁⟩ := script_prefix h
  obtain ⟨h₂, hr₂⟩ := script_prefix h'.symm
  obtain ⟨actions, refused⟩ := s
  obtain ⟨actions', refused'⟩ := s'
  obtain rfl : actions = actions' := h₂.eq_of_length_le h₁.length_le
  congr 1
  cases refused with
  | none =>
    cases refused' with
    | none => rfl
    | some r => exact (hr₁ r rfl).2
  | some r => exact (hr₂ r rfl).2.symm

end FixedBackend

end Pgmux
