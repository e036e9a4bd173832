import Pgmux.RelayLoop

namespace Pgmux

open Interaction

/-- Case mappings of a runtime that knows ASCII letters only. -/
@[reducible] def asciiCase : CaseTable where
  upper r := if 97 ≤ r ∧ r ≤ 122 then r - 32 else r
  lower r := if 65 ≤ r ∧ r ≤ 90 then r + 32 else r
  upper_ascii c hc := by
    have h₁ : (97 ≤ c.toNat) = (97 ≤ c) := rfl
    have h₂ : (c.toNat ≤ 122) = (c ≤ 122) := rfl
    unfold upperByte
    simp only [h₁, h₂, Bool.and_eq_true, decide_eq_true_eq]
    split
    · rename_i h
      rw [UInt8.toNat_sub_of_le _ _ (Nat.le_trans (by decide : (32 : Nat) ≤ 97) h.1)]
      rfl
    · rfl
  lower_ascii c hc := by
    have h₁ : (65 ≤ c.toNat) = (65 ≤ c) := rfl
    have h₂ : (c.toNat ≤ 90) = (c ≤ 90) := rfl
    unfold lowerByte
    simp only [h₁, h₂, Bool.and_eq_true, decide_eq_true_eq]
    split
    · rename_i h
      have h90 : c.toNat ≤ 90 := h.2
      rw [UInt8.toNat_add]
      change c.toNat + 32 = (c.toNat + 32) % 256
      omega
    · rfl
  upper_small r h := by
    split at h <;> omega
  lower_small r h := by
    split at h <;> omega

/-- A proxy whose pg_query parses nothing and whose rewrite rules replace every query by one
text. -/
@[reducible] def asciiExternal : External where
  toCaseTable := asciiCase
  format32 _ := ascii "0"
  format64 _ := ascii "0"
  scanInt _ := 0
  scanFloat _ := 0
  Tree := Unit
  parse _ := none
  deparse _ := none
  scanComments _ := none
  classifyTree _ := .read
  checkFirewallTree _ _ := none
  treeDependency _ := none
  Rules := Bytes
  applyRules text _ := some text
  extractTablesTree _ := []
  extractReadTablesTree _ := []
  responseJSON _ := []
  quoted s := ascii "\"" ++ s ++ ascii "\""

def defaultConfig : Config where
  multiplex := false
  resetQuery := ascii "DISCARD ALL"
  astParser := false
  causalConsistency := false
  firewall := ⟨false, false, false, false, false⟩
  sessionCompat := false
  compatMode := .allow
  maxResultSize := 0
  apiKeys := []
  resetQuery_ne := by decide

def parseMessage (name query : Bytes) : Message := ⟨msgParse, buildParsePayload name query []⟩

def bindMessage (name : Bytes) : Message := ⟨msgBind, [0] ++ name ++ [0, 0, 0, 0, 0, 0, 0]⟩

def executeMessage : Message := ⟨msgExecute, [0, 0, 0, 0, 0]⟩

def syncMessage : Message := ⟨msgSync, []⟩

def readyMessage : Message := ⟨msgReadyForQuery, ['I'.toUInt8]⟩

def errorMessage : Message := ⟨msgErrorResponse, [0]⟩

/-- The state in which a client begins, without causal consistency and the AST parser. -/
def plainRelay : Relay := .init [] (.new 0 false false) false

/-- An environment that plays a script: the client sends `inbox` and closes, the backends answer
`replies`, and the pools hand out `conns`. -/
structure Script [External] where
  inbox : List Message
  replies : List Message
  config : Config
  pools : List PoolId
  conns : List ConnId
  rules : Option External.Rules
  reader : Option Addr
  readOnly : Bool

def Script.simple [External] (inbox replies : List Message) : Script where
  inbox := inbox
  replies := replies
  config := defaultConfig
  pools := [1]
  conns := [7, 8, 9]
  rules := none
  reader := none
  readOnly := false

def readOnlyScript [External] (inbox : List Message) : Script :=
  { Script.simple inbox [readyMessage] with readOnly := true }

def Script.answer [External] : Handler Ans Script := fun s o =>
  match o with
  | .ctxDone => (false, s)
  | .readClient =>
    match s.inbox with
    | [] => (.closed, s)
    | m :: inbox => (.message m, { s with inbox := inbox })
  | .sendClient _ => (true, s)
  | .sendCached _ => (true, s)
  | .schedule => (true, s)
  | .config => (s.config, s)
  | .inMaintenance => (false, s)
  | .inReadOnly => (s.readOnly, s)
  | .allow _ => (true, s)
  | .now => (0, s)
  | .rewriter => (s.rules, s)
  | .writerAddr => (ascii "w", s)
  | .writerPool =>
    match s.pools with
    | p :: q :: pools => (p, { s with pools := q :: pools })
    | pools => (pools.headD 0, s)
  | .writerAllow => (true, s)
  | .writerRecord _ => ((), s)
  | .nextReader _ => (s.reader, s)
  | .readerAllow _ => (true, s)
  | .readerRecord _ _ => ((), s)
  | .readerPool _ => (some 100, s)
  | .markUnhealthy _ => ((), s)
  | .acquire _ => (s.conns.head?, { s with conns := s.conns.tail })
  | .release _ _ => ((), s)
  | .discard _ _ => ((), s)
  | .write _ _ => (true, s)
  | .copyTo _ _ => (true, s)
  | .read _ => (s.replies.head?, { s with replies := s.replies.tail })
  | .setCancel _ _ => ((), s)
  | .clearCancel => ((), s)
  | .queryCache => (false, s)
  | .cacheGet _ => (none, s)
  | .cacheSet _ _ _ => ((), s)
  | .invalidateTable _ => ((), s)
  | .publish _ => ((), s)
  | .backends => (s.reader.toList, s)
  | .setReplayLSN _ _ => ((), s)
  | .defaultDB => ([], s)
  | .knownDB _ => (true, s)

theorem Script.runWith_check [External] {env : Handler Ans Script} {s : Script} {p : Proc α}
    {f : α → Trace Ans → Bool} (h : (p.drive env n s).any (fun r => f r.1 r.2.1)) :
    ∃ a tr, Runs p tr a ∧ f a tr := by
  obtain ⟨⟨a, tr, _⟩, hr, hc⟩ := (Option.any_eq_true _ _).mp h
  exact ⟨a, tr, Prog.drive_runs hr, hc⟩

theorem Script.run_check [External] {s : Script} {p : Proc α} {f : α → Trace Ans → Bool}
    (h : (p.drive Script.answer n s).any (fun r => f r.1 r.2.1)) :
    ∃ a tr, Runs p tr a ∧ f a tr :=
  runWith_check h

def Script.cachingAnswer [External] : Handler Ans Script := fun s o =>
  match o with
  | .queryCache => (true, s)
  | o => Script.answer s o

def Script.playWith [External] (env : Handler Ans Script) (s : Script) (n : Nat) :
    Option (List (Relay × Trace Ans) × Trace Ans) :=
  let session := Session.new 0 s.config.causalConsistency s.config.astParser
  (driveRounds env relayStep n s (Relay.init [] session s.config.multiplex)).bind
    fun (rs, st, s) => ((cleanup st).drive env n s).map fun r => (rs, r.2.1)

def Script.play [External] (s : Script) (n : Nat) : Option (List (Relay × Trace Ans) × Trace Ans) :=
  let session := Session.new 0 s.config.causalConsistency s.config.astParser
  (driveRounds Script.answer relayStep n s (Relay.init [] session s.config.multiplex)).bind
    fun (rs, st, s) => ((cleanup st).drive Script.answer n s).map fun r => (rs, r.2.1)

theorem Script.playWith_check [External] {env : Handler Ans Script} {s : Script}
    {f : List (Relay × Trace Ans) → Trace Ans → Bool}
    (h : (s.playWith env n).any (fun r => f r.1 r.2)) :
    ∃ session rs t, RelayRun [] session s.config.multiplex rs t ∧ f rs t := by
  obtain ⟨⟨rs, t⟩, hr, hc⟩ := (Option.any_eq_true _ _).mp h
  obtain ⟨⟨rs', st, s'⟩, hd, hm⟩ := Option.bind_eq_some_iff.mp hr
  obtain ⟨⟨_, t', s''⟩, hcl, ht⟩ := Option.map_eq_some_iff.mp hm
  cases ht
  exact ⟨_, _, _, ⟨st, driveRounds_rounds hd, Prog.drive_runs hcl⟩, hc⟩

theorem Script.play_run [External] {s : Script}
    {f : List (Relay × Trace Ans) → Trace Ans → Bool}
    (h : (s.play n).any (fun r => f r.1 r.2)) :
    ∃ rs t, RelayRun [] (Session.new 0 s.config.causalConsistency s.config.astParser)
      s.config.multiplex rs t ∧ f rs t := by
  obtain ⟨⟨rs, t⟩, hr, hc⟩ := (Option.any_eq_true _ _).mp h
  obtain ⟨⟨rs', st, s'⟩, hd, hm⟩ := Option.bind_eq_some_iff.mp hr
  obtain ⟨⟨_, t', s''⟩, hcl, ht⟩ := Option.map_eq_some_iff.mp hm
  cases ht
  exact ⟨_, _, ⟨st, driveRounds_rounds hd, Prog.drive_runs hcl⟩, hc⟩

theorem Script.play_check [External] {s : Script}
    {f : List (Relay × Trace Ans) → Trace Ans → Bool}
    (h : (s.play n).any (fun r => f r.1 r.2)) :
    ∃ session rs t, RelayRun [] session s.config.multiplex rs t ∧ f rs t :=
  playWith_check h

end Pgmux
