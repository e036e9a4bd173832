import Pgmux.LimitedBatch
import Pgmux.View

namespace Pgmux

open Interaction

section Maps

variable {α : Type} [DecidableEq α] {β γ : α → Type} {a : α} {s : AList β} {s' : AList γ}

theorem keys_length_insert_new (h : a ∉ s) (x : β a) :
    (s.insert a x).keys.length = s.keys.length + 1 := by
  have hk : a ∉ s.keys := fun hk => h (AList.mem_keys.mpr hk)
  rw [AList.keys_insert, List.length_cons, List.erase_of_not_mem hk]

theorem keys_length_insert_known (h : a ∈ s) (x : β a) :
    (s.insert a x).keys.length = s.keys.length := by
  have hk : a ∈ s.keys := AList.mem_keys.mp h
  have hpos := List.length_pos_of_mem hk
  rw [AList.keys_insert, List.length_cons, List.length_erase_of_mem hk]
  omega

theorem keys_length_erase_le (s : AList β) (a : α) : (s.erase a).keys.length ≤ s.keys.length := by
  rw [AList.keys_erase]
  exact List.length_erase_le

theorem keys_length_erase_mem (h : a ∈ s) : (s.erase a).keys.length = s.keys.length - 1 := by
  rw [AList.keys_erase]
  exact List.length_erase_of_mem (AList.mem_keys.mp h)

omit [DecidableEq α] in
theorem exists_key_notMem (h : s.keys.length < s'.keys.length) : ∃ n ∈ s', n ∉ s := by
  by_contra hall
  push Not at hall
  have hsub : s'.keys ⊆ s.keys := fun n hn =>
    AList.mem_keys.mp (hall n (AList.mem_keys.mpr hn))
  have hle := (List.subperm_of_subset s'.keys_nodup hsub).length_le
  omega

omit [DecidableEq α] in
theorem keys_length_eq (h : ∀ n, n ∈ s ↔ n ∈ s') : s.keys.length = s'.keys.length := by
  apply List.Perm.length_eq
  rw [List.perm_ext_iff_of_nodup s.keys_nodup s'.keys_nodup]
  intro n
  rw [← AList.mem_keys, ← AList.mem_keys]
  exact h n

end Maps

namespace Synthesizer

variable {s : Synthesizer}

structure Ordered (s : Synthesizer) : Prop where
  nodup : s.order.Nodup
  mem : ∀ n, n ∈ s.order ↔ n ∈ s.statements
  bounded : s.statements.keys.length ≤ maxSynthStatements

theorem ordered_empty : Synthesizer.empty.Ordered := by
  refine ⟨List.nodup_nil, fun n => ?_, Nat.zero_le _⟩
  simp [Synthesizer.empty]

theorem Ordered.close (h : s.Ordered) (name : Bytes) : (s.closeStatement name).Ordered := by
  refine ⟨h.nodup.erase name, fun n => ?_, (keys_length_erase_le _ _).trans h.bounded⟩
  rw [closeStatement, AList.mem_erase, h.nodup.mem_erase_iff, h.mem]

theorem Ordered.add (h : s.Ordered) (hn : name ∉ s.statements)
    (hroom : s.statements.keys.length < maxSynthStatements) (stmt : PreparedStmt) :
    Ordered { statements := s.statements.insert name stmt, order := s.order ++ [name] } := by
  refine ⟨?_, fun n => ?_, ?_⟩
  · have hname : name ∉ s.order := fun ho => hn ((h.mem name).mp ho)
    rw [← List.concat_eq_append]
    exact h.nodup.concat hname
  · rw [AList.mem_insert, List.mem_append, List.mem_singleton, h.mem, or_comm]
  · rw [keys_length_insert_new hn]
    omega

theorem Ordered.evict (h : s.Ordered) (ho : s.order = oldest :: rest) :
    Ordered { statements := s.statements.erase oldest, order := rest } ∧
      (s.statements.erase oldest).keys.length < maxSynthStatements := by
  have hmem : oldest ∈ s.statements := (h.mem oldest).mp (by simp [ho])
  have hnodup := h.nodup
  rw [ho, List.nodup_cons] at hnodup
  have hlen := keys_length_erase_mem hmem
  have hpos : 0 < s.statements.keys.length :=
    List.length_pos_of_mem (AList.mem_keys.mp hmem)
  have hb := h.bounded
  have hlt : (s.statements.erase oldest).keys.length < maxSynthStatements := by omega
  refine ⟨⟨hnodup.2, fun n => ?_, hlt.le⟩, hlt⟩
  rw [AList.mem_erase, ← h.mem, ho, List.mem_cons]
  constructor
  · intro hn
    exact ⟨fun he => hnodup.1 (he ▸ hn), .inr hn⟩
  · rintro ⟨hne, he | hn⟩
    · exact absurd he hne
    · exact hn

theorem Ordered.register (h : s.Ordered) (name query : Bytes) (paramOIDs : List Nat) :
    (s.registerStatement name query paramOIDs).Ordered := by
  unfold registerStatement
  split
  · rename_i hn
    refine ⟨?_, fun n => ?_, ?_⟩
    · have hname : name ∉ s.order.erase name := h.nodup.not_mem_erase
      rw [← List.concat_eq_append]
      exact (h.nodup.erase name).concat hname
    · rw [AList.mem_insert, List.mem_append, List.mem_singleton, h.nodup.mem_erase_iff, h.mem]
      constructor
      · rintro (⟨-, hm⟩ | he)
        · exact .inr hm
        · exact .inl he
      · rintro (he | hm)
        · exact .inr he
        · by_cases he : n = name
          · exact .inr he
          · exact .inl ⟨he, hm⟩
    · rw [keys_length_insert_known hn]
      exact h.bounded
  · rename_i hn
    dsimp only
    split
    · rename_i hfull
      split
      · rename_i oldest rest ho
        obtain ⟨hev, hroom⟩ := h.evict ho
        exact hev.add (fun hm => hn (AList.mem_erase.mp hm).2) hroom _
      · rename_i ho
        -- A full registry has an oldest statement.
        obtain ⟨n, hk⟩ : ∃ n, n ∈ s.statements.keys := by
          have hpos : 0 < maxSynthStatements := by decide
          exact List.exists_mem_of_length_pos (hpos.trans_le hfull)
        have hm := (h.mem n).mpr (AList.mem_keys.mpr hk)
        simp [ho] at hm
    · rename_i hroom
      exact h.add hn (by omega) _

theorem mem_registerStatement
    (hroom : name ∈ s.statements ∨ s.statements.keys.length < maxSynthStatements)
    (query : Bytes) (paramOIDs : List Nat) :
    n ∈ (s.registerStatement name query paramOIDs).statements ↔ n = name ∨ n ∈ s.statements := by
  unfold registerStatement
  split
  · exact AList.mem_insert _
  · rename_i hn
    have hlen : ¬ maxSynthStatements ≤ s.statements.keys.length := by
      have := hroom.resolve_left hn
      omega
    dsimp only
    rw [if_neg hlen]
    exact AList.mem_insert _

end Synthesizer

section Session

variable [External] {s : Session}

def Session.SameNames (s : Session) : Prop := ∀ n, n ∈ s.stmtRoutes ↔ n ∈ s.stmtWrite

theorem Session.SameNames.call (h : s.SameNames) (now : Nat) (c : SessionCall) :
    (s.call now c).SameNames := by
  intro n
  cases c with
  | query text =>
    rw [Session.call, (routeQueryLocked_stmts s now text).1, (routeQueryLocked_stmts s now text).2]
    exact h n
  | parse name text =>
    rw [Session.call, Session.registerStatement, AList.mem_insert, AList.mem_insert, h]
  | execute => exact h n
  | close name =>
    rw [Session.call, Session.closeStatement, AList.mem_erase, AList.mem_erase, h]
  | setInTransaction v => exact h n
  | setLastWriteLSN lsn => exact h n
  | pin reason =>
    rw [Session.call, Session.pin]
    split <;> exact h n

theorem Called.sameNames (hc : Called P s s') (h : s.SameNames) : s'.SameNames := by
  obtain ⟨calls, rfl, -⟩ := hc
  induction calls generalizing s with
  | nil => exact h
  | cons e calls ih => exact ih (h.call e.1 e.2)

end Session

section StatementBound

variable [External] {st st' : Relay} {tr : Trace Ans}

/-- The bounds on what a session keeps for its client, and the agreement of its registries. -/
structure StatementsBounded (st : Relay) : Prop where
  buffer : st.extBuf.length ≤ maxExtBufMessages
  registry : ∀ synth ∈ st.synth, synth.statements.keys.length ≤ maxSynthStatements
  routes : st.session.stmtRoutes.keys.length ≤ maxSynthStatements
  types : st.session.stmtWrite.keys.length ≤ maxSynthStatements
  agree : ∀ synth ∈ st.synth, ∀ name,
    (st.session.stmtRoutes.lookup name).isSome = (synth.getStatement name).isSome

/-- A Parse that passes the limits names a statement that is known, or there is room for it. -/
def RoomForParse (st : Relay) (tr : Trace Ans) : Prop :=
  ∀ msg, received tr = some msg → msg.type = msgParse → refused tr = false →
    (parseNameText msg.payload).1 ∈ st.session.stmtRoutes ∨
      st.session.stmtRoutes.keys.length < maxSynthStatements

structure Registries (st : Relay) : Prop where
  names : st.session.SameNames
  ordered : ∀ synth ∈ st.synth, synth.Ordered
  buffer : st.extBuf.length ≤ maxExtBufMessages

theorem relayStep_change (h : Runs (relayStep st) tr (.inl st')) : Change tr st st' :=
  (relayStep_step h (configured_all tr)).change

theorem Change.extBuf_le (h : Change tr st st') : st'.extBuf.length ≤ st.extBuf.length + 1 := by
  cases h with
  | same hs => rw [hs.extBuf]; omega
  | registered _ _ _ hr => rw [hr.extBuf]; split <;> simp
  | bound _ _ hb =>
    rcases hb.mode with ⟨-, -, he⟩ | ⟨-, he, -⟩
    · simp [he]
    · rw [he]; omega
  | closed _ _ hc => rw [hc.extBuf]; split <;> simp
  | buffered _ _ _ _ he => simp [he]
  | ended ho => simp [ho.extBuf]

theorem relayStep_buffer (h : Runs (relayStep st) tr (.inl st'))
    (hle : st.extBuf.length ≤ maxExtBufMessages) : st'.extBuf.length ≤ maxExtBufMessages := by
  have hgrows := (relayStep_change h).extBuf_le
  obtain ⟨b, msg, m, t, rfl, hh⟩ := relayStep_handled h
  by_cases hq : msg.type = msgQuery
  · cases hh with
    | limited _ _ hs => rwa [hs]
    | query _ _ hrun =>
      have hsame := (handleQuery_step hrun (configured_all _)).sameBatch
      rw [state_inl] at hsame
      rwa [hsame.extBuf]
    | extended _ hne _ => exact absurd hq hne
  · rcases relayStep_roomy h rfl hq with ⟨-, b, hr⟩ | ⟨hroom, -⟩
    · rwa [(proceed_inl hr.symm).2]
    · omega

theorem Change.ordered (h : Change tr st st') (ho : ∀ synth ∈ st.synth, synth.Ordered) :
    ∀ synth ∈ st'.synth, synth.Ordered := by
  cases h with
  | same hs => rwa [hs.synth]
  | registered _ _ _ hr =>
    rw [hr.synth]
    intro synth hm
    obtain ⟨synth₀, h₀, rfl⟩ := Option.map_eq_some_iff.mp hm
    exact (ho synth₀ h₀).register _ _ _
  | bound _ _ hb => rwa [hb.synth]
  | closed _ _ hc =>
    rcases hc.forgets with ⟨-, hy, -⟩ | ⟨-, -, hy⟩
    · rwa [hy]
    · rw [hy]
      intro synth hm
      obtain ⟨synth₀, h₀, rfl⟩ := Option.map_eq_some_iff.mp hm
      exact (ho synth₀ h₀).close _
  | buffered _ _ _ _ he => rwa [he]
  | ended hv => rwa [hv.synth]

theorem relayStep_registries (h : Runs (relayStep st) tr (.inl st')) (hr : Registries st) :
    Registries st' where
  names := (relayStep_session h).sameNames hr.names
  ordered := (relayStep_change h).ordered hr.ordered
  buffer := relayStep_buffer h hr.buffer

structure InStep (st : Relay) : Prop where
  types : st.session.stmtWrite.keys.length ≤ maxSynthStatements
  agree : ∀ synth ∈ st.synth, ∀ n, n ∈ st.session.stmtWrite ↔ n ∈ synth.statements

omit [External] in
theorem statementsBounded_iff (hr : Registries st) : StatementsBounded st ↔ InStep st := by
  have hlookup (synth : Synthesizer) (n : Bytes) :
      (st.session.stmtRoutes.lookup n).isSome = (synth.getStatement n).isSome ↔
        (n ∈ st.session.stmtWrite ↔ n ∈ synth.statements) := by
    rw [Bool.eq_iff_iff, Synthesizer.getStatement, AList.lookup_isSome, AList.lookup_isSome,
      hr.names]
  constructor
  · intro h
    exact ⟨h.types, fun synth hs n => (hlookup synth n).mp (h.agree synth hs n)⟩
  · intro h
    refine ⟨hr.buffer, fun synth hs => (hr.ordered synth hs).bounded, ?_, h.types,
      fun synth hs n => (hlookup synth n).mpr (h.agree synth hs n)⟩
    rw [keys_length_eq hr.names]
    exact h.types

omit [External] in
theorem InStep.of_same (h : InStep st) (hy : st'.synth = st.synth)
    (hw : st'.session.stmtWrite = st.session.stmtWrite) : InStep st' := by
  refine ⟨hw ▸ h.types, ?_⟩
  rw [hy, hw]
  exact h.agree

theorem InStep.registered (h : InStep st) (hr : Registered seen st rules msg st')
    (hroom : (parseNameText msg.payload).1 ∈ st.session.stmtWrite ∨
      st.session.stmtWrite.keys.length < maxSynthStatements) : InStep st' := by
  refine ⟨?_, ?_⟩
  · rw [hr.stmtWrite]
    by_cases hn : (parseNameText msg.payload).1 ∈ st.session.stmtWrite
    · rw [keys_length_insert_known hn]
      exact h.types
    · rw [keys_length_insert_new hn]
      have := hroom.resolve_left hn
      omega
  · rw [hr.synth, hr.stmtWrite]
    intro synth hm n
    obtain ⟨synth₀, h₀, rfl⟩ := Option.map_eq_some_iff.mp hm
    have hagree := h.agree synth₀ h₀
    rw [hagree, keys_length_eq hagree] at hroom
    rw [AList.mem_insert, Synthesizer.mem_registerStatement hroom, hagree]

omit [External] in
theorem InStep.closed (h : InStep st) (hc : ClosedBy st msg st') : InStep st' := by
  rcases hc.forgets with ⟨hs, hy, -⟩ | ⟨hs, -, hy⟩
  · exact h.of_same hy (by rw [hs])
  · refine ⟨?_, ?_⟩
    · rw [hs]
      exact (keys_length_erase_le _ _).trans h.types
    · rw [hs, hy]
      intro synth hm n
      obtain ⟨synth₀, h₀, rfl⟩ := Option.map_eq_some_iff.mp hm
      rw [Session.closeStatement, Synthesizer.closeStatement, AList.mem_erase, AList.mem_erase,
        h.agree synth₀ h₀]

theorem relayStep_tracked (h : Runs (relayStep st) tr (.inl st')) (hr : Registries st)
    (ht : InStep st) (hroom : RoomForParse st tr) : InStep st' := by
  cases relayStep_change h with
  | same hs => exact ht.of_same hs.synth hs.stmtWrite
  | registered hm hp _ hreg =>
    rcases relayStep_offered h hm (by rw [hp]; decide) with ⟨-, rfl⟩ | ⟨hx, -⟩
    · exact ht
    · have hspace := hroom _ hm hp hx
      rw [hr.names, keys_length_eq hr.names] at hspace
      exact ht.registered hreg hspace
  | bound _ _ hb => exact ht.of_same hb.synth (by rw [hb.session])
  | closed _ _ hc => exact ht.closed hc
  | buffered _ _ _ _ he =>
    rw [he]
    exact ⟨ht.types, ht.agree⟩
  | ended hv => exact ht.of_same hv.synth hv.stmtWrite

theorem relayStep_untracked (h : Runs (relayStep st) tr (.inl st')) (hr : Registries st)
    (hroom : ¬ RoomForParse st tr) : ¬ InStep st' := by
  intro ht
  apply hroom
  intro msg hm hp hx
  rw [hr.names, keys_length_eq hr.names]
  by_contra hfull
  rw [not_or, not_lt] at hfull
  rcases relayStep_offered h hm (by rw [hp]; decide) with ⟨hx', -⟩ | ⟨-, t, hrun⟩
  · rw [hx] at hx'
    cases hx'
  · rw [handleExtended, if_pos hp] at hrun
    obtain ⟨rules, now, t', -, hstep⟩ := handleParse_step hrun
    have hlen := ht.types
    rw [hstep.registered.stmtWrite, keys_length_insert_new hfull.1] at hlen
    omega

omit [External] in
theorem registries_init (dbName : Bytes) (lag : Int) (causal ast multiplex : Bool) :
    Registries (Relay.init dbName (.new lag causal ast) multiplex) ∧
      InStep (Relay.init dbName (.new lag causal ast) multiplex) := by
  have hsynth : ∀ synth ∈ (Relay.init dbName (.new lag causal ast) multiplex).synth,
      synth = .empty := by
    intro synth hm
    cases multiplex with
    | true => exact (Option.some.inj hm).symm
    | false => cases hm
  refine ⟨⟨fun n => ?_, fun synth hm => ?_, Nat.zero_le _⟩, Nat.zero_le _, fun synth hm n => ?_⟩
  · simp [Relay.init, Session.new]
  · rw [hsynth synth hm]
    exact Synthesizer.ordered_empty
  · rw [hsynth synth hm]
    simp [Relay.init, Session.new, Synthesizer.empty]

theorem rounds_registries (h : Rounds relayStep st rs b) (hr : Registries st) :
    ∀ r ∈ rs, Registries r.1 := by
  induction h with
  | leave => simpa using hr
  | again hrun _ ih => exact List.forall_mem_cons.mpr ⟨hr, ih (relayStep_registries hrun hr)⟩

def Roomy (rs : List (Relay × Trace Ans)) : Prop :=
  ∀ pre r next post, rs = pre ++ r :: next :: post → RoomForParse r.1 r.2

theorem rounds_tracked (h : Rounds relayStep st rs b) (hr : Registries st) (ht : InStep st)
    (hroomy : Roomy rs) : ∀ r ∈ rs, InStep r.1 := by
  induction h with
  | leave => simpa using ht
  | @again st tr _ _ _ hrun hrest ih =>
    have hnext : RoomForParse st tr := by
      cases hrest with
      | leave => exact hroomy [] _ _ _ rfl
      | again => exact hroomy [] _ _ _ rfl
    refine List.forall_mem_cons.mpr ⟨ht, ih (relayStep_registries hrun hr)
      (relayStep_tracked hrun hr ht hnext) fun pre r next post he => ?_⟩
    exact hroomy (_ :: pre) r next post (by rw [he]; rfl)

end StatementBound

/-- In every run of a session, the buffer, the registries and their agreement are bounded exactly if
the client prepares a new statement only while fewer than the maximum are known. -/
theorem statements_bounded_iff [External] (dbName : Bytes) (lag : Int)
    (causal ast multiplex : Bool) (rs : List (Relay × Trace Ans)) (t : Trace Ans)
    (h : RelayRun dbName (.new lag causal ast) multiplex rs t) :
    (∀ r ∈ rs, StatementsBounded r.1) ↔ Roomy rs := by
  obtain ⟨st, hrounds, -⟩ := h
  obtain ⟨hreg, htracked⟩ := registries_init dbName lag causal ast multiplex
  have hregistries := rounds_registries hrounds hreg
  constructor
  · intro hbounded pre r next post hrs
    by_contra hroom
    have hrun := (hrounds.drop hrs).uncons.1
    have hmem : r ∈ rs := by simp [hrs]
    have hnext : next ∈ rs := by simp [hrs]
    apply relayStep_untracked hrun (hregistries r hmem) hroom
    exact (statementsBounded_iff (hregistries next hnext)).mp (hbounded next hnext)
  · intro hroomy r hm
    exact (statementsBounded_iff (hregistries r hm)).mpr
      (rounds_tracked hrounds hreg htracked hroomy r hm)

section Flood

variable [External] {st : Relay}

theorem runs_cleanup (st : Relay) : ∃ t, Runs (cleanup st) t () := by
  have hreader : ∃ t st', Runs (releaseReader st) t st' := by
    unfold releaseReader
    cases st.boundReader with
    | none => exact ⟨[], st, .ret⟩
    | some l =>
      obtain ⟨t, alive, h⟩ := runs_resetAndReleaseToPool l.conn (some l.pool)
      exact ⟨_, _, runs_bind.mpr ⟨t, alive, [], h, .ret, rfl⟩⟩
  have hwriter : ∃ t, Runs (releaseWriter st) t () := by
    unfold releaseWriter
    cases st.boundWriter with
    | none => exact ⟨[], .ret⟩
    | some l =>
      have hback : ∃ t alive, Runs (handBack st.connDirty l.conn (some l.pool)) t alive := by
        unfold handBack
        split
        · exact runs_resetAndReleaseToPool l.conn (some l.pool)
        · exact ⟨[⟨.release (some l.pool) l.conn, ()⟩], true, .call .ret⟩
      obtain ⟨t, alive, h⟩ := hback
      exact ⟨_, runs_bind.mpr ⟨t, alive, [], h, .ret, rfl⟩⟩
  obtain ⟨t₁, h₁⟩ := hwriter
  obtain ⟨t₂, st', h₂⟩ := hreader
  exact ⟨_, runs_bind.mpr ⟨t₁, (), _, h₁, runs_bind.mpr ⟨t₂, st', [], h₂, .ret, rfl⟩, rfl⟩⟩

def floodName (k : Nat) : Bytes := List.replicate k 'a'.toUInt8

def floodMessage (k : Nat) : Message := parseMessage (floodName k) (ascii "SELECT 1")

omit [External] in
theorem floodMessage_name (k : Nat) : (parseNameText (floodMessage k).payload).1 = floodName k := by
  have hnul : (0 : UInt8) ∉ floodName k := by
    intro hm
    exact absurd (List.eq_of_mem_replicate hm) (by decide)
  rw [parseNameText_name]
  simp only [floodMessage, parseMessage, buildParsePayload, List.append_assoc, List.cons_append]
  rw [cString_nul hnul]
  rfl

theorem runs_floodRound (k : Nat) (hs : st.synth.isSome) (hb : st.extBuf = []) :
    ∃ tr st', Runs (relayStep st) tr (.inl st') ∧ received tr = some (floodMessage k) ∧
      refused tr = false ∧ st'.synth.isSome ∧ st'.extBuf = [] ∧
      ∃ b, st'.session.stmtWrite = st.session.stmtWrite.insert (floodName k) b := by
  have hroom : st.extBuf.length < maxExtBufMessages := by
    rw [hb]
    decide
  obtain ⟨t, st', hrun, hm, hx, -, seen, hreg⟩ := runs_passedParse none hs hroom
    (show (floodMessage k).type = msgParse from rfl)
  refine ⟨t, st', hrun, hm, hx, ?_, ?_, ?_⟩
  · rw [hreg.synth, Option.isSome_map, hs]
  · rw [hreg.extBuf, if_pos hs, hb]
  · have hw := hreg.stmtWrite
    rw [floodMessage_name] at hw
    exact ⟨_, hw⟩

/-- A client that prepares `n` statements under new names can do so, and the session keeps them
all. -/
theorem runs_flood (n k : Nat) (hs : st.synth.isSome) (hb : st.extBuf = [])
    (hnew : ∀ name ∈ st.session.stmtWrite, name.length < k) :
    ∃ rs last, Rounds relayStep st rs last ∧ rs.length = n + 1 ∧
      (∀ r ∈ rs, ∀ msg, received r.2 = some msg → msg.type = msgParse) ∧
      ∃ r ∈ rs, r.1.synth.isSome ∧
        r.1.session.stmtWrite.keys.length = st.session.stmtWrite.keys.length + n := by
  induction n generalizing st k with
  | zero =>
    refine ⟨[(st, [⟨.ctxDone, false⟩, ⟨.readClient, .closed⟩])], st, .leave (.call (.call .ret)),
      rfl, ?_, (st, _), List.mem_singleton_self _, hs, rfl⟩
    intro r hr msg hm
    rw [List.mem_singleton.mp hr] at hm
    cases hm
  | succ n ih =>
    obtain ⟨tr, st', hrun, hm, -, hs', hb', v, hw⟩ := runs_floodRound k hs hb
    have hname : floodName k ∉ st.session.stmtWrite := by
      intro hk
      have := hnew _ hk
      simp [floodName] at this
    have hnew' : ∀ name ∈ st'.session.stmtWrite, name.length < k + 1 := by
      rw [hw]
      intro name hn
      rcases (AList.mem_insert _).mp hn with rfl | hn
      · simp [floodName]
      · exact (hnew name hn).trans (Nat.lt_succ_self k)
    obtain ⟨rs, last, hrounds, hlen, hparse, r, hr, hmux, hcount⟩ := ih (k + 1) hs' hb' hnew'
    refine ⟨(st, tr) :: rs, last, .again hrun hrounds, by rw [List.length_cons, hlen], ?_, r,
      .tail _ hr, hmux, ?_⟩
    · refine List.forall_mem_cons.mpr ⟨fun msg hm' => ?_, hparse⟩
      obtain rfl := Option.some.inj (hm.symm.trans hm')
      rfl
    · rw [hcount, hw, keys_length_insert_new hname]
      omega

theorem runs_floodRelay (n : Nat) : ∃ rs t,
    RelayRun [] (.new 0 false false) true rs t ∧ rs.length = n + 1 ∧
      (∀ r ∈ rs, ∀ msg, received r.2 = some msg → msg.type = msgParse) ∧
      ∃ r ∈ rs, r.1.synth.isSome ∧ r.1.session.stmtWrite.keys.length = n := by
  have hempty : ∀ name ∈ (Relay.init [] (.new 0 false false) true).session.stmtWrite,
      name.length < 0 := by
    intro name hn
    exact absurd hn (AList.notMem_empty name)
  obtain ⟨rs, last, hrounds, hlen, hparse, r, hr, hs, hcount⟩ := runs_flood n 0 rfl rfl hempty
  obtain ⟨t, ht⟩ := runs_cleanup last
  refine ⟨rs, t, ⟨last, hrounds, ht⟩, hlen, hparse, r, hr, hs, ?_⟩
  rw [hcount]
  exact Nat.zero_add n

end Flood

/-- A client that only prepares statements fills the session beyond the maximum, and the synthesizer
no longer has the text of a statement whose route the session has. -/
theorem flood_overflows : ∃ (_ : External) (rs : List (Relay × Trace Ans)) (t : Trace Ans),
    RelayRun [] (.new 0 false false) true rs t ∧
      (∀ r ∈ rs, ∀ msg, received r.2 = some msg → msg.type = msgParse) ∧
      ∃ r ∈ rs, r.1.session.stmtRoutes.keys.length = maxSynthStatements + 1 ∧
        (∃ synth name, r.1.synth = some synth ∧ name ∈ r.1.session.stmtRoutes ∧
          synth.getStatement name = none) ∧ ¬ StatementsBounded r.1 := by
  let _ := asciiExternal
  obtain ⟨rs, t, h, -, hparse, r, hr, hs, hcount⟩ := runs_floodRelay (maxSynthStatements + 1)
  refine ⟨asciiExternal, rs, t, h, hparse, r, hr, ?_⟩
  obtain ⟨last, hrounds, -⟩ := h
  have hreg := rounds_registries hrounds (registries_init _ _ _ _ _).1 r hr
  have hroutes : r.1.session.stmtRoutes.keys.length = maxSynthStatements + 1 := by
    rw [keys_length_eq hreg.names, hcount]
  obtain ⟨synth, hsynth⟩ := Option.isSome_iff_exists.mp hs
  refine ⟨hroutes, ?_, ?_⟩
  · have hbounded := (hreg.ordered synth hsynth).bounded
    obtain ⟨name, hname, hnone⟩ := exists_key_notMem (show synth.statements.keys.length <
      r.1.session.stmtRoutes.keys.length by omega)
    exact ⟨synth, name, hsynth, hname, AList.lookup_eq_none.mpr hnone⟩
  · intro hb
    have := hb.routes
    omega

/-- A client that prepares two statements stays within the bounds exactly if each Parse finds
room. -/
theorem two_parses_bounded_iff : ∃ (_ : External) (rs : List (Relay × Trace Ans)) (t : Trace Ans),
    RelayRun [] (.new 0 false false) true rs t ∧ rs.length = 3 ∧
      ((∀ r ∈ rs, StatementsBounded r.1) ↔ Roomy rs) := by
  let _ := asciiExternal
  obtain ⟨rs, t, h, hlen, -⟩ := runs_floodRelay 2
  exact ⟨asciiExternal, rs, t, h, hlen, statements_bounded_iff [] 0 false false true rs t h⟩

end Pgmux
