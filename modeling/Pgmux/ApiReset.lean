import Pgmux.PoolUsers
import Pgmux.Script

namespace Pgmux

open Interaction

section

variable [External]

def untilReady : Trace Ans → Option (List Message × Message)
  | ⟨.read _, x⟩ :: t =>
    match accepted x with
    | none => none
    | some m =>
      if m.type = msgReadyForQuery then some ([], m)
      else (untilReady t).map fun a => (m :: a.1, a.2)
  | _ => none

def resetAnswer : Trace Ans → Option (List Message × Message)
  | ⟨.config, _⟩ :: ⟨.write _ _, true⟩ :: t => untilReady t
  | ⟨.config, _⟩ :: _ => none
  | _ :: t => resetAnswer t
  | [] => none

/-- The rows that are read before the result of the query ends. -/
def resultRows : Trace Ans → List Message
  | ⟨.read _, x⟩ :: t =>
    match accepted x with
    | none => []
    | some m =>
      if endsResult m then [] else if m.type = msgDataRow then m :: resultRows t else resultRows t
  | _ :: t => resultRows t
  | [] => []

/-- No column of a row has a length below -1. -/
def RowsDecode (tr : Trace Ans) : Prop := ∀ m ∈ resultRows tr, ¬ NegativeLength m.payload

def CleanAnswer (a : List Message × Message) : Prop :=
  (∀ m ∈ a.1, m.type ≠ msgErrorResponse) ∧ a.2.payload = ['I'.toUInt8]

def Released (p : PoolId) (c : ConnId) (tr : Trace Ans) : Prop :=
  ⟨.release (some p) c, ()⟩ ∈ tr

def Discarded (p : PoolId) (c : ConnId) (tr : Trace Ans) : Prop :=
  ⟨.discard (some p) c, ()⟩ ∈ tr

def Cancelled (tr : Trace Ans) : Prop := ⟨.ctxDone, true⟩ ∈ tr

/-- The proxy's reset, up to the call that hands the connection back, is how the reset in the other
run begins. -/
def SameReset (tr reset : Trace Ans) : Prop :=
  reset.dropLast <+: tr.dropWhile fun e => decide (e.1 ≠ .config)

/-- A connection is handed back only when it is clean and is closed otherwise. -/
structure CleanReturn (p : PoolId) (c : ConnId) (tr : Trace Ans) : Prop where
  released : Released p c tr → ∃ a, resetAnswer tr = some a ∧ CleanAnswer a
  discarded : (∀ a, resetAnswer tr = some a → ¬ CleanAnswer a) → Discarded p c tr
  asProxy : ¬ Cancelled tr → ∀ reset ok, Runs (resetAndReleaseToPool c (some p)) reset ok →
    SameReset tr reset → (Released p c tr ↔ Released p c reset)

def reads (c : ConnId) (ms : List Message) : Trace Ans := ms.map fun m => ⟨.read c, some m⟩

theorem reads_append (c : ConnId) (ms ms' : List Message) :
    reads c (ms ++ ms') = reads c ms ++ reads c ms' :=
  List.map_append

theorem untilReady_reads {ms : List Message}
    (hms : ∀ m ∈ ms, accepted (some m) = some m ∧ m.type ≠ msgReadyForQuery) (t : Trace Ans) :
    untilReady (reads c ms ++ t) = (untilReady t).map fun a => (ms ++ a.1, a.2) := by
  induction ms with
  | nil => simp [reads]
  | cons m ms ih =>
    obtain ⟨ha, hm⟩ := hms m (.head _)
    have ih := ih fun m h => hms m (.tail _ h)
    change untilReady (⟨.read c, some m⟩ :: (reads c ms ++ t)) = _
    simp only [untilReady, ha, if_neg hm, ih, Option.map_map]
    rfl

theorem readLoop_runs {body : Unit → Proc (Unit ⊕ Bool)} {f : Message → Unit ⊕ Bool}
    (hbody : ∀ t x, Runs (body ()) t x →
      (∃ m, accepted (some m) = some m ∧ t = [⟨.read c, some m⟩] ∧ x = f m) ∨
        ∃ y, accepted y = none ∧ t = [⟨.read c, y⟩] ∧ x = .inr false)
    (h : Runs (iterate body ()) tr ok) :
    ∃ ms, (∀ m ∈ ms, accepted (some m) = some m ∧ f m = .inl ()) ∧
      ((∃ r, accepted (some r) = some r ∧ f r = .inr ok ∧
          tr = reads c ms ++ [⟨.read c, some r⟩]) ∨
        ok = false ∧ ∃ y, accepted y = none ∧ tr = reads c ms ++ [⟨.read c, y⟩]) := by
  obtain ⟨_, t, t', ⟨ms, hms, rfl⟩, hb, rfl⟩ :=
    h.of_iterate (I := fun _ t => ∃ ms, (∀ m ∈ ms, accepted (some m) = some m ∧ f m = .inl ()) ∧
        t = reads c ms)
      ⟨[], by simp, rfl⟩ (by
        rintro _ _ t' _ ⟨ms, hms, rfl⟩ hb
        obtain ⟨m, ha, rfl, hx⟩ | ⟨_, -, -, hx⟩ := hbody t' _ hb
        · refine ⟨ms ++ [m], ?_, (reads_append c ms [m]).symm⟩
          intro x hmem
          rcases List.mem_append.mp hmem with hmem | hmem
          · exact hms x hmem
          · rw [List.mem_singleton.mp hmem, ← hx]
            exact ⟨ha, rfl⟩
        · cases hx)
  refine ⟨ms, hms, ?_⟩
  obtain ⟨r, ha, rfl, hr⟩ | ⟨y, hy, rfl, hr⟩ := hbody t' _ hb
  · exact .inl ⟨r, ha, hr.symm, rfl⟩
  · cases hr
    exact .inr ⟨rfl, y, hy, rfl⟩

theorem drainUntilReady_ready (h : Runs (drainUntilReady c) tr ok) (t : Trace Ans) :
    (untilReady (tr ++ t)).isSome = ok := by
  obtain ⟨ms, hms, hend⟩ := readLoop_runs (c := c)
    (f := fun m => if m.type = msgReadyForQuery then .inr true else .inl ()) (by
      intro t x hb
      rw [runs_perform_bind] at hb
      obtain ⟨y, t', hb, rfl⟩ := hb
      rcases accepted_cases y with hy | ⟨m, rfl, hy⟩ <;> simp only [hy] at hb
      · obtain ⟨rfl, rfl⟩ := runs_pure.mp hb
        exact .inr ⟨y, hy, rfl, rfl⟩
      · obtain ⟨rfl, rfl⟩ := runs_pure.mp hb
        exact .inl ⟨m, hy, rfl, rfl⟩) h
  have hms : ∀ m ∈ ms, accepted (some m) = some m ∧ m.type ≠ msgReadyForQuery := by
    intro m hm
    refine ⟨(hms m hm).1, fun hr => ?_⟩
    have := (hms m hm).2
    rw [if_pos hr] at this
    cases this
  rcases hend with ⟨r, ha, hr, rfl⟩ | ⟨rfl, y, hy, rfl⟩
  · split at hr
    · rename_i hready
      cases hr
      rw [List.append_assoc, untilReady_reads hms]
      simp [untilReady, ha, hready]
    · cases hr
  · rw [List.append_assoc, untilReady_reads hms]
    simp [untilReady, hy]

def resetStep (m : Message) : Unit ⊕ Bool :=
  if m.type = msgErrorResponse then .inr false
  else if m.type = msgReadyForQuery then .inr true else .inl ()

omit [External] in
theorem resetStep_go (h : resetStep m = .inl ()) :
    m.type ≠ msgErrorResponse ∧ m.type ≠ msgReadyForQuery := by
  unfold resetStep at h
  split at h
  · cases h
  · split at h
    · cases h
    · exact ⟨by assumption, by assumption⟩

omit [External] in
theorem resetStep_stop (h : resetStep m = .inr ok) :
    ok = true ∧ m.type = msgReadyForQuery ∨ ok = false ∧ m.type = msgErrorResponse := by
  unfold resetStep at h
  split at h
  · cases h
    exact .inr ⟨rfl, by assumption⟩
  · split at h
    · cases h
      exact .inl ⟨rfl, by assumption⟩
    · cases h

theorem resetRound_runs (h : Runs (drainRound c (fun _ => ()) (fun _ => true) false) t x) :
    (∃ m, accepted (some m) = some m ∧ t = [⟨.read c, some m⟩] ∧ x = resetStep m) ∨
      ∃ y, accepted y = none ∧ t = [⟨.read c, y⟩] ∧ x = .inr false := by
  unfold drainRound at h
  rw [runs_perform_bind] at h
  obtain ⟨y, t', h, rfl⟩ := h
  rcases accepted_cases y with hy | ⟨m, rfl, hy⟩ <;> simp only [hy] at h
  · obtain ⟨rfl, rfl⟩ := runs_pure.mp h
    exact .inr ⟨y, hy, rfl, rfl⟩
  · left
    refine ⟨m, hy, ?_⟩
    unfold resetStep
    split at h
    · obtain ⟨rfl, rfl⟩ := runs_pure.mp h
      rw [if_pos (by assumption)]
      exact ⟨rfl, rfl⟩
    rw [if_neg (by assumption)]
    split at h
    · obtain ⟨rfl, rfl⟩ := runs_pure.mp h
      rw [if_pos (by assumption)]
      exact ⟨rfl, rfl⟩
    · obtain ⟨rfl, rfl⟩ := runs_pure.mp h
      rw [if_neg (by assumption)]
      exact ⟨rfl, rfl⟩

theorem resetConn_runs (h : Runs (resetConn c) tr ok) :
    ∃ cfg, (ok = false ∧
        tr = [⟨.config, cfg⟩, ⟨.write c (queryMessage cfg.resetQuery), false⟩]) ∨
      ∃ ms, (∀ m ∈ ms, accepted (some m) = some m ∧ m.type ≠ msgErrorResponse ∧
          m.type ≠ msgReadyForQuery) ∧
        ∃ x, tr = ⟨.config, cfg⟩ :: ⟨.write c (queryMessage cfg.resetQuery), true⟩ ::
            (reads c ms ++ [⟨.read c, x⟩]) ∧
          (ok = true ∧ (∃ r, accepted x = some r ∧ r.type = msgReadyForQuery) ∨
            ok = false ∧ ((∃ e, accepted x = some e ∧ e.type = msgErrorResponse) ∨
              accepted x = none)) := by
  unfold resetConn at h
  rw [runs_perform_bind] at h
  obtain ⟨cfg, t, h, rfl⟩ := h
  refine ⟨cfg, ?_⟩
  rw [if_neg cfg.resetQuery_ne, runs_perform_bind] at h
  obtain ⟨sent, t, h, rfl⟩ := h
  cases sent with
  | false =>
    obtain ⟨rfl, rfl⟩ := runs_pure.mp h
    exact .inl ⟨rfl, rfl⟩
  | true =>
    refine .inr ?_
    obtain ⟨ms, hms, hend⟩ := readLoop_runs (fun _ _ => resetRound_runs) h
    refine ⟨ms, fun m hm => ⟨(hms m hm).1, resetStep_go (hms m hm).2⟩, ?_⟩
    rcases hend with ⟨r, ha, hr, rfl⟩ | ⟨rfl, y, hy, rfl⟩
    · refine ⟨some r, rfl, ?_⟩
      rcases resetStep_stop hr with ⟨rfl, hready⟩ | ⟨rfl, he⟩
      · exact .inl ⟨rfl, r, ha, hready⟩
      · exact .inr ⟨rfl, .inl ⟨r, ha, he⟩⟩
    · exact ⟨y, rfl, .inr ⟨rfl, .inr hy⟩⟩

theorem resetAndReleaseToPool_runs (h : Runs (resetAndReleaseToPool c (some p)) tr ok) :
    ∃ done t, Runs (resetConn c) t done ∧
      tr = t ++ [if done then ⟨.release (some p) c, ()⟩ else ⟨.discard (some p) c, ()⟩] := by
  unfold resetAndReleaseToPool at h
  rw [runs_bind] at h
  obtain ⟨t₁, done, t₂, h₁, h, rfl⟩ := h
  refine ⟨done, t₁, h₁, ?_⟩
  cases done with
  | true =>
    simp only [if_true, releaseToPool] at h
    rw [runs_perform_bind] at h
    obtain ⟨_, t, h, rfl⟩ := h
    obtain ⟨rfl, -⟩ := runs_pure.mp h
    rfl
  | false =>
    simp only [Bool.false_eq_true, if_false, discardToPool] at h
    rw [runs_perform_bind] at h
    obtain ⟨_, t, h, rfl⟩ := h
    obtain ⟨rfl, -⟩ := runs_pure.mp h
    rfl

def Op.isUse : Op → Prop
  | .config => False
  | .ctxDone => False
  | .acquire _ => False
  | .release _ _ => False
  | .discard _ _ => False
  | _ => True

def Uses (t : Trace Ans) : Prop := ∀ e ∈ t, e.1.isUse

/-- How a run ends: with a panic, before the reset, at a reset that is not sent, or after its
answer. -/
inductive ApiEnd (p : PoolId) (c : ConnId) : Trace Ans → Prop
  | panicked : Uses t → ¬ RowsDecode t → ApiEnd p c (⟨.acquire p, some c⟩ :: t)
  | stopped : Uses t → (∀ u, resultRows u = [] → RowsDecode (t ++ u)) →
      ApiEnd p c (⟨.acquire p, some c⟩ :: (t ++ [⟨.ctxDone, cancelled⟩, ⟨.discard (some p) c, ()⟩]))
  | unsent : Uses t → (∀ u, RowsDecode (t ++ u)) →
      ApiEnd p c (⟨.acquire p, some c⟩ :: (t ++ [⟨.ctxDone, false⟩, ⟨.config, cfg⟩,
        ⟨.write c (queryMessage cfg.resetQuery), false⟩, ⟨.discard (some p) c, ()⟩]))
  | answered : Uses t → (∀ u, RowsDecode (t ++ u)) → Runs (drainUntilReady c) t' drained →
      ApiEnd p c (⟨.acquire p, some c⟩ :: (t ++ ⟨.ctxDone, false⟩ :: ⟨.config, cfg⟩ ::
        ⟨.write c (queryMessage cfg.resetQuery), true⟩ :: (t' ++ [⟨.ctxDone, cancelled⟩,
          if drained = true ∧ cancelled = false then ⟨.release (some p) c, ()⟩
          else ⟨.discard (some p) c, ()⟩])))

theorem Footprint.uses {q : Proc α} (h : Footprint ks q)
    (hs : ks.all (fun k => !([.look, .ctx, .pool, .give].contains k)))
    (hr : Runs q tr a) : Uses tr :=
  h.avoids _ hs (fun o ho => by cases o <;> trivial) tr a hr

theorem parseDataRow_panics (payload : Bytes) (columns : List ColumnInfo) :
    (Sliced.parseDataRow payload columns).toOption = none ↔ NegativeLength payload := by
  rw [← parseDataRow_outOfRange payload columns]
  rcases Sliced.parseDataRow payload columns with (e | _) | _
  · cases e
  · simp [Except.toOption]
  · simp [Except.toOption]

theorem add_eq_none {r : Received} :
    r.add m = none ↔ m.type = msgDataRow ∧ NegativeLength m.payload := by
  unfold Received.add
  split
  · rename_i hd
    obtain ⟨cols, hc⟩ := parseRowDescription_ok m.payload
    have hne : msgRowDescription ≠ msgDataRow := by decide
    simp [hc, Except.toOption, hd, hne]
  split
  · rename_i hd
    simp [parseDataRow_panics, hd]
  · simp [*]

theorem resultRows_row (ha : accepted (some m) = some m) (he : endsResult m = false)
    (t : Trace Ans) : resultRows (⟨.read c, some m⟩ :: t) =
      (if m.type = msgDataRow then [m] else []) ++ resultRows t := by
  simp only [resultRows, ha, he, Bool.false_eq_true, if_false]
  split <;> rfl

/-- The rows that a loop has decoded so far. -/
def Decoding (t : Trace Ans) : Prop :=
  ∃ rows : List Message, (∀ m ∈ rows, ¬ NegativeLength m.payload) ∧
    ∀ u, resultRows (t ++ u) = rows ++ resultRows u

theorem Decoding.rows (h : Decoding t) (hu : resultRows u = []) : RowsDecode (t ++ u) := by
  obtain ⟨rows, hrows, he⟩ := h
  simpa [RowsDecode, he, hu] using hrows

theorem readResponse_rows (h : Runs (readResponse c) tr r) :
    (r = .panicked ∧ ¬ RowsDecode tr) ∨ r ≠ .panicked ∧ ∀ u, RowsDecode (tr ++ u) := by
  obtain ⟨f, hf, hround⟩ := readResponse_rounds c
  rw [hf] at h
  obtain ⟨s, t, t', hI, hb, rfl⟩ := h.of_iterate (I := fun _ t => Decoding t)
    ⟨[], by simp, fun _ => rfl⟩ (by
      rintro s t t' s' ⟨rows, hrows, he⟩ hb
      generalize hx : Sum.inl s' = x at hb
      cases hround _ _ _ hb with
      | done => cases hx
      | panicked => cases hx
      | failed => cases hx
      | @more m _ ha hend hadd =>
        have hm : m.type = msgDataRow → ¬ NegativeLength m.payload := by
          intro hd hn
          rw [add_eq_none.mpr ⟨hd, hn⟩] at hadd
          cases hadd
        refine ⟨rows ++ if m.type = msgDataRow then [m] else [], ?_, fun u => ?_⟩
        · intro m' hm'
          rcases List.mem_append.mp hm' with h' | h'
          · exact hrows m' h'
          · split at h'
            · obtain rfl := List.mem_singleton.mp h'
              exact hm ‹_›
            · cases h'
        · rw [List.append_assoc, he, List.singleton_append, resultRows_row ha hend,
            List.append_assoc])
  generalize hx : Sum.inr r = x at hb
  cases hround _ _ _ hb with
  | more => cases hx
  | @done m ha hm =>
    cases hx
    refine .inr ⟨by simp, fun u => ?_⟩
    rw [List.append_assoc]
    exact hI.rows (by simp [resultRows, ha, endsResult, hm])
  | @panicked m ha hend hadd =>
    cases hx
    refine .inl ⟨rfl, fun hrows => ?_⟩
    obtain ⟨hd, hn⟩ := add_eq_none.mp hadd
    obtain ⟨rows, -, he⟩ := hI
    refine hrows m ?_ hn
    rw [he, resultRows_row ha hend, if_pos hd]
    simp
  | @failed y _ hy =>
    cases hx
    refine .inr ⟨by simp, fun u => ?_⟩
    rw [List.append_assoc]
    apply hI.rows
    cases hay : accepted y with
    | none => simp [resultRows, hay]
    | some m => simp [resultRows, hay, hy m hay]

theorem executeQuery_rows (h : Runs (executeQuery c sql) tr r) :
    (r = .panicked ∧ ¬ RowsDecode tr) ∨
      r ≠ .panicked ∧ ∀ u, r.isDone ∨ resultRows u = [] → RowsDecode (tr ++ u) := by
  unfold executeQuery at h
  split at h
  · exact (readResponse_rows h).imp_right fun h => ⟨h.1, fun u _ => h.2 u⟩
  · rw [runs_perform_bind] at h
    obtain ⟨sent, t, h, rfl⟩ := h
    cases sent with
    | true => exact (readResponse_rows h).imp_right fun h => ⟨h.1, fun u _ => h.2 u⟩
    | false =>
      obtain ⟨rfl, rfl⟩ := runs_pure.mp h
      refine .inr ⟨nofun, fun u hu => ?_⟩
      have hu : resultRows u = [] := hu.resolve_left nofun
      simp [RowsDecode, resultRows, hu]

theorem executeOnPool_end (h : Runs (executeOnPool sql p) tr r) :
    tr = [⟨.acquire p, none⟩] ∨ ∃ c, ApiEnd p c tr := by
  have hrows {c t ms} (h₁ : Runs (executeQuery c sql) t (.done ms)) (u : Trace Ans) :
      RowsDecode (t ++ u) :=
    ((executeQuery_rows h₁).resolve_left nofun).2 u (.inl rfl)
  cases executeOnPool_ways h with
  | refused => exact .inl rfl
  | panicked h₁ =>
    refine .inr ⟨_, .panicked (executeQuery_foot.uses rfl h₁) ?_⟩
    exact ((executeQuery_rows h₁).resolve_right fun h => h.1 rfl).2
  | stopped hr h₁ =>
    refine .inr ⟨_, .stopped (executeQuery_foot.uses rfl h₁) fun u hu => ?_⟩
    refine ((executeQuery_rows h₁).resolve_left fun h => ?_).2 u (.inr hu)
    rcases hr with ⟨-, hr⟩ | hr
    · exact hr h.1
    · cases h.1.symm.trans hr
  | unsent h₁ => exact .inr ⟨_, .unsent (executeQuery_foot.uses rfl h₁) (hrows h₁)⟩
  | answered h₁ h₂ => exact .inr ⟨_, .answered (executeQuery_foot.uses rfl h₁) (hrows h₁) h₂⟩

theorem resetAnswer_skip {e : Sigma Ans} (he : e.1 ≠ .config) (t : Trace Ans) :
    resetAnswer (e :: t) = resetAnswer t := by
  obtain ⟨o, x⟩ := e
  cases o <;> first | exact absurd rfl he | rfl

theorem Uses.resetAnswer (h : Uses t) (u : Trace Ans) :
    resetAnswer (t ++ u) = Pgmux.resetAnswer u := by
  induction t with
  | nil => rfl
  | cons e t ih =>
    have he : e.1 ≠ .config := fun hc => by
      have := h e (.head _)
      rw [hc] at this
      exact this
    rw [List.cons_append, resetAnswer_skip he, ih fun e he => h e (.tail _ he)]

theorem Uses.dropWhile (h : Uses t) (u : Trace Ans) :
    (t ++ u).dropWhile (fun e => decide (e.1 ≠ .config)) =
      u.dropWhile fun e => decide (e.1 ≠ .config) := by
  apply List.dropWhile_append_of_pos
  intro e he
  have hu := h e he
  apply decide_eq_true
  intro hc
  rw [hc] at hu
  exact hu

theorem Uses.not_mem (h : Uses t) {e : Sigma Ans} (he : ¬ e.1.isUse) : e ∉ t :=
  fun hm => he (h e hm)

theorem resetAndReleaseToPool_released (h : Runs (resetAndReleaseToPool c (some p)) tr ok) :
    ∃ done, Runs (resetConn c) tr.dropLast done ∧ (Released p c tr ↔ done = true) := by
  obtain ⟨done, t, hreset, rfl⟩ := resetAndReleaseToPool_runs h
  refine ⟨done, by rwa [List.dropLast_concat], ?_⟩
  have hno : ⟨.release (some p) c, ()⟩ ∉ t := by
    obtain ⟨cfg, ⟨-, rfl⟩ | ⟨ms, -, x, rfl, -⟩⟩ := resetConn_runs hreset
    · simp
    · simp [reads]
  cases done <;> simp [Released, hno]

theorem resetConn_unsent (h : Runs (resetConn c) t done)
    (ht : t <+: ⟨.config, cfg⟩ :: ⟨.write c (queryMessage cfg.resetQuery), false⟩ :: u) :
    done = false := by
  obtain ⟨cfg', ⟨hd, -⟩ | ⟨ms, -, x, rfl, -⟩⟩ := resetConn_runs h
  · exact hd
  · obtain ⟨hcfg, ht⟩ := List.cons_prefix_cons.mp ht
    cases hcfg
    cases (List.cons_prefix_cons.mp ht).1

theorem resetConn_answered (h : Runs (resetConn c) t done)
    (ht : t <+: ⟨.config, cfg⟩ :: ⟨.write c (queryMessage cfg.resetQuery), true⟩ :: u)
    (hclean : ∀ a, untilReady u = some a → CleanAnswer a) :
    done = (untilReady u).isSome := by
  obtain ⟨cfg', ⟨-, rfl⟩ | ⟨ms, hms, x, rfl, hx⟩⟩ := resetConn_runs h
  · obtain ⟨hcfg, ht⟩ := List.cons_prefix_cons.mp ht
    cases hcfg
    cases (List.cons_prefix_cons.mp ht).1
  obtain ⟨v, rfl⟩ := (List.cons_prefix_cons.mp (List.cons_prefix_cons.mp ht).2).2
  rw [List.append_assoc] at hclean ⊢
  rw [untilReady_reads fun m hm => ⟨(hms m hm).1, (hms m hm).2.2⟩] at hclean ⊢
  rcases hx with ⟨rfl, r, ha, hr⟩ | ⟨rfl, ⟨e, ha, he⟩ | ha⟩
  · simp [untilReady, ha, hr]
  · -- A complete answer would contain the ErrorResponse.
    have hne : e.type ≠ msgReadyForQuery := by
      rw [he]
      decide
    simp only [List.singleton_append, untilReady, ha, if_neg hne] at hclean ⊢
    cases hv : untilReady v with
    | none => rfl
    | some a =>
      rw [hv] at hclean
      exact absurd he ((hclean _ rfl).1 e (by simp))
  · simp [untilReady, ha]

theorem ApiEnd.conn (h : ApiEnd p c tr) (hc : ⟨.acquire p, some c'⟩ ∈ tr) : c' = c := by
  have hno : ¬ Op.isUse (.acquire p) := id
  cases h with
  | panicked ht =>
    have := ht.not_mem (e := ⟨.acquire p, some c'⟩) hno
    simpa [this] using hc
  | stopped ht =>
    have := ht.not_mem (e := ⟨.acquire p, some c'⟩) hno
    simpa [this] using hc
  | unsent ht =>
    have := ht.not_mem (e := ⟨.acquire p, some c'⟩) hno
    simpa [this] using hc
  | answered ht _ ht' =>
    have := ht.not_mem (e := ⟨.acquire p, some c'⟩) hno
    have h' := (drainUntilReady_foot.uses rfl ht').not_mem (e := ⟨.acquire p, some c'⟩) hno
    split at hc
    · simpa [this, h'] using hc
    · simpa [this, h'] using hc

theorem CleanReturn.of_discarded (hrel : ¬ Released p c tr) (hdis : Discarded p c tr)
    (hproxy : ∀ t done, Runs (resetConn c) t done →
      t <+: tr.dropWhile (fun e => decide (e.1 ≠ .config)) → done = false) :
    CleanReturn p c tr where
  released hr := absurd hr hrel
  discarded _ := hdis
  asProxy _ reset _ hreset hsame := by
    obtain ⟨done, hdone, hiff⟩ := resetAndReleaseToPool_released hreset
    rw [hproxy _ _ hdone hsame] at hiff
    simp [hiff, hrel]

theorem resetConn_ne_nil (h : Runs (resetConn c) t done) : t ≠ [] := by
  obtain ⟨cfg, ⟨-, rfl⟩ | ⟨ms, -, x, rfl, -⟩⟩ := resetConn_runs h
  · simp
  · simp

theorem answered_clean_iff (ht : Uses t) (hd : Runs (drainUntilReady c) t' drained)
    (htr : tr = ⟨.acquire p, some c⟩ :: (t ++ ⟨.ctxDone, false⟩ :: ⟨.config, cfg⟩ ::
      ⟨.write c (queryMessage cfg.resetQuery), true⟩ :: (t' ++ [⟨.ctxDone, cancelled⟩,
        if drained = true ∧ cancelled = false then ⟨.release (some p) c, ()⟩
        else ⟨.discard (some p) c, ()⟩]))) :
    CleanReturn p c tr ↔ (¬ Cancelled tr → ∀ a, resetAnswer tr = some a → CleanAnswer a) := by
  have ht' := drainUntilReady_foot.uses rfl hd
  have hanswer : (resetAnswer tr).isSome = drained := by
    rw [htr, resetAnswer_skip (by simp), ht.resetAnswer, resetAnswer_skip (by simp)]
    exact drainUntilReady_ready hd _
  have hreleased : Released p c tr ↔ drained = true ∧ cancelled = false := by
    have h := ht.not_mem (e := ⟨.release (some p) c, ()⟩) id
    have h' := ht'.not_mem (e := ⟨.release (some p) c, ()⟩) id
    rw [htr, Released]
    split <;> simp [*]
  have hcancelled : Cancelled tr ↔ cancelled = true := by
    have h := ht.not_mem (e := ⟨.ctxDone, true⟩) id
    have h' := ht'.not_mem (e := ⟨.ctxDone, true⟩) id
    rw [htr, Cancelled]
    split <;> simp [h, h']
  have hdiscarded (hn : ¬ (drained = true ∧ cancelled = false)) : Discarded p c tr := by
    rw [htr, if_neg hn, Discarded]
    simp
  constructor
  · intro h hc a ha
    have hdr : drained = true := by rw [← hanswer, ha, Option.isSome_some]
    have hca : cancelled = false := by simpa [hcancelled] using hc
    obtain ⟨a', ha', hclean⟩ := h.released (hreleased.mpr ⟨hdr, hca⟩)
    cases ha.symm.trans ha'
    exact hclean
  · intro h
    constructor
    · intro hr
      obtain ⟨hdr, hca⟩ := hreleased.mp hr
      rw [← hanswer] at hdr
      obtain ⟨a, ha⟩ := Option.isSome_iff_exists.mp hdr
      exact ⟨a, ha, h (by simp [hcancelled, hca]) a ha⟩
    · intro hno
      apply hdiscarded
      rintro ⟨hdr, hca⟩
      rw [← hanswer] at hdr
      obtain ⟨a, ha⟩ := Option.isSome_iff_exists.mp hdr
      exact hno a ha (h (by simp [hcancelled, hca]) a ha)
    · intro hc reset ok hreset hsame
      obtain ⟨done, hdone, hiff⟩ := resetAndReleaseToPool_released hreset
      have hca : cancelled = false := by simpa [hcancelled] using hc
      have hclean := h hc
      rw [htr, resetAnswer_skip (by simp), ht.resetAnswer, resetAnswer_skip (by simp)] at hclean
      rw [SameReset, htr, List.dropWhile_cons_of_pos (by simp), ht.dropWhile,
        List.dropWhile_cons_of_pos (by simp), List.dropWhile_cons_of_neg (by simp)] at hsame
      have hagree := resetConn_answered hdone hsame hclean
      rw [drainUntilReady_ready hd] at hagree
      rw [hreleased, hiff, hagree]
      simp [hca]

/-- The Data API hands back only clean connections exactly when every row of the result can be
decoded and no answer to its reset query that is read to the end has an ErrorResponse or leaves a
transaction open. -/
theorem executeOnPool_clean_iff (h : Runs (executeOnPool sql p) tr r)
    (hc : ⟨.acquire p, some c⟩ ∈ tr) :
    CleanReturn p c tr ↔ RowsDecode tr ∧
      (¬ Cancelled tr → ∀ a, resetAnswer tr = some a → CleanAnswer a) := by
  rcases executeOnPool_end h with rfl | ⟨c', hend⟩
  · simp at hc
  obtain rfl := hend.conn hc
  cases hend with
  | panicked ht hrows =>
    -- nobody hands the connection back
    have hdis := ht.not_mem (e := ⟨.discard (some p) c, ()⟩) id
    refine iff_of_false (fun hclean => ?_) fun h => hrows h.1
    have hd := hclean.discarded fun a ha => by
      have hnone := ht.resetAnswer []
      rw [List.append_nil] at hnone
      rw [resetAnswer_skip (by simp), hnone] at ha
      cases ha
    simp [Discarded, hdis] at hd
  | stopped ht hrows =>
    have hrel := ht.not_mem (e := ⟨.release (some p) c, ()⟩) id
    refine iff_of_true ?_ ⟨hrows _ rfl, fun _ a ha => ?_⟩
    · refine .of_discarded (by simp [Released, hrel]) (by simp [Discarded]) ?_
      intro t done hreset hpre
      rw [List.dropWhile_cons_of_pos (by simp), ht.dropWhile] at hpre
      exact absurd (List.prefix_nil.mp hpre) (resetConn_ne_nil hreset)
    · rw [resetAnswer_skip (by simp), ht.resetAnswer] at ha
      cases ha
  | unsent ht hrows =>
    have hrel := ht.not_mem (e := ⟨.release (some p) c, ()⟩) id
    refine iff_of_true ?_ ⟨hrows _, fun _ a ha => ?_⟩
    · refine .of_discarded (by simp [Released, hrel]) (by simp [Discarded]) ?_
      intro t done hreset hpre
      rw [List.dropWhile_cons_of_pos (by simp), ht.dropWhile,
        List.dropWhile_cons_of_pos (by simp), List.dropWhile_cons_of_neg (by simp)] at hpre
      exact resetConn_unsent hreset hpre
    · rw [resetAnswer_skip (by simp), ht.resetAnswer] at ha
      cases ha
  | answered ht hrows hd =>
    rw [answered_clean_iff ht hd rfl]
    exact (and_iff_right (hrows _)).symm

end

def oneRow : Message := ⟨msgDataRow, [0, 1, 0, 0, 0, 1, 'x'.toUInt8]⟩

/-- A request with a row whose reset is answered, with the connection released. -/
theorem executeOnPool_clean_iff_reset : ∃ (_ : External) (tr : Trace Ans) (r : _),
    Runs (executeOnPool (ascii "SELECT 1") 1) tr r ∧ resultRows tr = [oneRow] ∧
      CleanReturn 1 7 tr ∧ Released 1 7 tr := by
  let _ := asciiExternal
  refine ⟨asciiExternal, ?_⟩
  obtain ⟨r, tr, h, hc⟩ := Script.run_check (n := 60)
    (p := executeOnPool (ascii "SELECT 1") 1)
    (s := Script.simple [] [oneRow, readyMessage, readyMessage])
    (f := fun _ tr => decide (answers (.acquire 1) tr = [some 7] ∧
      answers (.release (some 1) 7) tr ≠ [] ∧ resetAnswer tr = some ([], readyMessage) ∧
      resultRows tr = [oneRow]))
    (by decide +kernel)
  obtain ⟨ha, hr, hclean, hrows⟩ := of_decide_eq_true hc
  have hrow : ¬ NegativeLength oneRow.payload := by
    rw [← parseDataRow_panics oneRow.payload []]
    decide +kernel
  refine ⟨tr, r, h, hrows, ?_, ?_⟩
  · apply (executeOnPool_clean_iff h _).mpr
    · refine ⟨by simpa [RowsDecode, hrows] using hrow, fun _ a hr => ?_⟩
      cases hclean.symm.trans hr
      exact ⟨by simp, rfl⟩
    · apply mem_answers.mp
      rw [ha]
      simp
  · obtain ⟨u, hu⟩ := List.exists_mem_of_ne_nil _ hr
    exact mem_answers.mp hu

/-- The reset query fails, and the connection is released all the same. -/
theorem executeOnPool_releases_failed_reset : ∃ (_ : External) (tr : Trace Ans) (r : _),
    Runs (executeOnPool (ascii "SELECT 1") 1) tr r ∧ ⟨.acquire 1, some 7⟩ ∈ tr ∧
      resetAnswer tr = some ([errorMessage], readyMessage) ∧ Released 1 7 tr ∧
      ¬ CleanReturn 1 7 tr := by
  let _ := asciiExternal
  refine ⟨asciiExternal, ?_⟩
  obtain ⟨r, tr, h, hc⟩ := Script.run_check (n := 60)
    (p := executeOnPool (ascii "SELECT 1") 1)
    (s := Script.simple [] [readyMessage, errorMessage, readyMessage])
    (f := fun _ tr => decide (answers (.acquire 1) tr = [some 7] ∧
      answers (.release (some 1) 7) tr ≠ [] ∧
      resetAnswer tr = some ([errorMessage], readyMessage)))
    (by decide +kernel)
  obtain ⟨ha, hr, hanswer⟩ := of_decide_eq_true hc
  obtain ⟨u, hu⟩ := List.exists_mem_of_ne_nil _ hr
  have hreleased : Released 1 7 tr := mem_answers.mp hu
  refine ⟨tr, r, h, mem_answers.mp (by rw [ha]; simp), hanswer, hreleased, ?_⟩
  intro hclean
  obtain ⟨a, ha, hok⟩ := hclean.released hreleased
  cases hanswer.symm.trans ha
  exact hok.1 errorMessage (by simp) rfl

end Pgmux
