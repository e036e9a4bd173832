import Pgmux.Statements

namespace Pgmux

open Interaction

/-- What a client has prepared: the texts of its statements and of the statements that its portals
were bound to. -/
structure View where
  stmts : Bytes → Option Bytes
  portals : Bytes → Option Bytes

def View.empty : View := ⟨fun _ => none, fun _ => none⟩

theorem parseNameText_name (payload : Bytes) :
    (parseNameText payload).1 = ((cString payload).map Prod.fst).getD [] := by
  unfold parseNameText
  dsimp only
  split
  · unfold parseParseMessageFull
    cases cString payload with
    | none => rfl
    | some p =>
      dsimp only
      split <;> rfl
  · unfold parseParseMessage
    cases cString payload with
    | none => rfl
    | some p =>
      dsimp only
      split <;> rfl

theorem parseNameText_noNul (payload : Bytes) : (0 : UInt8) ∉ (parseNameText payload).1 := by
  rw [parseNameText_name]
  cases h : cString payload with
  | none => simp
  | some p => exact cString_noNul h

theorem parsedMessage_name [External] (rules : Option External.Rules) (msg : Message) :
    (parseNameText (parsedMessage rules msg).payload).1 = (parseNameText msg.payload).1 := by
  unfold parsedMessage forwardedParse
  dsimp only
  split
  · rw [parseNameText_name, buildParsePayload]
    simp only [List.append_assoc, List.cons_append]
    rw [cString_nul (parseNameText_noNul _)]
    rfl
  · rfl

theorem parsedMessage_type [External] {rules : Option External.Rules} (h : msg.type = msgParse) :
    (parsedMessage rules msg).type = msgParse := by
  unfold parsedMessage forwardedParse
  dsimp only
  split
  · rfl
  · exact h

def executePortal (payload : Bytes) : Bytes := payload.takeWhile (· ≠ 0)

def View.setStmt (k : View) (name : Bytes) (text : Option Bytes) : View :=
  { k with stmts := Function.update k.stmts name text }

def View.setPortal (k : View) (portal : Bytes) (text : Option Bytes) : View :=
  { k with portals := Function.update k.portals portal text }

theorem View.setStmt_stmts (k : View) (name n : Bytes) (text : Option Bytes) :
    (k.setStmt name text).stmts n = if n = name then text else k.stmts n :=
  Function.update_apply ..

theorem View.setPortal_portals (k : View) (portal p : Bytes) (text : Option Bytes) :
    (k.setPortal portal text).portals p = if p = portal then text else k.portals p :=
  Function.update_apply ..

/-- What a client has prepared after one more message. -/
def View.note (k : View) (m : Message) : View :=
  if m.type = msgParse then
    k.setStmt (parseNameText m.payload).1 (some (parseNameText m.payload).2)
  else if m.type = msgBind then
    k.setPortal (parseBindMessage m.payload).1 (k.stmts (parseBindMessage m.payload).2)
  else if m.type = msgClose then
    if (parseCloseMessage m.payload).1 = 'S'.toUInt8 then
      k.setStmt (parseCloseMessage m.payload).2 none
    else if (parseCloseMessage m.payload).1 = 'P'.toUInt8 then
      k.setPortal (parseCloseMessage m.payload).2 none
    else k
  else k

def View.after (k : View) (ms : List Message) : View := ms.foldl View.note k

def View.prepared (k : View) (m : Message) : Option Bytes :=
  if m.type = msgParse then some (parseNameText m.payload).2
  else if m.type = msgBind then k.stmts (parseBindMessage m.payload).2
  else none

def View.executed (k : View) (m : Message) : Option Bytes :=
  if m.type = msgExecute then k.portals (executePortal m.payload) else none

def View.texts (f : View → Message → Option Bytes) : View → List Message → List Bytes
  | _, [] => []
  | k, m :: ms => (f k m).toList ++ View.texts f (k.note m) ms

theorem View.after_append (k : View) (ms ms' : List Message) :
    k.after (ms ++ ms') = (k.after ms).after ms' := List.foldl_append ..

theorem View.texts_append (f : View → Message → Option Bytes) (k : View) (ms ms' : List Message) :
    View.texts f k (ms ++ ms') = View.texts f k ms ++ View.texts f (k.after ms) ms' := by
  induction ms generalizing k with
  | nil => rfl
  | cons m ms ih => simp [View.texts, View.after, ih]

theorem View.mem_texts {f : View → Message → Option Bytes} {k : View} :
    text ∈ View.texts f k ms ↔
      ∃ b₁ m b₂, ms = b₁ ++ m :: b₂ ∧ f (k.after b₁) m = some text := by
  induction ms generalizing k with
  | nil => simp [View.texts]
  | cons m ms ih =>
    rw [View.texts, List.mem_append, Option.mem_toList, ih]
    constructor
    · rintro (h | ⟨b₁, m', b₂, rfl, h⟩)
      · exact ⟨[], m, ms, rfl, h⟩
      · exact ⟨m :: b₁, m', b₂, rfl, h⟩
    · rintro ⟨b₁, m', b₂, h, hf⟩
      cases b₁ with
      | nil =>
        cases h
        exact .inl hf
      | cons m'' b₁ =>
        cases h
        exact .inr ⟨b₁, m', b₂, rfl, hf⟩

/-- Every Execute of the messages is of a portal in `bound` or of one bound before it. -/
def bindsFirst (bound : List Bytes) : List Message → Bool
  | [] => true
  | m :: ms =>
    if m.type = msgBind then bindsFirst ((parseBindMessage m.payload).1 :: bound) ms
    else (m.type ≠ msgExecute || bound.contains (executePortal m.payload)) && bindsFirst bound ms

theorem View.note_portals {k : View} (hm : m.type ≠ msgBind)
    (h : (k.note m).portals p = some text) : k.portals p = some text := by
  unfold View.note at h
  rw [if_neg hm] at h
  split at h
  · exact h
  split at h
  · split at h
    · exact h
    split at h
    · rw [View.setPortal_portals] at h
      split at h
      · cases h
      · exact h
    · exact h
  · exact h

theorem View.note_stmts {k : View} (hm : m.type ≠ msgParse)
    (h : (k.note m).stmts n = some text) : k.stmts n = some text := by
  unfold View.note at h
  rw [if_neg hm] at h
  split at h
  · exact h
  split at h
  · split at h
    · rw [View.setStmt_stmts] at h
      split at h
      · cases h
      · exact h
    · split at h <;> exact h
  · exact h

theorem View.prepared_none {k : View} (hp : m.type ≠ msgParse) (hb : m.type ≠ msgBind) :
    k.prepared m = none := by
  rw [View.prepared, if_neg hp, if_neg hb]

theorem View.executed_none {k : View} (hx : m.type ≠ msgExecute) : k.executed m = none := by
  rw [View.executed, if_neg hx]

/-- In a batch that binds what it executes, the executed statements are among the bound ones. -/
theorem View.executed_prepared {P : Bytes → Prop} {k : View} (hb : bindsFirst bound ms)
    (hk : ∀ p ∈ bound, ∀ text, k.portals p = some text → P text)
    (hp : ∀ text ∈ View.texts View.prepared k ms, P text) :
    ∀ text ∈ View.texts View.executed k ms, P text := by
  induction ms generalizing k bound with
  | nil => exact hp
  | cons m ms ih =>
    intro text ht
    simp only [View.texts, List.mem_append] at ht hp
    unfold bindsFirst at hb
    split at hb
    · rename_i hbind
      have hx : k.executed m = none := by
        rw [View.executed, if_neg (by rw [hbind]; decide)]
      rw [hx] at ht
      refine ih hb ?_ (fun text h => hp text (.inr h)) text (ht.resolve_left (by simp))
      intro p hmem text h
      have hnp : m.type ≠ msgParse := by rw [hbind]; decide
      rw [View.note, if_neg hnp, if_pos hbind, View.setPortal_portals] at h
      split at h
      · exact hp text (.inl (by rw [View.prepared, if_neg hnp, if_pos hbind, h]; simp))
      · rename_i hne
        exact hk p ((List.mem_cons.mp hmem).resolve_left hne) text h
    · rename_i hbind
      simp only [Bool.and_eq_true, Bool.or_eq_true, decide_eq_true_eq] at hb
      rcases ht with ht | ht
      · rw [Option.mem_toList, View.executed] at ht
        split at ht
        · rename_i hx
          have hc := hb.1.resolve_left (by simp [hx])
          exact hk _ (by simpa using hc) text ht
        · cases ht
      · refine ih hb.2 ?_ (fun text h => hp text (.inr h)) text ht
        exact fun p hmem text h => hk p hmem text (View.note_portals hbind h)

def pushed (st st' : Relay) : List Message := st'.extBuf.drop st.extBuf.length

def told : List Relay → List Message
  | st :: st' :: sts => pushed st st' ++ told (st' :: sts)
  | _ => []

theorem told_append (sts : List Relay) (st st' : Relay) :
    told (sts ++ [st, st']) = told (sts ++ [st]) ++ pushed st st' := by
  induction sts with
  | nil => simp [told]
  | cons st₀ sts ih =>
    cases sts with
    | nil => simp [told]
    | cons st₁ sts =>
      simp only [List.cons_append, told] at ih ⊢
      rw [ih, List.append_assoc]

theorem pushed_same (h : st'.extBuf = st.extBuf) : pushed st st' = [] := by
  simp [pushed, h]

theorem pushed_nil (h : st'.extBuf = []) : pushed st st' = [] := by
  simp [pushed, h]

theorem pushed_one (h : st'.extBuf = st.extBuf ++ [m]) : pushed st st' = [m] := by
  simp [pushed, h]

/-- The bytes of a text that the wire carries: a NUL ends it. -/
def wire (text : Bytes) : Bytes := text.takeWhile (· ≠ 0)

theorem wire_cons (hc : c ≠ 0) (text : Bytes) : wire (c :: text) = c :: wire text := by
  simp [wire, hc]

theorem wire_split (text : Bytes) : text = wire text ∨ ∃ rest, text = wire text ++ 0 :: rest := by
  induction text with
  | nil => exact .inl rfl
  | cons c text ih =>
    by_cases hc : c = 0
    · subst hc
      exact .inr ⟨text, rfl⟩
    · rw [wire_cons hc]
      rcases ih with h | ⟨rest, h⟩
      · exact .inl (congrArg (c :: ·) h)
      · exact .inr ⟨rest, congrArg (c :: ·) h⟩

theorem noNul_wire (text : Bytes) : (0 : UInt8) ∉ wire text := by
  intro h
  simpa using List.mem_takeWhile_imp h

theorem cString_wire (text rest : Bytes) :
    ∃ rest', cString (text ++ 0 :: rest) = some (wire text, rest') := by
  rcases wire_split text with h | ⟨rest', h⟩
  · rw [← h]
    exact ⟨rest, cString_nul (h ▸ noNul_wire text) rest⟩
  · refine ⟨rest' ++ 0 :: rest, ?_⟩
    conv_lhs => rw [h, List.append_assoc, List.cons_append]
    exact cString_nul (noNul_wire text) _

theorem wire_noNul (h : (0 : UInt8) ∉ text) : wire text = text := by
  unfold wire
  rw [List.takeWhile_eq_self_iff]
  intro c hc
  exact decide_eq_true fun h0 => h (h0 ▸ hc)

theorem extractQueryText_queryMessage (query : Bytes) :
    extractQueryText (queryMessage query).payload = wire query := by
  unfold extractQueryText queryMessage
  obtain ⟨rest, h⟩ := cString_wire query []
  unfold cString at h
  split at h
  · cases h
  · exact congrArg Prod.fst (Option.some.inj h)

theorem parseNameText_build (hn : (0 : UInt8) ∉ name) (query : Bytes) (oids : List Nat) :
    (parseNameText (buildParsePayload name query oids)).2 = wire query := by
  obtain ⟨rest, hq⟩ := cString_wire query (putUint16 oids.length ++ oids.flatMap putUint32)
  have hp : cString (buildParsePayload name query oids) = some (name,
      query ++ 0 :: (putUint16 oids.length ++ oids.flatMap putUint32)) := by
    unfold buildParsePayload
    simp only [List.append_assoc, List.cons_append, List.nil_append]
    exact cString_nul hn _
  unfold parseNameText
  dsimp only
  split
  · unfold parseParseMessageFull
    rw [hp]
    dsimp only
    rw [hq]
    split <;> simp_all
  · unfold parseParseMessage
    rw [hp]
    dsimp only
    rw [hq]

theorem parseNameText_text (payload : Bytes) : (parseNameText payload).2 =
    (((cString payload).bind fun p => cString p.2).map Prod.fst).getD [] := by
  unfold parseNameText
  dsimp only
  split
  · unfold parseParseMessageFull
    cases cString payload with
    | none => rfl
    | some p =>
      dsimp only [Option.bind_some]
      split <;> simp_all
  · unfold parseParseMessage
    cases cString payload with
    | none => rfl
    | some p =>
      dsimp only [Option.bind_some]
      split <;> simp_all

theorem parseNameText_wire (payload : Bytes) :
    wire (parseNameText payload).2 = (parseNameText payload).2 := by
  rw [parseNameText_text]
  cases h : (cString payload).bind fun p => cString p.2 with
  | none => rfl
  | some p =>
    obtain ⟨q, -, hq⟩ := Option.bind_eq_some_iff.mp h
    exact wire_noNul (cString_noNul hq)

theorem parsedMessage_text [External] (rules : Option External.Rules) (msg : Message) :
    (parseNameText (parsedMessage rules msg).payload).2 = wire (parsedText rules msg) := by
  unfold parsedMessage parsedText forwardedParse
  dsimp only
  cases rules.bind fun rules => External.applyRules rules (parseNameText msg.payload).2 with
  | none => exact (parseNameText_wire msg.payload).symm
  | some query => exact parseNameText_build (parseNameText_noNul _) query _

def View.All (P : Bytes → Prop) (k : View) : Prop :=
  (∀ n text, k.stmts n = some text → P text) ∧ ∀ p text, k.portals p = some text → P text

theorem View.All.empty (P : Bytes → Prop) : View.All P .empty :=
  ⟨(fun _ _ h => nomatch h), (fun _ _ h => nomatch h)⟩

theorem View.All.note {P : Bytes → Prop} {k : View} (h : View.All P k)
    (hm : m.type = msgParse → P (parseNameText m.payload).2) : View.All P (k.note m) := by
  obtain ⟨hs, hp⟩ := h
  by_cases hparse : m.type = msgParse
  · rw [View.note, if_pos hparse]
    refine ⟨?_, hp⟩
    intro n text ht
    rw [View.setStmt_stmts] at ht
    split at ht
    · cases ht
      exact hm hparse
    · exact hs n text ht
  · refine ⟨fun n text ht => hs n text (View.note_stmts hparse ht), ?_⟩
    by_cases hbind : m.type = msgBind
    · rw [View.note, if_neg hparse, if_pos hbind]
      intro p text ht
      rw [View.setPortal_portals] at ht
      split at ht
      · exact hs _ text ht
      · exact hp p text ht
    · exact fun p text ht => hp p text (View.note_portals hbind ht)

theorem View.All.after {P : Bytes → Prop} {k : View} (h : View.All P k)
    (hms : ∀ m ∈ ms, m.type = msgParse → P (parseNameText m.payload).2) :
    View.All P (k.after ms) := by
  induction ms generalizing k with
  | nil => exact h
  | cons m ms ih =>
    apply ih
    · exact h.note (hms m (.head _))
    · exact fun m' hm' => hms m' (.tail _ hm')

end Pgmux
