import Pgmux.Binary64
import Pgmux.DecimalText
import Pgmux.JsonText

namespace Pgmux

def withSign (f : Nat → Nat) (n : Int) : Int := if n < 0 then -(f n.natAbs : Int) else f n.natAbs

theorem withSign_natAbs (f : Nat → Nat) (n : Int) : (withSign f n).natAbs = f n.natAbs := by
  unfold withSign
  generalize f n.natAbs = k
  split
  · rw [Int.natAbs_neg, Int.natAbs_natCast]
  · rw [Int.natAbs_natCast]

theorem withSign_withSign {f g : Nat → Nat} (hf : f 0 = 0) (n : Int) :
    withSign f (withSign g n) = withSign (fun k => f (g k)) n := by
  have habs := withSign_natAbs g n
  rw [withSign, habs, withSign]
  by_cases hn : n < 0
  · rw [withSign, if_pos hn, if_pos hn]
    cases hg : g n.natAbs with
    | zero => simp [hf]
    | succ k => rw [if_pos (by omega)]
  · rw [withSign, if_neg hn, if_neg hn, if_neg (by omega)]

theorem withSign_eq_self {f : Nat → Nat} {n : Int} (h : f n.natAbs = n.natAbs) :
    withSign f n = n := by
  rw [withSign, h]
  split <;> omega

def nearestDouble (n : Int) : Int := withSign Binary64.round n

/-- What `strconv.AppendFloat` with format 'f' and precision -1 prints for an integral double. -/
def shortestDecimal (d : Int) : Int := withSign Binary64.shortest d

structure Double where
  val : Int
  isDouble : nearestDouble val = val

theorem nearestDouble_nearestDouble (n : Int) :
    nearestDouble (nearestDouble n) = nearestDouble n := by
  unfold nearestDouble
  rw [withSign_withSign rfl]
  simp only [Binary64.round_round]

/-- How `encoding/json` decodes an integer into an untyped value. -/
def Double.ofInt (n : Int) : Double := ⟨nearestDouble n, nearestDouble_nearestDouble n⟩

/-- The values of a row: of bool, integer and other columns, and doubles that were decoded. -/
inductive Cell where
  | null
  | bool (b : Bool)
  | int (n : Int64)
  | double (d : Double)
  | str (s : Bytes)

/-- The body of a `QueryResponse`. A row is `nil` if its message is too short. -/
structure QueryResult where
  columns : List Bytes
  types : List Bytes
  rows : List (Option (List Cell))
  rowCount : Int
  command : Bytes

def stringJSON (s : Bytes) : Json.Value := .string (escape s)

def Cell.json : Cell → Json.Value
  | .null => .null
  | .bool b => .bool b
  | .int n => .number (formatInt n.toInt)
  | .double d => .number (formatInt (shortestDecimal d.val))
  | .str s => stringJSON s

def rowJSON : Option (List Cell) → Json.Value
  | none => .null
  | some cells => .array (cells.map Cell.json)

def member (name : String) (empty : Bool) (v : Json.Value) : List (Bytes × Json.Value) :=
  if empty then [] else [(ascii name, v)]

def QueryResult.members (r : QueryResult) : List (Bytes × Json.Value) :=
  member "columns" r.columns.isEmpty (.array (r.columns.map stringJSON)) ++
  member "types" r.types.isEmpty (.array (r.types.map stringJSON)) ++
  member "rows" r.rows.isEmpty (.array (r.rows.map rowJSON)) ++
  member "row_count" false (.number (formatInt r.rowCount)) ++
  member "command" r.command.isEmpty (stringJSON r.command)

/-- `json.Marshal` of a response: what the cache stores. -/
def marshal (r : QueryResult) : Bytes := Json.printObject r.members

/-- `Encode` of a response: the body that the client gets. -/
def encodeBody (r : QueryResult) : Bytes := marshal r ++ [10]

/-- The value of an integer; fractions and exponents, which are never written here, are left
out. -/
def readInt (text : Bytes) : Option Int :=
  let negative := text.head? = some '-'.toUInt8
  let digits := if negative then text.tail else text
  if digits ≠ [] ∧ digits.all isDigit then
    some (if negative then -(decimal digits : Int) else decimal digits)
  else none

def stringOf : Json.Value → Option Bytes
  | .string raw => unquote raw
  | .null => some []
  | _ => none

def stringsOf : Json.Value → Option (List Bytes)
  | .array items => items.mapM stringOf
  | .null => some []
  | _ => none

/-- The value in an untyped cell. Nested arrays are never written. -/
def cellOf : Json.Value → Option Cell
  | .null => some .null
  | .bool b => some (.bool b)
  | .number text => (readInt text).map fun n => .double (.ofInt n)
  | .string raw => (unquote raw).map .str
  | .array _ => none

def rowOf : Json.Value → Option (Option (List Cell))
  | .null => some none
  | .array items => (items.mapM cellOf).map some
  | _ => none

def rowsOf : Json.Value → Option (List (Option (List Cell)))
  | .array items => items.mapM rowOf
  | .null => some []
  | _ => none

def intOf : Json.Value → Option Int
  | .number text => readInt text
  | .null => some 0
  | _ => none

def field (ms : List (Bytes × Json.Value)) (name : String) (read : Json.Value → Option α)
    (zero : α) : Option α :=
  match ms.lookup (ascii name) with
  | some v => read v
  | none => some zero

/-- `json.Unmarshal` of what the cache stores. -/
def unmarshal (data : Bytes) : Option QueryResult := do
  let ms ← Json.readObject data
  let columns ← field ms "columns" stringsOf []
  let types ← field ms "types" stringsOf []
  let rows ← field ms "rows" rowsOf []
  let rowCount ← field ms "row_count" intOf 0
  let command ← field ms "command" stringOf []
  return ⟨columns, types, rows, rowCount, command⟩

theorem Double.ofInt_shortest (d : Double) : Double.ofInt (shortestDecimal d.val) = d := by
  have hround : Binary64.round d.val.natAbs = d.val.natAbs := by
    have := withSign_natAbs Binary64.round d.val
    rw [← this]
    exact congrArg Int.natAbs d.isDouble
  have hval : nearestDouble (shortestDecimal d.val) = d.val := by
    unfold nearestDouble shortestDecimal
    rw [withSign_withSign rfl]
    exact withSign_eq_self (Binary64.shortest_spec hround).1
  obtain ⟨val, hd⟩ := d
  unfold Double.ofInt
  congr

section Digits

theorem readInt_formatInt (n : Int) : readInt (formatInt n) = some n := by
  have hd := natText_digits n.natAbs
  unfold formatInt
  split
  · simp only [readInt, List.head?_cons, if_true, List.tail_cons]
    rw [if_pos ⟨hd.1, hd.2⟩, decimal_natText]
    congr 1
    omega
  · have hhead := natText_head n.natAbs
    simp only [readInt, hhead, if_false]
    rw [if_pos ⟨hd.1, hd.2⟩, decimal_natText]
    congr 1
    omega

theorem isNumber_natText (n : Nat) : Json.IsNumber (natText n) := by
  obtain ⟨hne, hall⟩ := natText_digits n
  refine ⟨hne, fun c hc => ?_⟩
  have hd := List.all_eq_true.mp hall c hc
  unfold isDigit at hd
  simp [Json.isNumberByte, hd]

theorem isNumber_formatInt (n : Int) : Json.IsNumber (formatInt n) := by
  have h := isNumber_natText n.natAbs
  unfold formatInt
  split
  · exact ⟨List.cons_ne_nil _ _, List.forall_mem_cons.mpr ⟨by decide, h.bytes⟩⟩
  · exact h

end Digits

def Cell.reread : Cell → Cell
  | .int n => .double (.ofInt n.toInt)
  | .str s => .str (sanitized s)
  | c => c

theorem Cell.json_wf (c : Cell) : Json.Wf c.json := by
  cases c with
  | null => exact .null
  | bool b => exact .bool
  | int n => exact .number (isNumber_formatInt _)
  | double d => exact .number (isNumber_formatInt _)
  | str s => exact .string (raw_escape s)

theorem cellOf_json (c : Cell) : cellOf c.json = some c.reread := by
  cases c with
  | null => rfl
  | bool b => rfl
  | int n =>
    rw [Cell.json, cellOf, readInt_formatInt]
    rfl
  | double d =>
    rw [Cell.json, cellOf, readInt_formatInt, Option.map_some, Double.ofInt_shortest]
    rfl
  | str s =>
    rw [Cell.json, stringJSON, cellOf, unquote_escape]
    rfl

theorem mapM_map {f : β → Option γ} {g : α → β} {h : α → γ} (hf : ∀ x, f (g x) = some (h x))
    (l : List α) : (l.map g).mapM f = some (l.map h) := by
  induction l with
  | nil => rfl
  | cons x l ih => simp [hf, ih]

def QueryResult.reread (r : QueryResult) : QueryResult where
  columns := r.columns.map sanitized
  types := r.types.map sanitized
  rows := r.rows.map (Option.map (List.map Cell.reread))
  rowCount := r.rowCount
  command := sanitized r.command

theorem stringOf_json (s : Bytes) : stringOf (stringJSON s) = some (sanitized s) := unquote_escape s

theorem stringsOf_json (l : List Bytes) :
    stringsOf (.array (l.map stringJSON)) = some (l.map sanitized) := mapM_map stringOf_json l

theorem rowOf_json (row : Option (List Cell)) :
    rowOf (rowJSON row) = some (row.map (List.map Cell.reread)) := by
  cases row with
  | none => rfl
  | some cells =>
    rw [rowJSON, rowOf, mapM_map cellOf_json]
    rfl

theorem rowsOf_json (rows : List (Option (List Cell))) :
    rowsOf (.array (rows.map rowJSON)) = some (rows.map (Option.map (List.map Cell.reread))) :=
  mapM_map rowOf_json rows

theorem rowJSON_wf (row : Option (List Cell)) : Json.Wf (rowJSON row) := by
  cases row with
  | none => exact .null
  | some cells =>
    refine .array fun v hv => ?_
    obtain ⟨c, -, rfl⟩ := List.mem_map.mp hv
    exact c.json_wf

theorem member_wf (name : String) (empty : Bool) (hname : Json.Raw (ascii name)) (hv : Json.Wf v) :
    Json.MembersWf (member name empty v) := by
  intro m hm
  cases empty with
  | true => cases hm
  | false =>
    rw [List.mem_singleton.mp hm]
    exact ⟨hname, hv⟩

theorem raw_of_plain (h : ∀ c ∈ u, c ≠ 34 ∧ c ≠ 92 ∧ ¬ c < 0x20) : Json.Raw u := by
  induction u with
  | nil => exact .nil
  | cons c u ih =>
    obtain ⟨h₁, h₂, h₃⟩ := h c (.head _)
    exact .plain h₁ h₂ h₃ (ih fun d hd => h d (List.mem_cons_of_mem c hd))

theorem stringsJSON_wf (l : List Bytes) : Json.Wf (.array (l.map stringJSON)) := by
  refine .array fun v hv => ?_
  obtain ⟨s, -, rfl⟩ := List.mem_map.mp hv
  exact .string (raw_escape s)

theorem rowsJSON_wf (rows : List (Option (List Cell))) : Json.Wf (.array (rows.map rowJSON)) := by
  refine .array fun v hv => ?_
  obtain ⟨row, -, rfl⟩ := List.mem_map.mp hv
  exact rowJSON_wf row

theorem QueryResult.members_wf (r : QueryResult) : Json.MembersWf r.members := by
  unfold QueryResult.members
  intro m hm
  simp only [List.mem_append] at hm
  rcases hm with (((hm | hm) | hm) | hm) | hm
  · exact member_wf _ _ (raw_of_plain (by decide)) (stringsJSON_wf _) m hm
  · exact member_wf _ _ (raw_of_plain (by decide)) (stringsJSON_wf _) m hm
  · exact member_wf _ _ (raw_of_plain (by decide)) (rowsJSON_wf _) m hm
  · exact member_wf _ _ (raw_of_plain (by decide)) (.number (isNumber_formatInt _)) m hm
  · exact member_wf _ _ (raw_of_plain (by decide)) (.string (raw_escape _)) m hm

theorem lookup_member (name key : String) (empty : Bool) (v : Json.Value) :
    (member name empty v).lookup (ascii key) =
      if ascii key = ascii name ∧ empty = false then some v else none := by
  cases empty with
  | true => simp [member]
  | false =>
    by_cases h : ascii key = ascii name
    · simp [member, h]
    · have hb : (ascii key == ascii name) = false := by simpa using h
      simp [member, List.lookup_cons, hb, h]

theorem QueryResult.lookup (r : QueryResult) :
    r.members.lookup (ascii "columns") =
      (if r.columns.isEmpty = false then some (.array (r.columns.map stringJSON)) else none) ∧
    r.members.lookup (ascii "types") =
      (if r.types.isEmpty = false then some (.array (r.types.map stringJSON)) else none) ∧
    r.members.lookup (ascii "rows") =
      (if r.rows.isEmpty = false then some (.array (r.rows.map rowJSON)) else none) ∧
    r.members.lookup (ascii "row_count") = some (.number (formatInt r.rowCount)) ∧
    r.members.lookup (ascii "command") =
      (if r.command.isEmpty = false then some (stringJSON r.command) else none) := by
  have hnames : ∀ n ∈ ["columns", "types", "rows", "row_count", "command"],
      ∀ m ∈ ["columns", "types", "rows", "row_count", "command"], ascii n = ascii m ↔ n = m := by
    decide +kernel
  simp only [QueryResult.members, List.lookup_append, lookup_member]
  simp [hnames]

theorem field_eq {α : Type} {read : Json.Value → Option α} {x z : α}
    (hl : ms.lookup (ascii name) = if empty = false then some v else none) (hv : read v = some x)
    (hzero : empty = true → x = z) : field ms name read z = some x := by
  unfold field
  rw [hl]
  cases empty with
  | true =>
    rw [hzero rfl]
    rfl
  | false => exact hv

theorem sanitized_isEmpty (s : Bytes) : (sanitized s).isEmpty = s.isEmpty := by
  cases s with
  | nil => rfl
  | cons c s =>
    obtain ⟨r, t, -, hr⟩ := runes_cons c s
    rw [sanitized, hr, List.flatMap_cons]
    obtain ⟨d, u, hd⟩ := List.exists_cons_of_ne_nil (encodeRune_ne_nil r)
    rw [hd]
    rfl

theorem unmarshal_marshal (r : QueryResult) : unmarshal (marshal r) = some r.reread := by
  obtain ⟨hcolumns, htypes, hrows, hcount, hcommand⟩ := r.lookup
  have h₁ := field_eq hcolumns (stringsOf_json r.columns) (z := []) (by simp)
  have h₂ := field_eq htypes (stringsOf_json r.types) (z := []) (by simp)
  have h₃ := field_eq hrows (rowsOf_json r.rows) (z := []) (by simp)
  have h₄ : field r.members "row_count" intOf 0 = some r.rowCount := by
    unfold field
    rw [hcount]
    exact readInt_formatInt r.rowCount
  have h₅ := field_eq hcommand (stringOf_json r.command) (z := []) (by
    intro he
    rw [List.isEmpty_iff.mp he]
    rfl)
  rw [unmarshal, marshal, Json.readObject_print r.members_wf]
  simp only [Option.bind_eq_bind, Option.bind_some, h₁, h₂, h₃, h₄, h₅]
  rfl

section Survival

/-- A value that is printed alike after it was read. -/
def Cell.Survives : Cell → Prop
  | .int n => shortestDecimal (nearestDouble n.toInt) = n.toInt
  | .str s => ValidUtf8 s
  | _ => True

structure QueryResult.Survives (r : QueryResult) : Prop where
  columns : ∀ s ∈ r.columns, ValidUtf8 s
  types : ∀ s ∈ r.types, ValidUtf8 s
  rows : ∀ row ∈ r.rows, ∀ cells ∈ row, ∀ c ∈ cells, c.Survives
  command : ValidUtf8 r.command

theorem formatInt_inj (h : formatInt m = formatInt n) : m = n := by
  have hm := readInt_formatInt m
  rw [h, readInt_formatInt] at hm
  exact (Option.some.inj hm).symm

theorem stringJSON_sanitized_iff (s : Bytes) :
    stringJSON (sanitized s) = stringJSON s ↔ ValidUtf8 s := by
  rw [← escape_sanitized_iff, stringJSON, stringJSON, Json.Value.string.injEq]

theorem Cell.json_reread_iff (c : Cell) : c.reread.json = c.json ↔ c.Survives := by
  cases c with
  | null => exact iff_of_true rfl trivial
  | bool b => exact iff_of_true rfl trivial
  | double d => exact iff_of_true rfl trivial
  | str s => exact stringJSON_sanitized_iff s
  | int n =>
    rw [Cell.reread, Cell.json, Cell.json, Json.Value.number.injEq]
    exact ⟨formatInt_inj, congrArg formatInt⟩

theorem stringsJSON_sanitized_iff (l : List Bytes) :
    (l.map sanitized).map stringJSON = l.map stringJSON ↔ ∀ s ∈ l, ValidUtf8 s := by
  rw [List.map_map, List.map_inj_left]
  simp only [Function.comp_apply, stringJSON_sanitized_iff]

theorem rowJSON_reread_iff (row : Option (List Cell)) :
    rowJSON (row.map (List.map Cell.reread)) = rowJSON row ↔
      ∀ cells ∈ row, ∀ c ∈ cells, c.Survives := by
  cases row with
  | none => exact iff_of_true rfl fun _ h => absurd h (by simp)
  | some cells =>
    rw [Option.map_some, rowJSON, rowJSON, Json.Value.array.injEq, List.map_map, List.map_inj_left]
    simp only [Function.comp_apply, Cell.json_reread_iff, Option.mem_some_iff, forall_eq']

theorem rowsJSON_reread_iff (rows : List (Option (List Cell))) :
    (rows.map (Option.map (List.map Cell.reread))).map rowJSON = rows.map rowJSON ↔
      ∀ row ∈ rows, ∀ cells ∈ row, ∀ c ∈ cells, c.Survives := by
  rw [List.map_map, List.map_inj_left]
  simp only [Function.comp_apply, rowJSON_reread_iff]

theorem QueryResult.Survives.members_eq {r : QueryResult} (h : r.Survives) :
    r.reread.members = r.members := by
  unfold QueryResult.members QueryResult.reread
  dsimp only
  rw [(stringsJSON_sanitized_iff _).mpr h.columns, (stringsJSON_sanitized_iff _).mpr h.types,
    (rowsJSON_reread_iff _).mpr h.rows, (stringJSON_sanitized_iff _).mpr h.command,
    sanitized_isEmpty, List.isEmpty_map, List.isEmpty_map, List.isEmpty_map]

theorem eq_of_lookup {e : Bool} {ms : List (Bytes × Json.Value)}
    (h : ms.lookup key = if e = false then some v else none)
    (h' : ms.lookup key = if e = false then some v' else none) : e = true ∨ v = v' := by
  cases e with
  | true => exact .inl rfl
  | false => exact .inr (Option.some.inj (h.symm.trans h'))

theorem QueryResult.survives_of_members_eq {r : QueryResult}
    (h : r.reread.members = r.members) : r.Survives := by
  obtain ⟨hcolumns, htypes, hrows, -, hcommand⟩ := r.lookup
  obtain ⟨hcolumns', htypes', hrows', -, hcommand'⟩ := r.reread.lookup
  rw [h] at hcolumns' htypes' hrows' hcommand'
  unfold QueryResult.reread at hcolumns' htypes' hrows' hcommand'
  dsimp only at hcolumns' htypes' hrows' hcommand'
  rw [List.isEmpty_map] at hcolumns' htypes' hrows'
  rw [sanitized_isEmpty] at hcommand'
  constructor
  · rcases eq_of_lookup hcolumns' hcolumns with he | he
    · rw [List.isEmpty_iff.mp he]
      exact fun s hs => absurd hs (List.not_mem_nil)
    · exact (stringsJSON_sanitized_iff _).mp (Json.Value.array.inj he)
  · rcases eq_of_lookup htypes' htypes with he | he
    · rw [List.isEmpty_iff.mp he]
      exact fun s hs => absurd hs (List.not_mem_nil)
    · exact (stringsJSON_sanitized_iff _).mp (Json.Value.array.inj he)
  · rcases eq_of_lookup hrows' hrows with he | he
    · rw [List.isEmpty_iff.mp he]
      exact fun row hrow => absurd hrow (List.not_mem_nil)
    · exact (rowsJSON_reread_iff _).mp (Json.Value.array.inj he)
  · rcases eq_of_lookup hcommand' hcommand with he | he
    · rw [List.isEmpty_iff.mp he]
      exact List.not_mem_nil
    · exact (stringJSON_sanitized_iff _).mp he

end Survival

def hitBody (r : QueryResult) : Option Bytes := (unmarshal (marshal r)).map encodeBody

/-- A hit gives the body of the miss exactly for the responses whose values all survive. -/
theorem hit_body_eq_iff (r : QueryResult) : hitBody r = some (encodeBody r) ↔ r.Survives := by
  rw [hitBody, unmarshal_marshal, Option.map_some, Option.some.injEq]
  constructor
  · intro h
    have hprint := List.append_cancel_right h
    exact QueryResult.survives_of_members_eq
      (Json.printObject_inj r.reread.members_wf r.members_wf hprint)
  · intro h
    rw [encodeBody, marshal, h.members_eq]
    rfl

/-- One `int8` beyond 2 ^ 53: the hit answers with the even neighbour. -/
theorem hit_body_rounds_int8 :
    let r : QueryResult :=
      ⟨[ascii "id"], [ascii "int8"], [some [.int 9007199254740993]], 1, ascii "SELECT 1"⟩
    let start := ascii "\x7b\"columns\":[\"id\"],\"types\":[\"int8\"],\"rows\":[["
    let rest := ascii "]],\"row_count\":1,\"command\":\"SELECT 1\"\x7d\n"
    encodeBody r = start ++ ascii "9007199254740993" ++ rest ∧
      hitBody r = some (start ++ ascii "9007199254740992" ++ rest) := by
  decide +kernel

end Pgmux
