import Pgmux.BindMessage
import Pgmux.Literal

namespace Pgmux

open Codec Cursor

/-- The `%d` and `%f` conversions of `fmt.Sscanf`: the value that a scan of the text leaves behind,
for a float its bits. -/
class Scanf where
  scanInt : Bytes → Int
  scanFloat : Bytes → Nat

structure ColumnInfo where
  name : Bytes
  oid : Nat
  typeName : Bytes
  deriving DecidableEq

inductive RowValue where
  | null
  | bool (b : Bool)
  | int (n : Int)
  | float (bits : Nat)
  | text (s : Bytes)
  deriving DecidableEq

def oidToTypeName (oid : Nat) : Bytes :=
  if oid = 16 then ascii "bool"
  else if oid = 20 then ascii "int8"
  else if oid = 21 then ascii "int2"
  else if oid = 23 then ascii "int4"
  else if oid = 25 then ascii "text"
  else if oid = 114 then ascii "json"
  else if oid = 700 then ascii "float4"
  else if oid = 701 then ascii "float8"
  else if oid = 1042 then ascii "bpchar"
  else if oid = 1043 then ascii "varchar"
  else if oid = 1082 then ascii "date"
  else if oid = 1114 then ascii "timestamp"
  else if oid = 1184 then ascii "timestamptz"
  else if oid = 2950 then ascii "uuid"
  else if oid = 3802 then ascii "jsonb"
  else ascii "oid_" ++ natText oid

section Source

variable [Scanf]

def convertValue (val : Bytes) (oid : Nat) : RowValue :=
  if oid = 16 then .bool (val = ascii "t" || val = ascii "true")
  else if oid = 20 ∨ oid = 21 ∨ oid = 23 then .int (Scanf.scanInt val)
  else if oid = 700 ∨ oid = 701 then .float (Scanf.scanFloat val)
  else .text val

namespace Sliced

/-- A column of a row description behind its name, or `none` where the loop is left. -/
def columnFields (payload name : Bytes) (pos : Int) : Checked Empty (Option (ColumnInfo × Int)) :=
  if payload.length < pos + 6 then .ok none
  else if payload.length < pos + 6 + 4 then .ok none
  else do
    let b ← slice payload (pos + 6) (pos + 6 + 4)
    let oid := bigEndianUint32 b
    if payload.length < pos + 6 + 4 + 8 then return none
    else return some (⟨name, oid, oidToTypeName oid⟩, pos + 6 + 4 + 8)

def column (payload : Bytes) (pos : Int) : Checked Empty (Option (ColumnInfo × Int)) := do
  -- the loop that looks for the NUL stays below the length
  let nameEnd := pos + ((payload.drop pos.toNat).takeWhile (· ≠ 0)).length
  let name ← slice payload pos nameEnd
  columnFields payload name (nameEnd + 1)

/-- The columns of a row description; `none` stands for nil. -/
def parseRowDescription (payload : Bytes) : Checked Empty (Option (List ColumnInfo)) :=
  if payload.length < 2 then .ok none
  else do
    let b ← slice payload 0 2
    let cols ← collectUpTo payload (fun _ => column payload) (bigEndianUint16 b) 0 2
    return some cols

def cell (columns : List ColumnInfo) (i : Nat) : Option Bytes → RowValue
  | none => .null
  | some val =>
    match columns[i]? with
    | some c => convertValue val c.oid
    | none => .text val

/-- The value of column `i` once its length is read, or `none` where the loop is left. -/
def cellValue (payload : Bytes) (columns : List ColumnInfo) (i : Nat) (colLen pos : Int) :
    Checked Empty (Option (RowValue × Int)) :=
  if colLen = -1 then .ok (some (cell columns i none, pos))
  else if payload.length < pos + colLen then .ok none
  else do
    let val ← slice payload pos (pos + colLen)
    return some (cell columns i (some val), pos + colLen)

def cellAt (payload : Bytes) (columns : List ColumnInfo) (i : Nat) (pos : Int) :
    Checked Empty (Option (RowValue × Int)) :=
  if payload.length < pos + 4 then .ok none
  else do
    let b ← slice payload pos (pos + 4)
    cellValue payload columns i (int32 (bigEndianUint32 b)) (pos + 4)

/-- The values of a data row; `none` stands for nil. Where the loop is left the rest of the row
stays nil. -/
def parseDataRow (payload : Bytes) (columns : List ColumnInfo) :
    Checked Empty (Option (List RowValue)) :=
  if payload.length < 2 then .ok none
  else do
    let b ← slice payload 0 2
    let numCols := bigEndianUint16 b
    let vs ← collectUpTo payload (cellAt payload columns) numCols 0 2
    return some (vs ++ List.replicate (numCols - vs.length) .null)

end Sliced

end Source

structure WireColumn where
  name : Bytes
  tableOID : Nat
  columnAttr : Nat
  oid : Nat
  typeLen : Nat
  typeMod : Nat
  format : Nat

def WireColumn.put (c : WireColumn) : Bytes :=
  c.name ++ [0] ++ (putUint32 c.tableOID ++ putUint16 c.columnAttr ++ (putUint32 c.oid ++
    (putUint16 c.typeLen ++ putUint32 c.typeMod ++ putUint16 c.format)))

def WireColumn.info (c : WireColumn) : ColumnInfo := ⟨c.name, c.oid, oidToTypeName c.oid⟩

structure WireColumn.Encodable (c : WireColumn) : Prop where
  name : 0 ∉ c.name
  oid : c.oid < 4294967296

section Columns

open Sliced

variable {payload : Bytes}

theorem slice_count (h : 2 ≤ payload.length) :
    (slice payload 0 2 : Checked Empty Bytes) = .ok (payload.take 2) :=
  slice_front h

theorem columnFields_eq (name : Bytes) (pos : Nat) :
    columnFields payload name pos =
      if pos + 18 ≤ payload.length then
        .ok (some (⟨name, bigEndianUint32 ((payload.drop (pos + 6)).take 4),
          oidToTypeName (bigEndianUint32 ((payload.drop (pos + 6)).take 4))⟩,
          ((pos + 18 : Nat) : Int)))
      else .ok none := by
  unfold columnFields
  by_cases h₆ : payload.length < pos + 6
  · rw [if_pos (by omega), if_neg (by omega)]
  by_cases h₁₀ : payload.length < pos + 6 + 4
  · rw [if_neg (by omega), if_pos (by omega), if_neg (by omega)]
  have hs : (slice payload ((pos : Int) + 6) (pos + 6 + 4) : Checked Empty Bytes) =
      .ok ((payload.drop (pos + 6)).take 4) :=
    slice_add (n := 4) (Nat.le_of_not_lt h₁₀)
  rw [if_neg (by omega), if_neg (by omega), hs]
  by_cases h₁₈ : payload.length < pos + 6 + 4 + 8
  · rw [if_neg (by omega)]
    exact if_pos (by omega)
  · rw [if_pos (by omega)]
    exact if_neg (by omega)

theorem column_eq {pos : Nat} (hpos : pos ≤ payload.length) :
    column payload pos = columnFields payload ((payload.drop pos).takeWhile (· ≠ 0))
      ((pos + ((payload.drop pos).takeWhile (· ≠ 0)).length + 1 : Nat) : Int) := by
  have hle := (List.takeWhile_prefix (· ≠ (0 : UInt8)) (l := payload.drop pos)).length_le
  rw [List.length_drop] at hle
  have htake : (payload.drop pos).take ((payload.drop pos).takeWhile (· ≠ 0)).length =
      (payload.drop pos).takeWhile (· ≠ 0) :=
    List.prefix_iff_eq_take.mp (List.takeWhile_prefix _) |>.symm
  rw [column, Int.toNat_natCast, slice_add (by omega), htake]
  rfl

theorem columns_ok (payload : Bytes) (n i pos : Nat) :
    ∃ cols, collectUpTo payload (fun _ => column payload) n i pos = .ok cols := by
  induction n generalizing i pos with
  | zero => exact ⟨[], rfl⟩
  | succ n ih =>
    by_cases hpos : pos < payload.length
    · have hcol := column_eq hpos.le
      rw [columnFields_eq] at hcol
      split at hcol
      · obtain ⟨cols, hcols⟩ := ih (i + 1) (pos +
          ((payload.drop pos).takeWhile (· ≠ 0)).length + 1 + 18)
        rw [collectUpTo_read (Int.ofNat_lt.mpr hpos) hcol, hcols]
        exact ⟨_, rfl⟩
      · exact ⟨[], collectUpTo_leave hcol⟩
    · exact ⟨[], collectUpTo_end (by omega)⟩

theorem column_put {c : WireColumn} (hc : c.Encodable) {pos : Nat}
    (h : payload.drop pos = c.put ++ t) :
    column payload pos = .ok (some (c.info, ((pos + c.put.length : Nat) : Int))) := by
  have hput : c.put.length = c.name.length + 19 := by
    simp only [WireColumn.put, List.length_append, putUint32, putUint16, List.length_cons,
      List.length_nil]
  have hlen := congrArg List.length h
  rw [List.length_drop, List.length_append, hput] at hlen
  have hname : (payload.drop pos).takeWhile (· ≠ 0) = c.name := by
    have hne : ∀ b ∈ c.name, decide (b ≠ 0) := by
      intro b hb
      exact decide_eq_true fun h0 => hc.name (h0 ▸ hb)
    rw [h, WireColumn.put, List.append_assoc, List.append_assoc, List.takeWhile_append_of_pos hne]
    simp
  have hoid : (payload.drop (pos + c.name.length + 1 + 6)).take 4 = putUint32 c.oid := by
    have hbehind : payload.drop (pos + c.name.length + 1 + 6) = putUint32 c.oid ++
        (putUint16 c.typeLen ++ putUint32 c.typeMod ++ putUint16 c.format ++ t) := by
      have hsplit : c.put ++ t =
          (c.name ++ [0] ++ (putUint32 c.tableOID ++ putUint16 c.columnAttr)) ++ (putUint32 c.oid ++
            (putUint16 c.typeLen ++ putUint32 c.typeMod ++ putUint16 c.format ++ t)) := by
        simp only [WireColumn.put, List.append_assoc]
      rw [Nat.add_assoc, Nat.add_assoc, ← List.drop_drop, h, hsplit]
      apply List.drop_left'
      simp [putUint32, putUint16]
    rw [hbehind]
    rfl
  have hvalue := bigEndianUint32_put hc.oid []
  rw [List.append_nil] at hvalue
  rw [column_eq (by omega), hname, columnFields_eq, if_pos (by omega), hoid, hvalue, hput]
  rfl

theorem parseRowDescription_eq (h : 2 ≤ payload.length) :
    parseRowDescription payload =
      (collectUpTo payload (fun _ => column payload) (bigEndianUint16 (payload.take 2)) 0
        ((2 : Nat) : Int)).map some := by
  rw [parseRowDescription, if_neg (by omega), slice_count h]
  show (collectUpTo payload (fun _ => column payload) (bigEndianUint16 (payload.take 2)) 0
    ((2 : Nat) : Int) >>= _) = _
  cases collectUpTo payload (fun _ => column payload) (bigEndianUint16 (payload.take 2)) 0
    ((2 : Nat) : Int) <;> rfl

theorem parseRowDescription_ok (payload : Bytes) :
    ∃ cols, parseRowDescription payload = .ok cols := by
  by_cases h : 2 ≤ payload.length
  · obtain ⟨cols, hcols⟩ := columns_ok payload (bigEndianUint16 (payload.take 2)) 0 2
    rw [parseRowDescription_eq h, hcols]
    exact ⟨some cols, rfl⟩
  · exact ⟨none, if_pos (by omega)⟩

theorem count_put (h : n < 65536) (p : Bytes) :
    bigEndianUint16 ((putUint16 n ++ p).take 2) = n :=
  bigEndianUint16_put h []

theorem parseRowDescription_put {cs : List WireColumn} (hlen : cs.length < 65536)
    (hc : ∀ c ∈ cs, c.Encodable) (hp : payload = putUint16 cs.length ++ cs.flatMap WireColumn.put) :
    parseRowDescription payload = .ok (some (cs.map WireColumn.info)) := by
  have htwo : 2 ≤ payload.length := by
    rw [hp]
    simp [putUint16]
  have hcount : bigEndianUint16 (payload.take 2) = cs.length := by
    rw [hp]
    exact count_put hlen _
  have hread : collectUpTo payload (fun _ => column payload) cs.length 0 ((2 : Nat) : Int) =
      .ok ((cs.zipIdx 0).map fun q => WireColumn.info q.1) := by
    apply collectUpTo_encoded WireColumn.put (fun _ => WireColumn.info) _ _ 0 2 []
    · rw [hp, List.append_nil]
      rfl
    · intro i c t hm pos h
      exact column_put (hc c hm) h
    · intro c _ hnil
      simpa [WireColumn.put] using congrArg List.length hnil
  have hmap : (cs.zipIdx 0).map (fun q => WireColumn.info q.1) = cs.map WireColumn.info := by
    have hcomp : (fun q : WireColumn × Nat => WireColumn.info q.1) =
        WireColumn.info ∘ Prod.fst := rfl
    rw [hcomp, ← List.map_map, List.zipIdx_map_fst]
  rw [parseRowDescription_eq htwo, hcount, hread, hmap]
  rfl

end Columns

section Lengths

def NegativeHead (p : Bytes) : Prop :=
  ∃ len t, p = putUint32 len ++ t ∧ 2147483648 ≤ len ∧ len < 4294967295

/-- Among the first `n` columns is one whose length is below -1; those before it are well formed. -/
def NegativeAmong (n : Nat) (p : Bytes) : Prop :=
  ∃ (values : List (Option Bytes)) (len : Nat) (t : Bytes),
    p = values.flatMap putParam ++ (putUint32 len ++ t) ∧ values.length < n ∧
      (∀ v ∈ values, ParamFits v) ∧ 2147483648 ≤ len ∧ len < 4294967295

theorem not_negativeAmong_zero (p : Bytes) : ¬ NegativeAmong 0 p := by
  rintro ⟨values, len, t, -, hlt, -⟩
  omega

theorem negativeAmong_succ : NegativeAmong (n + 1) p ↔
    NegativeHead p ∨ ∃ v t, readParam p = some (v, t) ∧ NegativeAmong n t := by
  constructor
  · rintro ⟨values, len, t, rfl, hlt, hfit, hlen⟩
    cases values with
    | nil => exact .inl ⟨len, t, rfl, hlen⟩
    | cons v values =>
      obtain ⟨hv, hrest⟩ := List.forall_mem_cons.mp hfit
      refine .inr ⟨v, values.flatMap putParam ++ (putUint32 len ++ t), ?_,
        values, len, t, rfl, Nat.lt_of_succ_lt_succ hlt, hrest, hlen⟩
      rw [List.flatMap_cons, List.append_assoc]
      exact readParam_inverts.read hv _
  · rintro (⟨len, t, rfl, hlen⟩ | ⟨v, t, hr, values, len, t', rfl, hlt, hfit, hlen⟩)
    · exact ⟨[], len, t, rfl, Nat.succ_pos n, fun v hv => (List.not_mem_nil hv).elim, hlen⟩
    · obtain ⟨hv, rfl⟩ := (readParam_inverts _ _ _).mp hr
      refine ⟨v :: values, len, t', ?_, Nat.succ_lt_succ hlt, List.forall_mem_cons.mpr ⟨hv, hfit⟩,
        hlen⟩
      rw [List.flatMap_cons, List.append_assoc]

def NegativeLength (payload : Bytes) : Prop :=
  ∃ n p, payload = putUint16 n ++ p ∧ n < 65536 ∧ NegativeAmong n p

theorem negativeLength_iff : NegativeLength payload ↔
    ∃ n p, readUint16 payload = some (n, p) ∧ NegativeAmong n p := by
  constructor
  · rintro ⟨n, p, rfl, hlt, hneg⟩
    exact ⟨n, p, readUint16_inverts.read hlt p, hneg⟩
  · rintro ⟨n, p, hr, hneg⟩
    obtain ⟨hlt, rfl⟩ := (readUint16_inverts _ _ _).mp hr
    exact ⟨n, p, rfl, hlt, hneg⟩

end Lengths

section Rows

open Sliced

variable [Scanf] {payload : Bytes} {columns : List ColumnInfo}

theorem cellAt_length {pos : Nat} (h : payload.drop pos = putUint32 len ++ t)
    (hlen : len < 4294967296) :
    cellAt payload columns i pos =
      cellValue payload columns i (int32 len) ((pos + 4 : Nat) : Int) := by
  have hl := congrArg List.length h
  rw [List.length_drop, List.length_append, putUint32_length] at hl
  have hs : (slice payload pos (pos + 4) : Checked Empty Bytes) = .ok (putUint32 len) := by
    have htake : (payload.drop pos).take 4 = putUint32 len := by
      rw [h]
      rfl
    rw [← htake]
    exact slice_add (n := 4) (by omega)
  have hvalue := bigEndianUint32_put hlen []
  rw [List.append_nil] at hvalue
  rw [cellAt, if_neg (by omega), hs]
  show cellValue payload columns i (int32 (bigEndianUint32 (putUint32 len))) _ = _
  rw [hvalue]
  rfl

theorem cellAt_put (hv : ParamFits v) {pos : Nat} (h : payload.drop pos = putParam v ++ t) :
    cellAt payload columns i pos =
      .ok (some (cell columns i v, ((pos + (putParam v).length : Nat) : Int))) := by
  cases v with
  | none =>
    rw [cellAt_length h (by decide)]
    rfl
  | some b =>
    have hb : b.length < 2147483648 := hv b rfl
    have hint : int32 b.length = b.length := if_pos hb
    rw [putParam, List.append_assoc] at h
    have hrest : payload.drop (pos + 4) = b ++ t := by
      rw [← List.drop_drop, h]
      rfl
    have hl := congrArg List.length h
    rw [List.length_drop, List.length_append, putUint32_length, List.length_append] at hl
    have hs : (slice payload ((pos + 4 : Nat) : Int) (((pos + 4 : Nat) : Int) + b.length) :
        Checked Empty Bytes) = .ok b := by
      rw [slice_add (by omega), hrest, List.take_left]
    rw [cellAt_length h (by omega), hint, cellValue, if_neg (by omega), if_neg (by omega), hs,
      putParam, List.length_append, putUint32_length, ← Nat.add_assoc]
    rfl

theorem cellAt_negative {pos : Nat} (h : NegativeHead (payload.drop pos)) :
    cellAt payload columns i pos = .error .outOfRange := by
  obtain ⟨len, t, h, hlow, hhigh⟩ := h
  have hl := congrArg List.length h
  rw [List.length_drop, List.length_append, putUint32_length] at hl
  have hint : int32 len = (len : Int) - 4294967296 := if_neg (by omega)
  rw [cellAt_length h (by omega), hint, cellValue, if_neg (by omega), if_neg (by omega),
    slice_backwards (by omega)]
  rfl

theorem cellAt_leave {pos : Nat} (hparam : readParam (payload.drop pos) = none)
    (hneg : ¬ NegativeHead (payload.drop pos)) : cellAt payload columns i pos = .ok none := by
  cases hr : readUint32 (payload.drop pos) with
  | none =>
    have hshort : ¬ pos + 4 ≤ payload.length := by
      intro hle
      have hfour : 4 ≤ (payload.drop pos).length := by
        rw [List.length_drop]
        omega
      rcases hd : payload.drop pos with _ | ⟨a, _ | ⟨b, _ | ⟨c, _ | ⟨d, p⟩⟩⟩⟩
      · simp [hd] at hfour
      · simp [hd] at hfour
      · simp [hd] at hfour
      · simp [hd] at hfour
      · rw [hd] at hr
        cases hr
    rw [cellAt, if_pos (by omega)]
  | some r =>
    obtain ⟨hlt, hd⟩ := (readUint32_inverts _ r.1 r.2).mp hr
    have hl := congrArg List.length hd
    rw [List.length_drop, List.length_append, putUint32_length] at hl
    rw [hd, readParam_some hlt, readValue] at hparam
    rw [cellAt_length hd hlt, cellValue]
    split at hparam
    · cases hparam
    · rename_i hnull
      rw [if_neg hnull]
      split at hparam
      · cases hparam
      · rename_i hfit
        have hnonneg : 0 ≤ int32 r.1 := by
          by_contra hlow
          unfold int32 at hlow hnull
          split at hlow
          · omega
          · exact hneg ⟨r.1, r.2, hd, by omega, by omega⟩
        rw [if_pos (by omega)]

theorem cells_outOfRange (n i pos : Nat) :
    collectUpTo payload (cellAt payload columns) n i pos = .error .outOfRange ↔
      NegativeAmong n (payload.drop pos) := by
  induction n generalizing i pos with
  | zero =>
    refine iff_of_false ?_ (not_negativeAmong_zero _)
    intro h
    cases h
  | succ n ih =>
    rw [negativeAmong_succ]
    by_cases hneg : NegativeHead (payload.drop pos)
    · have hpos : pos < payload.length := by
        obtain ⟨len, t, hd, -⟩ := hneg
        have hl := congrArg List.length hd
        rw [List.length_drop, List.length_append, putUint32_length] at hl
        omega
      rw [collectUpTo_stop (by omega) (cellAt_negative hneg)]
      exact iff_of_true rfl (.inl hneg)
    · cases hr : readParam (payload.drop pos) with
      | none =>
        rw [collectUpTo_leave (cellAt_leave hr hneg)]
        simp [hneg]
      | some r =>
        obtain ⟨hv, hd⟩ := (readParam_inverts _ r.1 r.2).mp hr
        have hnext : payload.drop (pos + (putParam r.1).length) = r.2 := by
          rw [← List.drop_drop, hd, List.drop_left]
        have hpos : pos < payload.length := by
          have hl := congrArg List.length hd
          rw [List.length_drop, List.length_append] at hl
          have hput : 4 ≤ (putParam r.1).length := by
            cases r.1 <;> simp [putParam, putUint32, putUint16]
          omega
        have hih := ih (i + 1) (pos + (putParam r.1).length)
        rw [hnext] at hih
        rw [collectUpTo_read (by omega) (cellAt_put hv hd), map_eq_error, hih]
        constructor
        · intro h
          exact .inr ⟨r.1, r.2, rfl, h⟩
        · rintro (h | ⟨v, t, he, h⟩)
          · exact absurd h hneg
          · cases he
            exact h

theorem parseDataRow_eq (h : 2 ≤ payload.length) :
    parseDataRow payload columns =
      (collectUpTo payload (cellAt payload columns) (bigEndianUint16 (payload.take 2)) 0
        ((2 : Nat) : Int)).map fun vs =>
          some (vs ++ List.replicate (bigEndianUint16 (payload.take 2) - vs.length) .null) := by
  rw [parseDataRow, if_neg (by omega), slice_count h]
  show (collectUpTo payload (cellAt payload columns) (bigEndianUint16 (payload.take 2)) 0
    ((2 : Nat) : Int) >>= _) = _
  cases collectUpTo payload (cellAt payload columns) (bigEndianUint16 (payload.take 2)) 0
    ((2 : Nat) : Int) <;> rfl

theorem parseDataRow_outOfRange (payload : Bytes) (columns : List ColumnInfo) :
    parseDataRow payload columns = .error .outOfRange ↔ NegativeLength payload := by
  rw [negativeLength_iff]
  rcases payload with _ | ⟨a, _ | ⟨b, p⟩⟩
  · simp [parseDataRow, readUint16]
  · simp [parseDataRow, readUint16]
  · rw [parseDataRow_eq (by simp), map_eq_error, cells_outOfRange]
    simp [readUint16, bigEndianUint16]

theorem cells_put {values : List (Option Bytes)} (hfit : ∀ v ∈ values, ParamFits v)
    (hp : payload = putUint16 values.length ++ values.flatMap putParam) :
    collectUpTo payload (cellAt payload columns) values.length 0 ((2 : Nat) : Int) =
      .ok ((values.zipIdx 0).map fun q => cell columns q.2 q.1) := by
  apply collectUpTo_encoded putParam (cell columns) _ _ 0 2 []
  · rw [hp, List.append_nil]
    rfl
  · intro i v t hm pos h
    exact cellAt_put (hfit v hm) h
  · intro v _ hnil
    cases v <;> simp [putParam, putUint32, putUint16] at hnil

theorem parseDataRow_put {values : List (Option Bytes)} (hlen : values.length < 65536)
    (hfit : ∀ v ∈ values, ParamFits v)
    (hp : payload = putUint16 values.length ++ values.flatMap putParam) :
    parseDataRow payload columns =
      .ok (some ((values.zipIdx 0).map fun q => cell columns q.2 q.1)) := by
  have htwo : 2 ≤ payload.length := by
    rw [hp]
    simp [putUint16]
  have hcount : bigEndianUint16 (payload.take 2) = values.length := by
    rw [hp]
    exact count_put hlen _
  rw [parseDataRow_eq htwo, hcount, cells_put hfit hp]
  simp [Except.map]

def TextLike (oid : Nat) : Prop := oid ∉ [16, 20, 21, 23, 700, 701]

theorem convertValue_text (h : TextLike oid) (val : Bytes) : convertValue val oid = .text val := by
  simp only [TextLike, List.mem_cons, List.not_mem_nil, or_false, not_or] at h
  unfold convertValue
  rw [if_neg h.1, if_neg (by omega), if_neg (by omega)]

/-- What the decoding of messages is to do: it returns, and it finds the columns and the values of
a well-formed message. -/
structure Decodes (payload : Bytes) (columns : List ColumnInfo) : Prop where
  description_returns : ∃ cols, parseRowDescription payload = .ok cols
  row_returns : ∃ row, parseDataRow payload columns = .ok row
  description_exact : ∀ cs : List WireColumn, cs.length < 65536 → (∀ c ∈ cs, c.Encodable) →
    payload = putUint16 cs.length ++ cs.flatMap WireColumn.put →
    ∃ cols, parseRowDescription payload = .ok (some cols) ∧
      cols.map ColumnInfo.name = cs.map WireColumn.name ∧
      cols.map ColumnInfo.oid = cs.map WireColumn.oid
  row_exact : ∀ values : List (Option Bytes), values.length < 65536 →
    (∀ v ∈ values, ParamFits v) →
    payload = putUint16 values.length ++ values.flatMap putParam →
    ∃ row : List RowValue, parseDataRow payload columns = .ok (some row) ∧
      row.length = values.length ∧
      (∀ i : Nat, values[i]? = some none → row[i]? = some .null) ∧
      ∀ (i : Nat) val, values[i]? = some (some val) → (∀ c ∈ columns[i]?, TextLike c.oid) →
        row[i]? = some (.text val)

theorem row_exact_of_put {values : List (Option Bytes)} (i : Nat) :
    ((values.zipIdx 0).map fun q => cell columns q.2 q.1)[i]? =
      values[i]?.map (cell columns i) := by
  rw [List.getElem?_map, List.getElem?_zipIdx, Option.map_map, Nat.zero_add]
  rfl

/-- Messages are decoded as they should be, without an access out of range, unless a length is
below -1. -/
theorem row_decoding_iff (payload : Bytes) (columns : List ColumnInfo) :
    Decodes payload columns ↔ ¬ NegativeLength payload := by
  constructor
  · intro h hneg
    obtain ⟨row, hrow⟩ := h.row_returns
    rw [(parseDataRow_outOfRange payload columns).mpr hneg] at hrow
    cases hrow
  · intro hneg
    constructor
    · exact parseRowDescription_ok payload
    · rcases hrow : parseDataRow payload columns with (e | _) | row
      · exact e.elim
      · exact absurd ((parseDataRow_outOfRange payload columns).mp hrow) hneg
      · exact ⟨row, rfl⟩
    · intro cs hlen hc hp
      refine ⟨_, parseRowDescription_put hlen hc hp, ?_, ?_⟩
      · rw [List.map_map]
        rfl
      · rw [List.map_map]
        rfl
    · intro values hlen hfit hp
      refine ⟨_, parseDataRow_put hlen hfit hp, by simp, ?_, ?_⟩
      · intro i hi
        rw [row_exact_of_put, hi]
        rfl
      · intro i val hi htext
        rw [row_exact_of_put, hi, Option.map_some, cell]
        cases hc : columns[i]? with
        | none => rfl
        | some c => exact congrArg some (convertValue_text (htext c hc) val)

end Rows

/-- A column of length -2 takes the slice out of range. -/
theorem length_minus_two_panics :
    @Sliced.parseDataRow ⟨fun _ => 0, fun _ => 0⟩ (putUint16 1 ++ putUint32 4294967294) [] =
      .error .outOfRange := by
  decide +kernel

end Pgmux
