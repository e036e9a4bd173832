import Mathlib.Data.List.AList
import Pgmux.WireFields

namespace Pgmux

open ByteStream

abbrev ParamMap := AList fun _ : Bytes => Bytes

abbrev ParamEntry := Sigma fun _ : Bytes => Bytes

/-- The errors of `ReadStartupMessage`, each with the error or the number in its text. -/
inductive StartupError (E : Type) where
  | length (e : Fault E)
  | invalidLength (length : Nat)
  | payload (e : Fault E)
  deriving DecidableEq

def readStartupMessage (s : Stream E) : Except (StartupError E) WireMessage × Stream E :=
  match readFull 4 s with
  | (_, some e, s) => (.error (.length e), s)
  | (lenBuf, none, s) =>
    let length := bigEndianUint32 lenBuf
    if length < 4 ∨ 10000 < length then (.error (.invalidLength length), s)
    else match readFull (length - 4) s with
      | (_, some e, s) => (.error (.payload e), s)
      | (payload, none, s) => (.ok ⟨0, payload, none⟩, s)

def putEntry (e : ParamEntry) : Bytes := e.1 ++ [0] ++ (e.2 ++ [0])

/-- The payload of a startup message whose parameters are visited in an order. -/
def startupPayload (params : List ParamEntry) : Bytes :=
  putUint16 3 ++ putUint16 0 ++ (params.flatMap putEntry ++ [0])

/-- The startup message for the entries of a map, in the order in which they are visited. -/
def buildStartupMessage (params : List ParamEntry) : Bytes :=
  putUint32 (4 + (startupPayload params).length) ++ startupPayload params

/-- The loop over the parameters: it ends when less than two bytes are left or a NUL is missing. -/
def paramsFrom (params : ParamMap) (rest : Bytes) : ParamMap :=
  if 1 < rest.length then
    match _hkey : cString rest with
    | none => params
    | some (key, rest') =>
      match _hval : cString rest' with
      | none => params
      | some (val, rest'') => paramsFrom (params.insert key val) rest''
  else params
termination_by rest.length
decreasing_by
  obtain ⟨-, rfl⟩ := (cString_inverts _ _ _).mp _hkey
  obtain ⟨-, rfl⟩ := (cString_inverts _ _ _).mp _hval
  simp only [List.length_append, List.length_cons, List.length_nil]
  omega

/-- The version and the parameters of a startup payload; `none` stands for a nil map. -/
structure StartupParams where
  major : Nat
  minor : Nat
  params : Option ParamMap

def parseStartupParams (payload : Bytes) : StartupParams :=
  if payload.length < 4 then ⟨0, 0, none⟩
  else
    { major := bigEndianUint16 (payload.take 2)
      minor := bigEndianUint16 ((payload.drop 2).take 2)
      params := some (paramsFrom ∅ (payload.drop 4)) }

def NulFreeEntry (e : ParamEntry) : Prop := 0 ∉ e.1 ∧ 0 ∉ e.2

instance : DecidablePred NulFreeEntry := fun e => inferInstanceAs (Decidable (0 ∉ e.1 ∧ 0 ∉ e.2))

section Parameters

theorem paramsFrom_entry (he : NulFreeEntry e) (params : ParamMap) (t : Bytes) :
    paramsFrom params (putEntry e ++ t) = paramsFrom (params.insert e.1 e.2) t := by
  have hkey := Codec.Inverts.read cString_inverts he.1 (e.2 ++ [0] ++ t)
  have hval := Codec.Inverts.read cString_inverts he.2 t
  have hlen : 1 < (e.1 ++ [0] ++ (e.2 ++ [0] ++ t)).length := by
    simp only [List.length_append, List.length_cons, List.length_nil]
    omega
  rw [putEntry, List.append_assoc, paramsFrom, if_pos hlen]
  split
  · rename_i hnone
    rw [hkey] at hnone
    cases hnone
  · rename_i key rest' hsome
    rw [hkey] at hsome
    cases hsome
    split
    · rename_i hnone
      rw [hval] at hnone
      cases hnone
    · rename_i val rest'' hsome
      rw [hval] at hsome
      cases hsome
      rfl

theorem paramsFrom_entries {entries : List ParamEntry} (he : ∀ e ∈ entries, NulFreeEntry e)
    (params : ParamMap) :
    paramsFrom params (entries.flatMap putEntry ++ [0]) =
      entries.foldl (fun m e => m.insert e.1 e.2) params := by
  induction entries generalizing params with
  | nil =>
    show paramsFrom params [0] = params
    rw [paramsFrom, if_neg (by decide)]
  | cons e entries ih =>
    obtain ⟨hhead, htail⟩ := List.forall_mem_cons.mp he
    rw [List.flatMap_cons, List.append_assoc, paramsFrom_entry hhead, ih htail]
    rfl

theorem lookup_foldl_insert (hk : (entries : List ParamEntry).NodupKeys) (params : ParamMap)
    (k : Bytes) :
    (entries.foldl (fun m e => m.insert e.1 e.2) params).lookup k =
      (entries.dlookup k).or (params.lookup k) := by
  induction entries generalizing params with
  | nil => rfl
  | cons e entries ih =>
    obtain ⟨hnew, hrest⟩ := List.nodupKeys_cons.mp hk
    rw [List.foldl_cons, ih hrest]
    by_cases hke : k = e.1
    · subst hke
      rw [List.dlookup_eq_none.mpr hnew, List.dlookup_cons_eq, AList.lookup_insert]
      rfl
    · rw [List.dlookup_cons_ne _ _ hke, AList.lookup_insert_ne hke]

end Parameters

section Message

theorem buildStartupMessage_length (params : List ParamEntry) :
    (buildStartupMessage params).length = 4 + (startupPayload params).length := by
  rw [buildStartupMessage, List.length_append, putUint32_length]

theorem readStartupMessage_build (h : (buildStartupMessage params).length ≤ 10000)
    (rest : Stream E) :
    readStartupMessage (ofBytes (buildStartupMessage params) ++ rest) =
      (.ok ⟨0, startupPayload params, none⟩, rest) := by
  rw [buildStartupMessage_length] at h
  have hhead := readFull_ofBytes (putUint32 (4 + (startupPayload params).length))
    (ofBytes (startupPayload params) ++ rest)
  have hlength : bigEndianUint32 (putUint32 (4 + (startupPayload params).length)) =
      4 + (startupPayload params).length := by
    have hput := bigEndianUint32_put (n := 4 + (startupPayload params).length) (by omega) []
    rwa [List.append_nil] at hput
  rw [putUint32_length] at hhead
  rw [readStartupMessage, buildStartupMessage, ofBytes_append, List.append_assoc, hhead]
  dsimp only
  rw [hlength, if_neg (by omega), Nat.add_sub_cancel_left, readFull_ofBytes]

theorem parseStartupParams_payload {entries : List ParamEntry}
    (he : ∀ e ∈ entries, NulFreeEntry e) :
    parseStartupParams (startupPayload entries) =
      ⟨3, 0, some (entries.foldl (fun m e => m.insert e.1 e.2) ∅)⟩ := by
  have hlen : ¬ (startupPayload entries).length < 4 := by
    simp only [startupPayload, putUint16, List.length_append, List.length_cons, List.length_nil]
    omega
  rw [parseStartupParams, if_neg hlen, ← paramsFrom_entries he]
  rfl

/-- In whatever order the entries of a map are visited, the startup message is read from the stream
and nothing behind it, and its payload parses to the map. -/
theorem startup_round_trip {m : ParamMap} {order : List ParamEntry} (horder : order.Perm m.entries)
    (hnul : ∀ e ∈ m.entries, NulFreeEntry e) (hlen : (buildStartupMessage order).length ≤ 10000)
    (rest : Stream E) :
    ∃ payload params,
      readStartupMessage (ofBytes (buildStartupMessage order) ++ rest) =
        (.ok ⟨0, payload, none⟩, rest) ∧
      parseStartupParams payload = ⟨3, 0, some params⟩ ∧ ∀ k, params.lookup k = m.lookup k := by
  have hsend : ∀ e ∈ order, NulFreeEntry e := fun e he => hnul e (horder.mem_iff.mp he)
  have hkeys : order.NodupKeys := (List.perm_nodupKeys horder).mpr m.nodupKeys
  refine ⟨startupPayload order, _, readStartupMessage_build hlen rest,
    parseStartupParams_payload hsend, ?_⟩
  intro k
  rw [lookup_foldl_insert hkeys, AList.lookup_empty, Option.or_none,
    List.perm_dlookup k hkeys horder]
  rfl

/-- The empty key with the empty value stands last. -/
theorem startup_empty_entry :
    ∃ payload params,
      readStartupMessage (ofBytes (buildStartupMessage
          [⟨ascii "user", ascii "app"⟩, ⟨[], []⟩]) ++ ofBytes (ascii "Q") : Stream Unit) =
        (.ok ⟨0, payload, none⟩, ofBytes (ascii "Q")) ∧
      parseStartupParams payload = ⟨3, 0, some params⟩ ∧
      ∀ k, params.lookup k =
        (((∅ : ParamMap).insert (ascii "user") (ascii "app")).insert [] []).lookup k :=
  startup_round_trip (List.Perm.swap _ _ _) (by decide +kernel) (by decide +kernel) _

end Message

end Pgmux
