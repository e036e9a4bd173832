import Mathlib.Data.List.TakeWhile

namespace Json

inductive Value where
  | null
  | bool (b : Bool)
  | number (text : List UInt8)
  | string (raw : List UInt8)
  | array (items : List Value)

mutual

def print : Value → List UInt8
  | .null => [110, 117, 108, 108]
  | .bool true => [116, 114, 117, 101]
  | .bool false => [102, 97, 108, 115, 101]
  | .number text => text
  | .string raw => 34 :: (raw ++ [34])
  | .array items => 91 :: (printItems items ++ [93])

def printItems : List Value → List UInt8
  | [] => []
  | [v] => print v
  | v :: w :: vs => print v ++ 44 :: printItems (w :: vs)

end

def printMember (m : List UInt8 × Value) : List UInt8 := 34 :: (m.1 ++ 34 :: 58 :: print m.2)

def printMembers : List (List UInt8 × Value) → List UInt8
  | [] => []
  | [m] => printMember m
  | m :: n :: ms => printMember m ++ 44 :: printMembers (n :: ms)

def printObject (ms : List (List UInt8 × Value)) : List UInt8 := 123 :: (printMembers ms ++ [125])

def isNumberByte (c : UInt8) : Bool :=
  (48 ≤ c && c ≤ 57) || c == 45 || c == 43 || c == 46 || c == 101 || c == 69

/-- The rest of a string token up to its closing quote, and the text behind it. -/
def readString : List UInt8 → Option (List UInt8 × List UInt8)
  | [] => none
  | [c] => if c = 34 then some ([], []) else none
  | c :: d :: s =>
    if c = 34 then some ([], d :: s)
    else if c = 92 then (readString s).map fun p => (c :: d :: p.1, p.2)
    else if c < 0x20 then none
    else (readString (d :: s)).map fun p => (c :: p.1, p.2)

def readWord (word : List UInt8) (v : Value) (s : List UInt8) : Option (Value × List UInt8) :=
  if word.isPrefixOf s then some (v, s.drop word.length) else none

def readNumber (s : List UInt8) : Option (Value × List UInt8) :=
  if s.takeWhile isNumberByte = [] then none
  else some (.number (s.takeWhile isNumberByte), s.dropWhile isNumberByte)

mutual

/-- A value at the start of the text, and the text behind it. -/
def read : Nat → List UInt8 → Option (Value × List UInt8)
  | 0, _ => none
  | _ + 1, [] => none
  | n + 1, c :: s =>
    if c = 34 then (readString s).map fun p => (.string p.1, p.2)
    else if c = 91 then
      if s.head? = some 93 then some (.array [], s.tail)
      else (readItems n s).map fun p => (.array p.1, p.2)
    else if c = 110 then readWord [110, 117, 108, 108] .null (c :: s)
    else if c = 116 then readWord [116, 114, 117, 101] (.bool true) (c :: s)
    else if c = 102 then readWord [102, 97, 108, 115, 101] (.bool false) (c :: s)
    else readNumber (c :: s)

def readItems : Nat → List UInt8 → Option (List Value × List UInt8)
  | 0, _ => none
  | n + 1, s => (read n s).bind fun p =>
    match p.2 with
    | [] => none
    | c :: t =>
      if c = 93 then some ([p.1], t)
      else if c = 44 then (readItems n t).map fun q => (p.1 :: q.1, q.2)
      else none

end

def readMember (n : Nat) : List UInt8 → Option ((List UInt8 × Value) × List UInt8)
  | [] => none
  | c :: s =>
    if c = 34 then (readString s).bind fun k =>
      if k.2.head? = some 58 then (read n k.2.tail).map fun p => ((k.1, p.1), p.2) else none
    else none

def readMembers : Nat → List UInt8 → Option (List (List UInt8 × Value) × List UInt8)
  | 0, _ => none
  | n + 1, s => (readMember n s).bind fun p =>
    match p.2 with
    | [] => none
    | c :: t =>
      if c = 125 then some ([p.1], t)
      else if c = 44 then (readMembers n t).map fun q => (p.1 :: q.1, q.2)
      else none

def readObject : List UInt8 → Option (List (List UInt8 × Value))
  | [] => none
  | c :: s =>
    if c ≠ 123 then none
    else if s = [125] then some []
    else (readMembers (s.length + 1) s).bind fun p => if p.2 = [] then some p.1 else none

inductive Raw : List UInt8 → Prop
  | nil : Raw []
  | plain : c ≠ 34 → c ≠ 92 → ¬ c < 0x20 → Raw r → Raw (c :: r)
  | escape : Raw r → Raw (92 :: d :: r)

theorem Raw.append (h : Raw r) (ht : Raw t) : Raw (r ++ t) := by
  induction h with
  | nil => exact ht
  | plain h₁ h₂ h₃ _ ih => exact .plain h₁ h₂ h₃ ih
  | escape _ ih => exact .escape ih

theorem Raw.readString (h : Raw r) (s : List UInt8) : readString (r ++ 34 :: s) = some (r, s) := by
  induction h with
  | nil => cases s <;> rfl
  | @plain c r h₁ h₂ h₃ _ ih =>
    rw [List.cons_append]
    obtain ⟨d, t, ht⟩ : ∃ d t, r ++ 34 :: s = d :: t := by cases r <;> exact ⟨_, _, rfl⟩
    rw [ht] at ih ⊢
    rw [Json.readString, if_neg h₁, if_neg h₂, if_neg h₃, ih]
    rfl
  | @escape r d _ ih =>
    rw [List.cons_append, List.cons_append, Json.readString, if_neg (by decide), if_pos rfl, ih]
    rfl

structure IsNumber (text : List UInt8) : Prop where
  ne_nil : text ≠ []
  bytes : ∀ c ∈ text, isNumberByte c = true

inductive Wf : Value → Prop
  | null : Wf .null
  | bool : Wf (.bool b)
  | number : IsNumber text → Wf (.number text)
  | string : Raw raw → Wf (.string raw)
  | array : (∀ v ∈ items, Wf v) → Wf (.array items)

def Stops (s : List UInt8) : Prop := ∀ c ∈ s.head?, isNumberByte c = false

theorem IsNumber.takeWhile (h : IsNumber text) (hs : Stops s) :
    (text ++ s).takeWhile isNumberByte = text ∧ (text ++ s).dropWhile isNumberByte = s := by
  rw [List.takeWhile_append_of_pos h.bytes, List.dropWhile_append_of_pos h.bytes]
  cases s with
  | nil => simp
  | cons c s =>
    have hc := hs c rfl
    simp [hc]

theorem IsNumber.read (h : IsNumber text) (hs : Stops s) :
    readNumber (text ++ s) = some (.number text, s) := by
  rw [readNumber, (h.takeWhile hs).1, (h.takeWhile hs).2, if_neg h.ne_nil]

theorem print_starts (h : Wf v) : ∃ c s, print v = c :: s ∧ c ≠ 93 := by
  cases h with
  | null => exact ⟨_, _, rfl, by decide⟩
  | @bool b => cases b <;> exact ⟨_, _, rfl, by decide⟩
  | @number text h =>
    obtain ⟨c, t, rfl⟩ := List.exists_cons_of_ne_nil h.ne_nil
    refine ⟨c, t, rfl, ?_⟩
    rintro rfl
    exact absurd (h.bytes 93 (.head _)) (by decide)
  | string h => exact ⟨_, _, rfl, by decide⟩
  | array h => exact ⟨_, _, rfl, by decide⟩

def ReadsBack (v : Value) : Prop :=
  ∀ n s, (print v).length ≤ n → Stops s → read n (print v ++ s) = some (v, s)

theorem printItems_length (v w : Value) (vs : List Value) :
    (printItems (v :: w :: vs)).length = (print v).length + 1 + (printItems (w :: vs)).length := by
  rw [printItems, List.length_append, List.length_cons]
  omega

theorem readItems_print (hne : items ≠ []) (h : ∀ v ∈ items, ReadsBack v)
    (hn : (printItems items).length < n) (s : List UInt8) :
    readItems n (printItems items ++ 93 :: s) = some (items, s) := by
  induction items generalizing n with
  | nil => exact absurd rfl hne
  | cons v vs ih =>
    obtain ⟨n, rfl⟩ : ∃ m, n = m + 1 := ⟨n - 1, by omega⟩
    have hv := h v (.head _)
    cases vs with
    | nil =>
      have hread := hv n (93 :: s) (by rw [printItems] at hn; omega)
        (fun c hc => by cases hc; decide)
      rw [printItems, readItems, hread]
      rfl
    | cons w vs =>
      rw [printItems_length] at hn
      have hread := hv n (44 :: (printItems (w :: vs) ++ 93 :: s)) (by omega)
        (fun c hc => by cases hc; decide)
      have hrest := ih (List.cons_ne_nil _ _) (fun u hu => h u (List.mem_cons_of_mem v hu))
        (n := n) (by omega)
      rw [printItems, List.append_assoc, List.cons_append, readItems, hread]
      simp only [Option.bind_some]
      rw [if_neg (by decide), if_pos trivial, hrest]
      rfl

theorem printItems_starts (hne : items ≠ []) (h : ∀ v ∈ items, Wf v) :
    ∃ c s, printItems items = c :: s ∧ c ≠ 93 := by
  obtain ⟨v, vs, rfl⟩ := List.exists_cons_of_ne_nil hne
  obtain ⟨c, s, hs, hc⟩ := print_starts (h v (.head _))
  cases vs with
  | nil => exact ⟨c, s, by rw [printItems, hs], hc⟩
  | cons w vs => exact ⟨c, _, by rw [printItems, hs, List.cons_append], hc⟩

theorem Wf.readsBack (h : Wf v) : ReadsBack v := by
  induction h with
  | null =>
    intro n s hn _
    obtain ⟨n, rfl⟩ : ∃ m, n = m + 1 := ⟨n - 1, by rw [print] at hn; simp at hn; omega⟩
    rfl
  | @bool b =>
    intro n s hn _
    obtain ⟨n, rfl⟩ : ∃ m, n = m + 1 := ⟨n - 1, by cases b <;> simp [print] at hn <;> omega⟩
    cases b <;> rfl
  | @number text h =>
    intro n s hn hs
    have hlen := List.length_pos_iff.mpr h.ne_nil
    obtain ⟨n, rfl⟩ : ∃ m, n = m + 1 := ⟨n - 1, by rw [print] at hn; omega⟩
    obtain ⟨c, t, rfl⟩ := List.exists_cons_of_ne_nil h.ne_nil
    have hc := h.bytes c (.head _)
    have hne (d : UInt8) (hd : isNumberByte d = false) : c ≠ d := by
      rintro rfl
      rw [hc] at hd
      cases hd
    rw [print, List.cons_append, read, if_neg (hne 34 (by decide)), if_neg (hne 91 (by decide)),
      if_neg (hne 110 (by decide)), if_neg (hne 116 (by decide)), if_neg (hne 102 (by decide)),
      ← List.cons_append, h.read hs]
  | @string raw h =>
    intro n s hn _
    obtain ⟨n, rfl⟩ : ∃ m, n = m + 1 := ⟨n - 1, by simp [print] at hn; omega⟩
    rw [print, List.cons_append, List.append_assoc, List.singleton_append, read, if_pos rfl,
      h.readString]
    rfl
  | @array items h ih =>
    intro n s hn _
    obtain ⟨n, rfl⟩ : ∃ m, n = m + 1 := ⟨n - 1, by simp [print] at hn; omega⟩
    rw [print, List.cons_append, List.append_assoc, List.singleton_append, read, if_neg (by decide),
      if_pos rfl]
    by_cases hne : items = []
    · subst hne
      rfl
    · obtain ⟨c, t, ht, hc⟩ := printItems_starts hne h
      have hlen : (printItems items).length < n := by
        rw [print, List.length_cons, List.length_append] at hn
        simp at hn
        omega
      rw [if_neg (by rw [ht]; exact fun he => hc (Option.some.inj he)),
        readItems_print hne ih hlen]
      rfl

def MembersWf (ms : List (List UInt8 × Value)) : Prop := ∀ m ∈ ms, Raw m.1 ∧ Wf m.2

theorem readMember_print (hk : Raw m.1) (hv : Wf m.2) (hn : (printMember m).length ≤ n)
    (hs : Stops s) : readMember n (printMember m ++ s) = some (m, s) := by
  have hread := hv.readsBack n s (by simp [printMember] at hn; omega) hs
  rw [printMember, List.cons_append, List.append_assoc, List.cons_append, List.cons_append,
    readMember, if_pos rfl, hk.readString]
  simp only [Option.bind_some]
  rw [List.head?_cons, if_pos rfl, List.tail_cons, hread]
  rfl

theorem printMembers_length (m k : List UInt8 × Value) (ms : List (List UInt8 × Value)) :
    (printMembers (m :: k :: ms)).length =
      (printMember m).length + 1 + (printMembers (k :: ms)).length := by
  rw [printMembers, List.length_append, List.length_cons]
  omega

theorem readMembers_print (hne : ms ≠ []) (h : MembersWf ms)
    (hn : (printMembers ms).length < n) (s : List UInt8) :
    readMembers n (printMembers ms ++ 125 :: s) = some (ms, s) := by
  induction ms generalizing n with
  | nil => exact absurd rfl hne
  | cons m ms ih =>
    obtain ⟨n, rfl⟩ : ∃ k, n = k + 1 := ⟨n - 1, by omega⟩
    obtain ⟨hk, hv⟩ := h m (.head _)
    cases ms with
    | nil =>
      have hread : readMember n (printMember m ++ 125 :: s) = some (m, 125 :: s) :=
        readMember_print hk hv (by rw [printMembers] at hn; omega) (fun c hc => by cases hc; decide)
      rw [printMembers, readMembers, hread]
      rfl
    | cons k ms =>
      rw [printMembers_length] at hn
      have hread : readMember n (printMember m ++ 44 :: (printMembers (k :: ms) ++ 125 :: s)) =
          some (m, 44 :: (printMembers (k :: ms) ++ 125 :: s)) :=
        readMember_print hk hv (by omega) (fun c hc => by cases hc; decide)
      have hrest := ih (List.cons_ne_nil _ _) (fun u hu => h u (List.mem_cons_of_mem m hu))
        (n := n) (by omega)
      rw [printMembers, List.append_assoc, List.cons_append, readMembers, hread]
      simp only [Option.bind_some]
      rw [if_neg (by decide), if_pos trivial, hrest]
      rfl

theorem readObject_print (h : MembersWf ms) : readObject (printObject ms) = some ms := by
  unfold printObject
  rw [readObject, if_neg (by simp)]
  by_cases hne : ms = []
  · subst hne
    rfl
  · have hlong : printMembers ms ++ [125] ≠ [125] := by
      obtain ⟨m, ms, rfl⟩ := List.exists_cons_of_ne_nil hne
      cases ms with
      | nil => simp [printMembers, printMember]
      | cons k ms => simp [printMembers, printMember]
    rw [if_neg hlong, readMembers_print hne h (by grind)]
    rfl

theorem printObject_inj (h : MembersWf ms) (h' : MembersWf ms')
    (he : printObject ms = printObject ms') : ms = ms' := by
  have := readObject_print h
  rw [he, readObject_print h'] at this
  exact (Option.some.inj this).symm

example : readObject (printObject [([97], .array [.null, .number [49]]), ([98], .array [])]) =
    some [([97], .array [.null, .number [49]]), ([98], .array [])] := by rfl

end Json
