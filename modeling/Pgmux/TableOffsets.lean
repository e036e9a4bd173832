import Pgmux.Scanning
import Pgmux.Script
import Pgmux.Tables
import Pgmux.Words

namespace Pgmux

section Runs

theorem slices_eq (s : Bytes) (cuts : List Nat) : slices s cuts = sliceFrom s cuts.sum := by
  induction cuts generalizing s with
  | nil => simp [slices, sliceFrom]
  | cons i cuts ih =>
    rw [slices, List.sum_cons]
    unfold sliceFrom
    by_cases hi : i ≤ s.length
    · rw [if_pos hi, Option.bind_some, ih, sliceFrom, List.length_drop, List.drop_drop]
      congr 1
      simp only [eq_iff_iff]
      omega
    · rw [if_neg hi, if_neg (by omega)]
      rfl

/-- A text that was read, with the offset behind which it stands in the upper-cased one. -/
structure Read where
  text : Bytes
  stop : Nat
  tail : Bytes

/-- The texts that the code reads, up to a slice that is out of range. -/
def Extraction.reads : Extraction α → List Read
  | .done _ => []
  | .read s cuts next =>
    match slices s cuts with
    | some t => ⟨s, cuts.sum, t⟩ :: (next t).reads
    | none => []

variable [CaseTable]

def firstRune (c : UInt8) (s : Bytes) : Nat × Nat :=
  if c < 0x80 then (c.toNat, 1)
  else
    match multibyte c s with
    | some (r, t) => (r, 1 + s.length - t.length)
    | none => (runeError, 1)

/-- What is left of a text behind the runes that have `e` bytes in upper case. -/
def followFrom : Nat → Nat → Bytes → Option Bytes
  | skip + 1, e, _ :: s => followFrom skip e s
  | 0, 0, s => some s
  | _, _, [] => none
  | 0, e + 1, c :: s =>
    let r := firstRune c s
    let width := (encodeRune (CaseTable.upper r.1)).length
    if width ≤ e + 1 then followFrom (r.2 - 1) (e + 1 - width) s else none

/-- The text that follows the first `e` bytes of the upper-cased text. -/
def follow (s : Bytes) (e : Nat) : Option Bytes := followFrom 0 e s

/-- The runes that have `e` bytes in upper case have as many in the text. -/
def Level (s : Bytes) (e : Nat) : Prop := ∃ t, follow s e = some t ∧ t.length + e = s.length

/-- The offsets behind which the texts stand that the keywords of a query are followed by. -/
def Extraction.stops : Extraction α → List (Bytes × Nat)
  | .done _ => []
  | .read s cuts next => (s, cuts.sum) ::
    match follow s cuts.sum with
    | some t => (next t).stops
    | none => []

theorem followFrom_suffix (h : followFrom skip e s = some t) : t <:+ s := by
  fun_induction followFrom skip e s with
  | case1 skip e c s ih => exact (ih h).trans (List.suffix_cons c s)
  | case2 s => exact Option.some.inj h ▸ List.suffix_refl _
  | case3 => cases h
  | case4 e c s r width hw ih => exact (ih h).trans (List.suffix_cons c s)
  | case5 => cases h

omit [CaseTable] in
theorem runes_firstRune (c : UInt8) (s : Bytes) :
    runes (c :: s) = (firstRune c s).1 :: runes (s.drop ((firstRune c s).2 - 1)) := by
  unfold firstRune
  by_cases hc : c < 0x80
  · rw [if_pos hc, runes_ascii hc]
    rfl
  · rw [if_neg hc, runes_multibyte hc]
    cases hm : multibyte c s with
    | none => rfl
    | some p =>
      obtain ⟨a, rfl⟩ := multibyte_suffix hm
      have hlen : 1 + (a ++ p.2).length - p.2.length - 1 = a.length := by
        rw [List.length_append]
        omega
      dsimp only
      rw [hlen, List.drop_left]

theorem followFrom_upper (h : followFrom skip e s = some t) :
    toUpper t = (toUpper (s.drop skip)).drop e := by
  fun_induction followFrom skip e s with
  | case1 skip e c s ih => exact ih h
  | case2 s => exact congrArg toUpper (Option.some.inj h).symm
  | case3 => cases h
  | case4 e c s r width hw ih =>
    rw [ih h, List.drop_zero, toUpper_rune (runes_firstRune c s), List.drop_append,
      List.drop_of_length_le hw, List.nil_append]
  | case5 => cases h

/-- A slice at an offset of the upper-cased text is what follows there exactly if the bytes in
front are as many. -/
theorem level_iff : Level s e ↔ ∃ t, sliceFrom s e = some t ∧ follow s e = some t := by
  constructor
  · rintro ⟨t, hf, hlen⟩
    obtain ⟨a, rfl⟩ := followFrom_suffix hf
    rw [List.length_append, Nat.add_comm, Nat.add_right_cancel_iff] at hlen
    refine ⟨t, ?_, hf⟩
    rw [sliceFrom, if_pos (by rw [List.length_append, hlen]; omega), hlen, List.drop_left]
  · rintro ⟨t, hs, hf⟩
    refine ⟨t, hf, ?_⟩
    rw [sliceFrom] at hs
    split at hs
    · rename_i hle
      rw [← Option.some.inj hs, List.length_drop]
      omega
    · cases hs

/-- The extraction returns, and each text that it reads is the one that follows its keyword. -/
structure Extraction.Sound (p : Extraction α) : Prop where
  returns : p.run.isSome = true
  follows : ∀ r ∈ p.reads, follow r.text r.stop = some r.tail

theorem Extraction.sound_iff (p : Extraction α) : p.Sound ↔ ∀ v ∈ p.stops, Level v.1 v.2 := by
  induction p with
  | done a =>
    constructor
    · intro _ v hv
      cases hv
    · intro _
      exact ⟨rfl, by simp [Extraction.reads]⟩
  | read s cuts next ih =>
    by_cases hl : Level s cuts.sum
    · obtain ⟨t, hs, hf⟩ := level_iff.mp hl
      rw [← slices_eq] at hs
      rw [Extraction.stops, List.forall_mem_cons, hf, and_iff_right hl, ← ih t]
      constructor
      · rintro ⟨hrun, hreads⟩
        rw [Extraction.run, hs] at hrun
        rw [Extraction.reads, hs, List.forall_mem_cons] at hreads
        exact ⟨hrun, hreads.2⟩
      · rintro ⟨hrun, hreads⟩
        refine ⟨?_, ?_⟩
        · rw [Extraction.run, hs]
          exact hrun
        · rw [Extraction.reads, hs, List.forall_mem_cons]
          exact ⟨hf, hreads⟩
    · constructor
      · rintro ⟨hrun, hreads⟩
        exfalso
        cases hs : slices s cuts with
        | none =>
          rw [Extraction.run, hs] at hrun
          cases hrun
        | some t =>
          rw [Extraction.reads, hs, List.forall_mem_cons] at hreads
          rw [slices_eq] at hs
          exact hl (level_iff.mpr ⟨t, hs, hreads.1⟩)
      · intro hall
        rw [Extraction.stops, List.forall_mem_cons] at hall
        exact absurd hall.1 hl

end Runs

section Stops

variable [CaseTable]

def Extraction.intended : Extraction α → Option α
  | .done a => some a
  | .read s cuts next => (follow s cuts.sum).bind fun t => (next t).intended

def Extraction.Levels (p : Extraction α) : Prop := ∀ v ∈ p.stops, Level v.1 v.2

theorem levels_read {next : Bytes → Extraction α} (hf : follow s cuts.sum = some t) :
    (Extraction.read s cuts next).Levels ↔ Level s cuts.sum ∧ (next t).Levels := by
  rw [Extraction.Levels, Extraction.stops, List.forall_mem_cons, hf]
  rfl

theorem not_levels_read {next : Bytes → Extraction α} (hf : follow s cuts.sum = none) :
    ¬ (Extraction.read s cuts next).Levels := by
  intro h
  obtain ⟨t, ht, -⟩ := h (s, cuts.sum) (by rw [Extraction.stops]; exact .head _)
  rw [hf] at ht
  cases ht

theorem levels_bind (p : Extraction α) (f : α → Extraction β) :
    (p.bind f).Levels ↔ p.Levels ∧ ∀ a, p.intended = some a → (f a).Levels := by
  induction p with
  | done a => simp [Extraction.bind, Extraction.Levels, Extraction.stops, Extraction.intended]
  | read s cuts next ih =>
    rw [Extraction.bind]
    cases hf : follow s cuts.sum with
    | none =>
      constructor
      · intro h
        exact absurd h (not_levels_read hf)
      · rintro ⟨h, -⟩
        exact absurd h (not_levels_read hf)
    | some t =>
      rw [levels_read hf, levels_read hf, ih t, Extraction.intended, hf,
        Option.bind_some, and_assoc]

theorem intended_bind (p : Extraction α) (f : α → Extraction β) :
    (p.bind f).intended = p.intended.bind fun a => (f a).intended := by
  induction p with
  | done a => rfl
  | read s cuts next ih =>
    rw [Extraction.bind, Extraction.intended, Extraction.intended]
    cases follow s cuts.sum with
    | none => rfl
    | some t => exact ih t

theorem levels_done (a : α) : (Extraction.done a).Levels := by
  intro v hv
  cases hv

theorem levels_map (p : Extraction α) (g : α → β) : (g <$> p).Levels ↔ p.Levels := by
  change (p.bind fun a => .done (g a)).Levels ↔ _
  rw [levels_bind]
  exact and_iff_left fun a _ => levels_done (g a)

theorem levels_cut : (cut s cuts).Levels ↔ Level s cuts.sum := by
  rw [cut]
  cases hf : follow s cuts.sum with
  | none =>
    constructor
    · intro h
      exact absurd h (not_levels_read hf)
    · rintro ⟨t, ht, -⟩
      rw [hf] at ht
      cases ht
  | some t =>
    rw [levels_read hf]
    exact and_iff_left (levels_done t)

theorem intended_cut (s : Bytes) (cuts : List Nat) : (cut s cuts).intended = follow s cuts.sum := by
  rw [cut, Extraction.intended]
  cases follow s cuts.sum <;> rfl

theorem levels_intended {p : Extraction α} (h : p.Levels) : ∃ a, p.intended = some a := by
  induction p with
  | done a => exact ⟨a, rfl⟩
  | read s cuts next ih =>
    cases hf : follow s cuts.sum with
    | none => exact absurd h (not_levels_read hf)
    | some t =>
      obtain ⟨a, ha⟩ := ih t ((levels_read hf).mp h).2
      exact ⟨a, by rw [Extraction.intended, hf]; exact ha⟩

theorem levels_gather (f : β → Extraction (List α)) (xs : List β) :
    (gather f xs).Levels ↔ ∀ x ∈ xs, (f x).Levels := by
  induction xs with
  | nil => simp [gather, levels_done, pure]
  | cons x xs ih =>
    rw [gather, List.forall_mem_cons, ← ih]
    change ((f x).bind fun a => (gather f xs).bind fun rest => .done (a ++ rest)).Levels ↔ _
    rw [levels_bind]
    have hrest (a : List α) : ((gather f xs).bind fun rest => .done (a ++ rest)).Levels ↔
        (gather f xs).Levels := levels_map (gather f xs) (a ++ ·)
    simp only [hrest]
    constructor
    · rintro ⟨hx, hxs⟩
      obtain ⟨a, ha⟩ := levels_intended hx
      exact ⟨hx, hxs a ha⟩
    · rintro ⟨hx, hxs⟩
      exact ⟨hx, fun _ _ => hxs⟩

def tableEnds (rest : Bytes) : List (Bytes × Nat) :=
  if hasPrefix (toUpper rest) (ascii "TABLE ") then [(rest, 6)] else []

def afterEnds (text : Bytes) (e : Nat) : List (Bytes × Nat) :=
  (text, e) :: (follow text e).toList.flatMap fun tail => tableEnds (trimSpace tail)

theorem levels_skipTable (rest : Bytes) :
    (skipTable rest).Levels ↔ ∀ v ∈ tableEnds rest, Level v.1 v.2 := by
  unfold skipTable tableEnds
  split
  · rw [levels_map, levels_cut, List.forall_mem_singleton]
    rfl
  · simp [levels_done, pure]

theorem levels_extractAfter (text : Bytes) (start : List Nat) (keyword : Bytes) :
    (extractAfter text start keyword).Levels ↔
      ∀ v ∈ afterEnds text (start ++ [keyword.length]).sum, Level v.1 v.2 := by
  unfold extractAfter
  change ((cut text (start ++ [keyword.length])).bind fun tail =>
    nameAt <$> skipTable (trimSpace tail)).Levels ↔ _
  rw [levels_bind, levels_cut, intended_cut, afterEnds, List.forall_mem_cons]
  apply and_congr_right
  rintro ⟨t, hf, -⟩
  rw [hf]
  simp only [Option.some.injEq, forall_eq', levels_map, levels_skipTable, Option.toList_some,
    List.flatMap_singleton]

/-- The name that the text behind an offset of the upper-cased one starts with. -/
def nameBehind (text : Bytes) (e : Nat) : Option Bytes :=
  ((follow text e).bind fun tail => (skipTable (trimSpace tail)).intended).map nameAt

theorem intended_extractAfter (text : Bytes) (start : List Nat) (keyword : Bytes) :
    (extractAfter text start keyword).intended =
      nameBehind text (start ++ [keyword.length]).sum := by
  unfold extractAfter nameBehind
  change ((cut text (start ++ [keyword.length])).bind fun tail =>
    (skipTable (trimSpace tail)).bind fun rest => .done (nameAt rest)).intended = _
  rw [intended_bind, intended_cut, Option.map_bind]
  congr 1
  funext tail
  rw [intended_bind, Function.comp]
  cases (skipTable (trimSpace tail)).intended <;> rfl

def explainEnds (q upper : Bytes) : List Bytes → List (Bytes × Nat)
  | [] => []
  | kw :: more =>
    match index kw upper with
    | none => explainEnds q upper more
    | some idx => afterEnds q (idx + kw.length) ++
        if nameBehind q (idx + kw.length) = some [] then explainEnds q upper more else []

theorem levels_explainFrom (q upper : Bytes) (kws : List Bytes) :
    (explainFrom q upper kws).Levels ↔ ∀ v ∈ explainEnds q upper kws, Level v.1 v.2 := by
  induction kws with
  | nil => simp [explainFrom, explainEnds, levels_done, pure]
  | cons kw more ih =>
    rw [explainFrom, explainEnds]
    cases index kw upper with
    | none => exact ih
    | some idx =>
      change ((extractAfter q [idx] kw).bind fun t =>
        if t = [] then explainFrom q upper more else .done [t]).Levels ↔ _
      rw [levels_bind, levels_extractAfter, intended_extractAfter, List.forall_mem_append]
      have hsum : ([idx] ++ [kw.length]).sum = idx + kw.length := by simp
      rw [hsum]
      apply and_congr_right'
      cases hn : nameBehind q (idx + kw.length) with
      | none => simp
      | some t =>
        by_cases ht : t = []
        · simpa [ht] using ih
        · simp [ht, levels_done]

end Stops

section Loop

theorem occurrences_skip (kw x s : Bytes) (i : Nat) :
    occurrences kw x.length i (x ++ s) = occurrences kw 0 (i + x.length) s := by
  induction x generalizing i with
  | nil => rfl
  | cons c x ih =>
    rw [List.cons_append, List.length_cons, occurrences, ih]
    congr 1
    omega

theorem occurrences_split (hkw : kw ≠ []) (i : Nat) (s : Bytes) :
    (occurrences kw 0 i s = []) ∨ ∃ a b, s = a ++ kw ++ b ∧
      occurrences kw 0 i s =
        (i + a.length) :: occurrences kw 0 (i + a.length + kw.length) b := by
  induction s generalizing i with
  | nil => exact .inl rfl
  | cons c s ih =>
    rw [occurrences]
    split
    · rename_i hp
      obtain ⟨b, hb⟩ := List.isPrefixOf_iff_prefix.mp hp
      obtain ⟨k, kw, rfl⟩ := List.exists_cons_of_ne_nil hkw
      rw [List.cons_append] at hb
      obtain ⟨rfl, rfl⟩ := List.cons.inj hb
      refine .inr ⟨[], b, rfl, ?_⟩
      have hlen : (k :: kw).length - 1 = kw.length := rfl
      rw [hlen, occurrences_skip, List.length_nil, List.length_cons]
      congr 2
      omega
    · rcases ih (i + 1) with h | ⟨a, b, rfl, h⟩
      · exact .inl h
      · refine .inr ⟨c :: a, b, rfl, ?_⟩
        rw [h, List.length_cons]
        congr 1
        · omega
        · congr 1
          omega

theorem occurrences_none (h : ¬ kw <:+: s) (i : Nat) : occurrences kw 0 i s = [] := by
  induction s generalizing i with
  | nil => rfl
  | cons c s ih =>
    rw [List.infix_cons_iff, not_or] at h
    rw [occurrences, if_neg fun hp => h.1 (List.isPrefixOf_iff_prefix.mp hp)]
    exact ih h.2 (i + 1)

variable [CaseTable]

theorem not_infix_of_white (hne : kw ≠ []) (hkw : ∀ c ∈ kw, c < 0x80 ∧ solid c)
    (h : trimSpace s = []) : ¬ kw <:+: toUpper s := by
  intro hin
  obtain ⟨u, hu, hf, rfl⟩ := exists_folds_of_infix hin fun c hc => (hkw c hc).1
  have hsolid {c : UInt8} (hc : c ∈ u) (hs : solid c) : False := by
    have := mem_trimSpace_of_solid hs (hu.subset hc)
    rw [h] at this
    cases this
  cases hf with
  | nil => exact hne rfl
  | @ascii c v hc hv =>
    have hmem := (Folds.ascii hc hv).upper_mem (.head _) hc
    exact hsolid (.head _) (solid_of_upperByte (hkw _ hmem).2)
  | dotlessI hv => exact hsolid (.head _) (by decide)
  | longS hv => exact hsolid (.head _) (by decide)

theorem levels_readTablesFrom (hne : kw ≠ []) (hkw : ∀ c ∈ kw, c < 0x80 ∧ solid c)
    (s pre u : Bytes) (hup : toUpper s = pre ++ u) :
    (readTablesFrom s (toUpper s) kw (occurrences kw 0 pre.length u)).Levels ↔
      ∀ idx ∈ occurrences kw 0 pre.length u, isWordAt kw (toUpper s) idx →
        Level s (idx + kw.length) := by
  induction hn : u.length using Nat.strong_induction_on generalizing pre u with
  | h n ih =>
    rcases occurrences_split hne pre.length u with hnil | ⟨a, b, rfl, hocc⟩
    · rw [hnil]
      simp [readTablesFrom, levels_done, pure]
    · have hpos := List.length_pos_of_ne_nil hne
      have hmore := ih b.length (by rw [← hn]; simp; omega) (pre ++ a ++ kw) b (by simp [hup]) rfl
      have hlen : (pre ++ a ++ kw).length = pre.length + a.length + kw.length := by
        simp only [List.length_append]
      rw [hlen] at hmore
      rw [hocc, List.forall_mem_cons, readTablesFrom]
      cases hw : isWordAt kw (toUpper s) (pre.length + a.length) with
      | false => simpa using hmore
      | true =>
        change ((cut s [pre.length + a.length + kw.length]).bind fun tail =>
          if trimSpace tail = [] then .done [] else (readTable (trimSpace tail) ++ ·) <$>
            readTablesFrom s (toUpper s) kw (occurrences kw 0 _ b)).Levels ↔ _
        rw [levels_bind, levels_cut, intended_cut, List.sum_singleton, hmore.symm]
        simp only [forall_const]
        apply and_congr_right
        rintro ⟨t, hf, -⟩
        rw [hf]
        simp only [Option.some.injEq, forall_eq']
        split
        · rename_i hwhite
          -- nothing is left to be found in white space
          have hb : toUpper t = b := by
            rw [followFrom_upper hf, List.drop_zero, hup]
            simp [← List.append_assoc]
          rw [occurrences_none (by rw [← hb]; exact not_infix_of_white hne hkw hwhite)]
          exact ⟨fun _ => levels_done [], fun _ => levels_done []⟩
        · exact levels_map _ _

def readEnds (stmt : Bytes) : List (Bytes × Nat) :=
  let q := trimSpace stmt
  if !hasPrefix (toUpper q) (ascii "SELECT") && !hasPrefix (toUpper q) (ascii "WITH") then []
  else
    let sanitized := stripStringLiterals q
    [ascii "FROM", ascii "JOIN"].flatMap fun kw =>
      ((occurrences kw 0 0 (toUpper sanitized)).filter (isWordAt kw (toUpper sanitized))).map
        fun idx => (sanitized, idx + kw.length)

theorem levels_readStmt (stmt : Bytes) : (extractReadTablesFromStmt stmt).Levels ↔
    ∀ v ∈ readEnds stmt, Level v.1 v.2 := by
  unfold extractReadTablesFromStmt readEnds
  dsimp only
  split
  · simp [levels_done, pure]
  · have hplain : ∀ kw ∈ [ascii "FROM", ascii "JOIN"],
        kw ≠ [] ∧ ∀ c ∈ kw, c < 0x80 ∧ solid c := by decide
    have hloop (kw : Bytes) (hkw : kw ∈ [ascii "FROM", ascii "JOIN"]) :=
      levels_readTablesFrom (hplain kw hkw).1 (hplain kw hkw).2
        (stripStringLiterals (trimSpace stmt)) [] _ rfl
    rw [levels_gather, List.forall_mem_flatMap]
    apply forall₂_congr
    intro kw hkw
    refine (hloop kw hkw).trans ?_
    simp only [List.forall_mem_map, List.mem_filter, and_imp]
    rfl

def writeEnds (stmt : Bytes) : List (Bytes × Nat) :=
  let q := trimSpace stmt
  let upper := toUpper q
  match [ascii "INSERT INTO", ascii "UPDATE", ascii "DELETE FROM", ascii "TRUNCATE",
    ascii "MERGE INTO", ascii "MERGE"].find? (hasPrefix upper) with
  | some kw => afterEnds q kw.length
  | none =>
    if hasPrefix upper (ascii "COPY") then [(q, 4)]
    else if hasPrefix upper (ascii "EXPLAIN") then
      if !contains upper (ascii "ANALYZE") then []
      else explainEnds q upper [ascii "INSERT INTO", ascii "UPDATE", ascii "DELETE FROM",
        ascii "MERGE INTO", ascii "MERGE"]
    else if hasPrefix upper (ascii "WITH") then
      let sanitized := stripStringLiterals q
      [ascii "INSERT INTO", ascii "UPDATE", ascii "DELETE FROM"].flatMap fun kw =>
        (occurrences kw 0 0 (toUpper sanitized)).flatMap fun idx =>
          afterEnds sanitized (idx + kw.length)
    else []

theorem levels_writeStmt (stmt : Bytes) : (extractTablesFromStmt stmt).Levels ↔
    ∀ v ∈ writeEnds stmt, Level v.1 v.2 := by
  have hafter (q kw : Bytes) : ((fun t => [t]) <$> extractAfter q [] kw).Levels ↔
      ∀ v ∈ afterEnds q kw.length, Level v.1 v.2 := by
    rw [levels_map, levels_extractAfter, List.nil_append, List.sum_singleton]
  have hcopy (q : Bytes) : (extractCopyTable q).Levels ↔ ∀ v ∈ [(q, 4)], Level v.1 v.2 := by
    rw [List.forall_mem_singleton]
    exact (levels_map (cut q [4]) _).trans levels_cut
  have hexplain (q upper : Bytes) : (extractExplainTables q upper).Levels ↔
      ∀ v ∈ if !contains upper (ascii "ANALYZE") then []
        else explainEnds q upper [ascii "INSERT INTO", ascii "UPDATE", ascii "DELETE FROM",
          ascii "MERGE INTO", ascii "MERGE"], Level v.1 v.2 := by
    unfold extractExplainTables
    split
    · simp [levels_done, pure]
    · exact levels_explainFrom q upper _
  have hcte (q : Bytes) : (extractCTETables q).Levels ↔
      ∀ v ∈ [ascii "INSERT INTO", ascii "UPDATE", ascii "DELETE FROM"].flatMap fun kw =>
        (occurrences kw 0 0 (toUpper (stripStringLiterals q))).flatMap fun idx =>
          afterEnds (stripStringLiterals q) (idx + kw.length), Level v.1 v.2 := by
    unfold extractCTETables
    rw [levels_gather, List.forall_mem_flatMap]
    apply forall₂_congr
    intro kw _
    rw [levels_gather, List.forall_mem_flatMap]
    apply forall₂_congr
    intro idx _
    rw [levels_map, levels_extractAfter]
    simp
  unfold extractTablesFromStmt writeEnds
  simp only [List.find?_cons, List.find?_nil]
  cases hasPrefix (toUpper (trimSpace stmt)) (ascii "INSERT INTO")
  case true => exact hafter _ _
  cases hasPrefix (toUpper (trimSpace stmt)) (ascii "UPDATE")
  case true => exact hafter _ _
  cases hasPrefix (toUpper (trimSpace stmt)) (ascii "DELETE FROM")
  case true => exact hafter _ _
  cases hasPrefix (toUpper (trimSpace stmt)) (ascii "TRUNCATE")
  case true => exact hafter _ _
  cases hasPrefix (toUpper (trimSpace stmt)) (ascii "MERGE INTO")
  case true => exact hafter _ _
  cases hasPrefix (toUpper (trimSpace stmt)) (ascii "MERGE")
  case true => exact hafter _ _
  cases hasPrefix (toUpper (trimSpace stmt)) (ascii "COPY")
  case true => exact hcopy _
  cases hasPrefix (toUpper (trimSpace stmt)) (ascii "EXPLAIN")
  case true => exact hexplain _ _
  cases hasPrefix (toUpper (trimSpace stmt)) (ascii "WITH")
  case true => exact hcte _
  simp [levels_done, pure]

/-- Both extractions return and read the names from the texts that follow their keywords exactly
if for each of these keywords the runes up to its end have as many bytes in upper case as in the
text. -/
theorem table_offsets_iff (query : Bytes) :
    (extractReadTables query).Sound ∧ (extractTables query).Sound ↔
      ∀ stmt ∈ splitStatements query, ∀ v ∈ readEnds stmt ++ writeEnds stmt, Level v.1 v.2 := by
  have hread : (extractReadTables query).Sound ↔
      ∀ stmt ∈ splitStatements query, ∀ v ∈ readEnds stmt, Level v.1 v.2 := by
    rw [Extraction.sound_iff]
    refine (levels_map _ _).trans ((levels_gather _ _).trans ?_)
    simp only [levels_readStmt]
  have hwrite : (extractTables query).Sound ↔
      ∀ stmt ∈ splitStatements query, ∀ v ∈ writeEnds stmt, Level v.1 v.2 := by
    rw [Extraction.sound_iff]
    refine (levels_map _ _).trans ((levels_gather _ _).trans ?_)
    simp only [levels_writeStmt]
  rw [hread, hwrite]
  simp only [List.forall_mem_append, forall_and]

end Loop

/-- Case mappings with two letters whose upper case has another number of bytes. -/
@[reducible] def letterCase : CaseTable where
  upper r := if r = 0x250 then 0x2C6F else if r = 0x131 then 0x49 else asciiCase.upper r
  lower := asciiCase.lower
  upper_ascii c hc := by
    have hlt : c.toNat < 128 := hc
    rw [if_neg (by omega), if_neg (by omega)]
    exact asciiCase.upper_ascii c hc
  lower_ascii := asciiCase.lower_ascii
  upper_small r h := by
    split at h
    · exact absurd h (by decide)
    split at h
    · rename_i hr
      exact .inr (.inl hr)
    · exact asciiCase.upper_small r h
  lower_small := asciiCase.lower_small

/-- Three letters that grow in upper case move the offset of FROM out of the text, two move it
into the name, and a dotless i in the keyword moves it into the keyword. -/
theorem grown_letters_panic :
    let _ := letterCase
    let grown := [0xC9, 0x90]
    (extractReadTables (ascii "SELECT " ++ grown ++ grown ++ grown ++ ascii " FROM t")).run = none ∧
      (extractReadTables (ascii "SELECT " ++ grown ++ grown ++ ascii " FROM users")).run =
        some [ascii "sers"] ∧
      (extractTables ([0xC4, 0xB1] ++ ascii "NSERT INTO t")).run = some [ascii "o"] := by
  decide +kernel

end Pgmux
