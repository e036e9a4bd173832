import Pgmux.Trim

namespace Pgmux

def solid (c : UInt8) : Bool :=
  !isAsciiSpace c && (decide (c < 0x80) ||
    (decide (0xB0 ≤ c) && !(c == 0xC2 || c == 0xE1 || c == 0xE2 || c == 0xE3)))

structure Unspaced (two : UInt8 → UInt8 → Bool) (three : UInt8 → UInt8 → UInt8 → Bool)
    (c : UInt8) : Prop where
  one : isAsciiSpace c = false
  two : ∀ d, two c d = false ∧ two d c = false
  three : ∀ d e, three c d e = false ∧ three d c e = false ∧ three d e c = false

theorem solid_iff : solid c ↔ isAsciiSpace c = false ∧ (c.toNat < 0x80 ∨ (0xB0 ≤ c.toNat ∧
    c.toNat ≠ 0xC2 ∧ c.toNat ≠ 0xE1 ∧ c.toNat ≠ 0xE2 ∧ c.toNat ≠ 0xE3)) := by
  simp [solid, UInt8.lt_iff_toNat_lt, UInt8.le_iff_toNat_le, ← UInt8.toNat_inj, and_assoc]

theorem solid_of_upperByte (h : solid (upperByte c)) : solid c := by
  have hall : ∀ c, solid (upperByte c) → solid c := forall_byte (by decide +kernel)
  exact hall c h

theorem isSpace2_bounds (h : isSpace2 c d) :
    c.toNat = 0xC2 ∧ 0x80 ≤ d.toNat ∧ d.toNat < 0xB0 := by
  simp [isSpace2, ← UInt8.toNat_inj] at h
  omega

theorem isSpace3_bounds (h : isSpace3 c d e) :
    (c.toNat = 0xE1 ∨ c.toNat = 0xE2 ∨ c.toNat = 0xE3) ∧ (0x80 ≤ d.toNat ∧ d.toNat < 0xB0) ∧
      0x80 ≤ e.toNat ∧ e.toNat < 0xB0 := by
  simp [isSpace3, UInt8.le_iff_toNat_le, ← UInt8.toNat_inj] at h
  omega

theorem unspaced_of_solid (h : solid c) : Unspaced isSpace2 isSpace3 c := by
  obtain ⟨hone, hrange⟩ := solid_iff.mp h
  refine ⟨hone, fun d => ⟨?_, ?_⟩, fun d e => ⟨?_, ?_, ?_⟩⟩
  all_goals
    rw [← Bool.not_eq_true]
    intro hs
  · have := isSpace2_bounds hs
    omega
  · have := isSpace2_bounds hs
    omega
  all_goals
    have := isSpace3_bounds hs
    omega

theorem Unspaced.swap {two : UInt8 → UInt8 → Bool} {three : UInt8 → UInt8 → UInt8 → Bool}
    (h : Unspaced two three c) : Unspaced (fun c d => two d c) (fun c d e => three e d c) c where
  one := h.one
  two d := (h.two d).symm
  three d e := ⟨(h.three e d).2.2, (h.three e d).2.1, (h.three e d).1⟩

section Forms

variable {two : UInt8 → UInt8 → Bool} {three : UInt8 → UInt8 → UInt8 → Bool}

theorem dropSpace_one (h : isAsciiSpace c) (s : Bytes) :
    dropSpace two three (c :: s) = dropSpace two three s := by
  rcases s with _ | ⟨d, _ | ⟨e, s⟩⟩ <;> simp [dropSpace, h]

theorem dropSpace_two (h : isAsciiSpace c = false) (h₂ : two c d) (s : Bytes) :
    dropSpace two three (c :: d :: s) = dropSpace two three s := by
  rcases s with _ | ⟨e, s⟩ <;> simp [dropSpace, h, h₂]

theorem dropSpace_three (h : isAsciiSpace c = false) (h₂ : two c d = false)
    (h₃ : three c d e) (s : Bytes) :
    dropSpace two three (c :: d :: e :: s) = dropSpace two three s := by
  simp [dropSpace, h, h₂, h₃]

theorem dropSpace_blank (h : ∀ c ∈ r, isAsciiSpace c) (s : Bytes) :
    dropSpace two three (r ++ s) = dropSpace two three s := by
  induction r with
  | nil => rfl
  | cons c r ih =>
    rw [List.cons_append, dropSpace_one (h c (.head _)),
      ih fun c hc => h c (.tail _ hc)]

theorem Unspaced.not_starts (h : Unspaced two three c) (s : Bytes) :
    ¬ StartsSpace two three (c :: s) := by
  intro hs
  cases hs with
  | one hc => rw [h.one] at hc; cases hc
  | two hc => rw [(h.two _).1] at hc; cases hc
  | three hc => rw [(h.three _ _).1] at hc; cases hc

/-- The byte goes on no white space that starts before it. -/
structure Detached (two : UInt8 → UInt8 → Bool) (three : UInt8 → UInt8 → UInt8 → Bool)
    (c : UInt8) : Prop where
  two : ∀ d, two d c = false
  three : ∀ d e, three d c e = false ∧ three d e c = false

/-- White space is dropped past such a byte only if nothing else comes before the byte. -/
theorem Detached.dropSpace (h : Detached two three c) (x s : Bytes) :
    dropSpace two three (x ++ c :: s) =
      if dropSpace two three x = [] then dropSpace two three (c :: s)
      else dropSpace two three x ++ c :: s := by
  fun_induction Pgmux.dropSpace two three x with
  | case1 => rfl
  | case2 a ha =>
    rw [List.singleton_append, dropSpace_one ha]
    rfl
  | case3 a ha =>
    rw [if_neg (List.cons_ne_nil _ _)]
    apply dropSpace_eq_self
    intro hs
    cases hs with
    | one ha' => exact ha ha'
    | two h₂ => rw [h.two a] at h₂; cases h₂
    | three h₃ => rw [(h.three a _).1] at h₃; cases h₃
  | case4 a b ha ih =>
    rw [List.cons_append, dropSpace_one ha]
    exact ih
  | case5 a b ha h₂ =>
    rw [List.cons_append, List.singleton_append, dropSpace_two (Bool.eq_false_iff.mpr ha) h₂]
    rfl
  | case6 a b ha h₂ =>
    rw [if_neg (List.cons_ne_nil _ _)]
    apply dropSpace_eq_self
    intro hs
    cases hs with
    | one ha' => exact ha ha'
    | two h₂' => exact h₂ h₂'
    | three h₃ => rw [(h.three a b).2] at h₃; cases h₃
  | case7 a b e x ha ih =>
    rw [List.cons_append, dropSpace_one ha]
    exact ih
  | case8 a b e x ha h₂ ih =>
    rw [List.cons_append, List.cons_append, dropSpace_two (Bool.eq_false_iff.mpr ha) h₂]
    exact ih
  | case9 a b e x ha h₂ h₃ ih =>
    rw [List.cons_append, List.cons_append, List.cons_append,
      dropSpace_three (Bool.eq_false_iff.mpr ha) (Bool.eq_false_iff.mpr h₂) h₃]
    exact ih
  | case10 a b e x ha h₂ h₃ =>
    rw [if_neg (List.cons_ne_nil _ _)]
    apply dropSpace_eq_self
    intro hs
    cases hs with
    | one ha' => exact ha ha'
    | two h₂' => exact h₂ h₂'
    | three h₃' => exact h₃ h₃'

theorem Unspaced.dropSpace (h : Unspaced two three c) (r t : Bytes) :
    dropSpace two three (r ++ c :: t) = dropSpace two three r ++ c :: t := by
  have hdetached : Detached two three c := ⟨fun d => (h.two d).2, fun d e => (h.three d e).2⟩
  rw [hdetached.dropSpace, dropSpace_eq_self (h.not_starts t)]
  split
  · rename_i hr
    rw [hr]
    rfl
  · rfl

end Forms

theorem trimLeft_solid (h : solid c) (s : Bytes) : trimLeft (c :: s) = c :: s :=
  dropSpace_eq_self ((unspaced_of_solid h).not_starts s)

theorem trimRight_solid (h : solid c) (s x : Bytes) :
    trimRight (s ++ c :: x) = s ++ c :: trimRight x := by
  unfold trimRight
  rw [List.reverse_append, List.reverse_cons, List.append_assoc, List.singleton_append,
    (unspaced_of_solid h).swap.dropSpace]
  simp

theorem trimSpace_solid (h : ∀ c ∈ s, solid c) : trimSpace s = s := by
  rcases List.eq_nil_or_concat s with rfl | ⟨s, c, rfl⟩
  · rfl
  · rw [List.concat_eq_append] at h ⊢
    have hleft : trimLeft (s ++ [c]) = s ++ [c] := by
      cases s with
      | nil => exact trimLeft_solid (h c (by simp)) []
      | cons d s => exact trimLeft_solid (h d (by simp)) _
    rw [trimSpace, hleft, trimRight_solid (h c (by simp))]
    rfl

theorem mem_trimSpace_of_solid (h : solid c) (hc : c ∈ s) : c ∈ trimSpace s := by
  obtain ⟨a, b, rfl⟩ := List.append_of_mem hc
  rw [trimSpace, trimLeft, (unspaced_of_solid h).dropSpace, ← trimLeft, trimRight_solid h]
  simp

/-- Trimming leaves a text between two bytes that are in no white space, and what comes before
it is trimmed as if it ended the text. -/
theorem trimSpace_between (hleft : trimLeft (lead ++ word ++ x) = l ++ word ++ x)
    (hne : word ≠ []) (hlast : ∀ c ∈ word.getLast?, solid c) :
    trimSpace (lead ++ word ++ x) = l ++ word ++ trimRight x := by
  obtain ⟨s, c, rfl⟩ := (List.eq_nil_or_concat' word).resolve_left hne
  unfold trimSpace
  rw [hleft]
  simpa using trimRight_solid (hlast c (by simp)) (l ++ s) x

/-- White space, one rune after the other. -/
inductive White : Bytes → Prop
  | nil : White []
  | one : isAsciiSpace c = true → White s → White (c :: s)
  | two : isSpace2 c d = true → White s → White (c :: d :: s)
  | three : isSpace3 c d e = true → White s → White (c :: d :: e :: s)

/-- The text ends or goes on with white space. -/
def AtBreak (s : Bytes) : Prop := s = [] ∨ StartsSpace isSpace2 isSpace3 s

section White

theorem isSpace2_first (h : isSpace2 c d) : isAsciiSpace c = false := by
  have := isSpace2_bounds h
  simp [isAsciiSpace, UInt8.le_iff_toNat_le, ← UInt8.toNat_inj]
  omega

theorem isSpace3_first (h : isSpace3 c d e) : isAsciiSpace c = false ∧ isSpace2 c d = false := by
  have := isSpace3_bounds h
  constructor
  · simp [isAsciiSpace, UInt8.le_iff_toNat_le, ← UInt8.toNat_inj]
    omega
  · rw [← Bool.not_eq_true]
    intro hs
    have := isSpace2_bounds hs
    omega

theorem White.append (h : White w) (h' : White w') : White (w ++ w') := by
  induction h with
  | nil => exact h'
  | one hc _ ih => exact .one hc ih
  | two hc _ ih => exact .two hc ih
  | three hc _ ih => exact .three hc ih

theorem white_of_ascii (h : ∀ c ∈ w, isAsciiSpace c) : White w := by
  induction w with
  | nil => exact .nil
  | cons c w ih => exact .one (h c (.head _)) (ih fun c hc => h c (.tail _ hc))

theorem White.atBreak (h : White w) : AtBreak w := by
  cases h with
  | nil => exact .inl rfl
  | one hc => exact .inr (.one hc)
  | two hc => exact .inr (.two hc)
  | three hc => exact .inr (.three hc)

theorem AtBreak.append (h : AtBreak s) (ht : s = [] → AtBreak t) : AtBreak (s ++ t) := by
  rcases h with rfl | h
  · exact ht rfl
  · exact .inr (h.append t)

/-- No byte of white space is a printable one of ASCII. -/
theorem White.mem (h : White w) (hc : c ∈ w) : isAsciiSpace c ∨ 0x80 ≤ c.toNat := by
  induction h with
  | nil => cases hc
  | one h _ ih =>
    rcases List.mem_cons.mp hc with rfl | hc
    · exact .inl h
    · exact ih hc
  | two h _ ih =>
    have := isSpace2_bounds h
    rcases List.mem_cons.mp hc with rfl | hc
    · exact .inr (by omega)
    rcases List.mem_cons.mp hc with rfl | hc
    · exact .inr (by omega)
    · exact ih hc
  | three h _ ih =>
    have := isSpace3_bounds h
    rcases List.mem_cons.mp hc with rfl | hc
    · exact .inr (by omega)
    rcases List.mem_cons.mp hc with rfl | hc
    · exact .inr (by omega)
    rcases List.mem_cons.mp hc with rfl | hc
    · exact .inr (by omega)
    · exact ih hc

theorem White.dropSpace (h : White w) (s : Bytes) : trimLeft (w ++ s) = trimLeft s := by
  unfold trimLeft
  induction h with
  | nil => rfl
  | one hc _ ih => rw [List.cons_append, dropSpace_one hc, ih]
  | two hc _ ih =>
    rw [List.cons_append, List.cons_append, dropSpace_two (isSpace2_first hc) hc, ih]
  | three hc _ ih =>
    obtain ⟨h₁, h₂⟩ := isSpace3_first hc
    rw [List.cons_append, List.cons_append, List.cons_append, dropSpace_three h₁ h₂ hc, ih]

theorem trimLeft_white (s : Bytes) : ∃ w, White w ∧ s = w ++ trimLeft s := by
  unfold trimLeft
  fun_induction Pgmux.dropSpace isSpace2 isSpace3 s with
  | case1 => exact ⟨[], .nil, rfl⟩
  | case2 c h => exact ⟨[c], .one h .nil, rfl⟩
  | case3 c h => exact ⟨[], .nil, rfl⟩
  | case4 c d h ih =>
    obtain ⟨w, hw, he⟩ := ih
    exact ⟨c :: w, .one h hw, congrArg (c :: ·) he⟩
  | case5 c d h h₂ => exact ⟨[c, d], .two h₂ .nil, rfl⟩
  | case6 c d h h₂ => exact ⟨[], .nil, rfl⟩
  | case7 c d e s h ih =>
    obtain ⟨w, hw, he⟩ := ih
    exact ⟨c :: w, .one h hw, congrArg (c :: ·) he⟩
  | case8 c d e s h h₂ ih =>
    obtain ⟨w, hw, he⟩ := ih
    exact ⟨c :: d :: w, .two h₂ hw, congrArg (c :: d :: ·) he⟩
  | case9 c d e s h h₂ h₃ ih =>
    obtain ⟨w, hw, he⟩ := ih
    exact ⟨c :: d :: e :: w, .three h₃ hw, congrArg (c :: d :: e :: ·) he⟩
  | case10 c d e s h h₂ h₃ => exact ⟨[], .nil, rfl⟩

theorem trimRight_white (s : Bytes) : ∃ w, White w ∧ s = trimRight s ++ w := by
  suffices hall : ∀ r, ∃ w, White w ∧ r = w.reverse ++
      Pgmux.dropSpace (fun c d => isSpace2 d c) (fun c d e => isSpace3 e d c) r by
    obtain ⟨w, hw, he⟩ := hall s.reverse
    refine ⟨w, hw, ?_⟩
    have hs := congrArg List.reverse he
    rwa [List.reverse_reverse, List.reverse_append, List.reverse_reverse] at hs
  intro r
  fun_induction Pgmux.dropSpace (fun c d => isSpace2 d c) (fun c d e => isSpace3 e d c) r with
  | case1 => exact ⟨[], .nil, rfl⟩
  | case2 c h => exact ⟨[c], .one h .nil, rfl⟩
  | case3 c h => exact ⟨[], .nil, rfl⟩
  | case4 c d h ih =>
    obtain ⟨w, hw, he⟩ := ih
    exact ⟨w ++ [c], hw.append (.one h .nil), by simpa using he⟩
  | case5 c d h h₂ => exact ⟨[d, c], .two h₂ .nil, rfl⟩
  | case6 c d h h₂ => exact ⟨[], .nil, rfl⟩
  | case7 c d e s h ih =>
    obtain ⟨w, hw, he⟩ := ih
    exact ⟨w ++ [c], hw.append (.one h .nil), by simpa using he⟩
  | case8 c d e s h h₂ ih =>
    obtain ⟨w, hw, he⟩ := ih
    exact ⟨w ++ [d, c], hw.append (.two h₂ .nil), by simpa using he⟩
  | case9 c d e s h h₂ h₃ ih =>
    obtain ⟨w, hw, he⟩ := ih
    exact ⟨w ++ [e, d, c], hw.append (.three h₃ .nil), by simpa using he⟩
  | case10 c d e s h h₂ h₃ => exact ⟨[], .nil, rfl⟩

theorem White.head (h : White (c :: w)) : isAsciiSpace c ∨ 0xC0 ≤ c.toNat := by
  cases h with
  | one h => exact .inl h
  | two h => have := isSpace2_bounds h; exact .inr (by omega)
  | three h => have := isSpace3_bounds h; exact .inr (by omega)

/-- A rune of white space is trimmed as a whole or not at all. -/
theorem AtBreak.trimRight (h : AtBreak s) : AtBreak (trimRight s) := by
  have hcont {c : UInt8} {w : Bytes} (hw : White (c :: w)) :
      ¬ (0x80 ≤ c.toNat ∧ c.toNat < 0xB0) := by
    rcases hw.head with hc | hc
    · simp [isAsciiSpace, UInt8.le_iff_toNat_le, ← UInt8.toNat_inj] at hc
      omega
    · omega
  obtain ⟨w, hw, he⟩ := trimRight_white s
  generalize Pgmux.trimRight s = t at he ⊢
  rcases h with rfl | h
  · exact .inl (List.append_eq_nil_iff.mp he.symm).1
  cases h with
  | one h =>
    rcases t with _ | ⟨c, t⟩
    · exact .inl rfl
    · obtain ⟨rfl, -⟩ := List.cons.inj he
      exact .inr (.one h)
  | two h =>
    have hb := isSpace2_bounds h
    rcases t with _ | ⟨c, _ | ⟨d, t⟩⟩
    · exact .inl rfl
    · obtain ⟨rfl, rfl⟩ := List.cons.inj he
      exact absurd hb.2 (hcont hw)
    · simp only [List.cons_append, List.cons.injEq] at he
      obtain ⟨rfl, rfl, -⟩ := he
      exact .inr (.two h)
  | three h =>
    have hb := isSpace3_bounds h
    rcases t with _ | ⟨c, _ | ⟨d, _ | ⟨e, t⟩⟩⟩
    · exact .inl rfl
    · obtain ⟨rfl, rfl⟩ := List.cons.inj he
      exact absurd hb.2.1 (hcont hw)
    · simp only [List.cons_append, List.nil_append, List.cons.injEq] at he
      obtain ⟨rfl, rfl, rfl⟩ := he
      exact absurd hb.2.2 (hcont hw)
    · simp only [List.cons_append, List.cons.injEq] at he
      obtain ⟨rfl, rfl, rfl, -⟩ := he
      exact .inr (.three h)

theorem trimLeft_word (hlead : White lead) (hne : word ≠ []) (hfirst : ∀ c ∈ word.head?, solid c)
    (x : Bytes) : trimLeft (lead ++ word ++ x) = word ++ x := by
  obtain ⟨c, s, rfl⟩ := List.exists_cons_of_ne_nil hne
  rw [List.append_assoc, hlead.dropSpace]
  exact trimLeft_solid (hfirst c rfl) _

theorem trimSpace_word (hlead : White lead) (hne : word ≠ []) (hword : ∀ c ∈ word, solid c)
    (x : Bytes) : trimSpace (lead ++ word ++ x) = word ++ trimRight x :=
  trimSpace_between (l := [])
    (trimLeft_word hlead hne (fun c hc => hword c (List.mem_of_mem_head? hc)) x) hne
    fun c hc => hword c (List.mem_of_mem_getLast? hc)

end White

section Runs

variable {w : Bytes} (hne : w ≠ []) (hw : ∀ c ∈ w, isAsciiSpace c = true)
include hne hw

end Runs

section Fields

theorem fieldsFrom_solid (h : solid c) (cur s : Bytes) :
    fieldsFrom cur (c :: s) = fieldsFrom (cur ++ [c]) s := by
  have hc := unspaced_of_solid h
  rcases s with _ | ⟨d, _ | ⟨e, s⟩⟩ <;> simp [fieldsFrom, hc.one, hc.two, hc.three]

theorem fieldsFrom_word (h : ∀ c ∈ word, solid c) (cur s : Bytes) :
    fieldsFrom cur (word ++ s) = fieldsFrom (cur ++ word) s := by
  induction word generalizing cur with
  | nil => rw [List.append_nil]; rfl
  | cons c word ih =>
    rw [List.cons_append, fieldsFrom_solid (h c (.head _)),
      ih fun c hc => h c (.tail _ hc), List.append_assoc, List.singleton_append]

theorem fieldsFrom_space (h : isAsciiSpace c) (hcur : cur ≠ []) (s : Bytes) :
    fieldsFrom cur (c :: s) = cur :: fieldsFrom [] s := by
  rcases s with _ | ⟨d, _ | ⟨e, s⟩⟩ <;> simp [fieldsFrom, h, hcur]

def FieldStarts (cur : Bytes) (fs : List Bytes) : Prop := ∃ t rest, fs = (cur ++ t) :: rest

theorem FieldStarts.read (cur : Bytes) (fs : List Bytes) : FieldStarts cur (cur :: fs) :=
  ⟨[], fs, by rw [List.append_nil]⟩

theorem FieldStarts.more (h : FieldStarts (cur ++ [c]) fs) : FieldStarts cur fs := by
  obtain ⟨t, rest, rfl⟩ := h
  exact ⟨c :: t, rest, by rw [List.append_assoc, List.singleton_append]⟩

theorem fieldsFrom_starts (hcur : cur ≠ []) (s : Bytes) : FieldStarts cur (fieldsFrom cur s) := by
  have hmore (cur : Bytes) (c : UInt8) : cur ++ [c] ≠ [] :=
    List.append_ne_nil_of_right_ne_nil _ (List.cons_ne_nil _ _)
  have hread (cur : Bytes) (hcur : cur ≠ []) (fs : List Bytes) :
      FieldStarts cur ((if cur = [] then [] else [cur]) ++ fs) := by
    rw [if_neg hcur]
    exact .read cur fs
  fun_induction fieldsFrom cur s with
  | case1 => exact absurd rfl hcur
  | case2 cur h => exact .read cur []
  | case3 cur c h ih => exact ih hcur
  | case4 cur c h ih => exact (ih (hmore cur c)).more
  | case5 cur c d h => exact hread cur hcur _
  | case6 cur c d h h₂ ih => exact ih hcur
  | case7 cur c d h h₂ ih => exact (ih (hmore cur c)).more
  | case8 cur c d e s h => exact hread cur hcur _
  | case9 cur c d e s h h₂ => exact hread cur hcur _
  | case10 cur c d e s h h₂ h₃ => exact hread cur hcur _
  | case11 cur c d e s h h₂ h₃ ih => exact (ih (hmore cur c)).more

theorem fieldsFrom_break (hx : AtBreak x) (hcur : cur ≠ []) :
    ∃ rest, fieldsFrom cur x = cur :: rest := by
  rcases hx with rfl | hx
  · exact ⟨[], by simp [fieldsFrom, hcur]⟩
  · cases hx with
    | @one c s h => exact ⟨_, fieldsFrom_space h hcur s⟩
    | @two c d s h =>
      have hc := isSpace2_first h
      rcases s with _ | ⟨e, s⟩
      · exact ⟨[], by simp [fieldsFrom, hc, h, hcur]⟩
      · exact ⟨fieldsFrom [] (e :: s), by simp [fieldsFrom, hc, h, hcur]⟩
    | @three c d e s h =>
      have hc := isSpace3_first h
      exact ⟨fieldsFrom [] s, by simp [fieldsFrom, hc, h, hcur]⟩

theorem fields_word (hne : word ≠ []) (hword : ∀ c ∈ word, solid c) (hx : AtBreak x) :
    ∃ rest, fields (word ++ x) = word :: rest := by
  unfold fields
  rw [fieldsFrom_word hword, List.nil_append]
  exact fieldsFrom_break hx hne

/-- Behind white space, and without any if a field is being read, the text goes on with the rest
of the first field. -/
def FirstField (cur s f : Bytes) : Prop :=
  ∃ lead word rest, s = lead ++ word ++ rest ∧ White lead ∧ f = cur ++ word ∧
    (cur ≠ [] → lead = []) ∧ AtBreak rest

theorem FirstField.space (hw : White w) (hstart : StartsSpace isSpace2 isSpace3 (w ++ s))
    (h : (if cur = [] then [] else [cur]) ++ fieldsFrom [] s = f :: fs)
    (ih : fieldsFrom [] s = f :: fs → FirstField [] s f) : FirstField cur (w ++ s) f := by
  by_cases hcur : cur = []
  · rw [if_pos hcur] at h
    obtain ⟨lead, word, rest, rfl, hl, hf, -, hr⟩ := ih h
    exact ⟨w ++ lead, word, rest, by simp, hw.append hl, hcur ▸ hf, fun hn => absurd hcur hn, hr⟩
  · rw [if_neg hcur] at h
    exact ⟨[], [], w ++ s, rfl, .nil, by simpa using (List.cons.inj h).1.symm, fun _ => rfl,
      .inr hstart⟩

theorem FirstField.byte (h : FirstField (cur ++ [c]) s f) : FirstField cur (c :: s) f := by
  obtain ⟨lead, word, rest, rfl, -, rfl, hlead, hr⟩ := h
  obtain rfl := hlead (List.append_ne_nil_of_right_ne_nil _ (List.cons_ne_nil _ _))
  exact ⟨[], c :: word, rest, rfl, .nil, by simp, fun _ => rfl, hr⟩

theorem fieldsFrom_first (h : fieldsFrom cur s = f :: fs) : FirstField cur s f := by
  have hend {cur : Bytes} : fieldsFrom cur [] = (if cur = [] then [] else [cur]) ++ [] := by
    rw [fieldsFrom, List.append_nil]
  fun_induction fieldsFrom cur s generalizing f fs with
  | case1 => cases h
  | case2 cur hcur =>
    obtain ⟨rfl, -⟩ := List.cons.inj h
    exact ⟨[], [], [], rfl, .nil, by simp, fun _ => rfl, .inl rfl⟩
  | case3 cur c hc ih =>
    rw [hend] at h
    exact .space (w := [c]) (s := []) (.one hc .nil) (.one hc) h fun h => by cases h
  | case4 cur c hc ih => exact (ih h).byte
  | case5 cur c d hc ih => exact .space (w := [c]) (.one hc .nil) (.one hc) h fun h => ih h
  | case6 cur c d hc h₂ ih =>
    rw [hend] at h
    exact .space (w := [c, d]) (s := []) (.two h₂ .nil) (.two h₂) h fun h => by cases h
  | case7 cur c d hc h₂ ih => exact (ih h).byte
  | case8 cur c d e s hc ih => exact .space (w := [c]) (.one hc .nil) (.one hc) h fun h => ih h
  | case9 cur c d e s hc h₂ ih =>
    exact .space (w := [c, d]) (.two h₂ .nil) (.two h₂) h fun h => ih h
  | case10 cur c d e s hc h₂ h₃ ih =>
    exact .space (w := [c, d, e]) (.three h₃ .nil) (.three h₃) h fun h => ih h
  | case11 cur c d e s hc h₂ h₃ ih => exact (ih h).byte

theorem fields_starts (hne : word ≠ []) (hword : ∀ c ∈ word, solid c) (x : Bytes) :
    FieldStarts word (fields (word ++ x)) := by
  unfold fields
  rw [fieldsFrom_word hword, List.nil_append]
  exact fieldsFrom_starts hne x

end Fields

end Pgmux
