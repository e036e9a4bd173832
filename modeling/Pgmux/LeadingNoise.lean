import Pgmux.Scanning
import Pgmux.Words

namespace Pgmux

/-- Complete blanks and comments, read from a state of the scan up to the text behind them. -/
inductive LeadNoise (blank : UInt8 → Bool) : Noise → Bytes → Prop
  | nil : LeadNoise blank .text []
  | blank : blank c = true → LeadNoise blank .text s → LeadNoise blank .text (c :: s)
  | openBlock : LeadNoise blank (.block 0) s →
      LeadNoise blank .text ('/'.toUInt8 :: '*'.toUInt8 :: s)
  | openLine : LeadNoise blank .line s → LeadNoise blank .text ('-'.toUInt8 :: '-'.toUInt8 :: s)
  | lineByte : c ≠ 10 → LeadNoise blank .line s → LeadNoise blank .line (c :: s)
  | lineEnd : LeadNoise blank .text s → LeadNoise blank .line (10 :: s)
  | deeper : LeadNoise blank (.block (k + 1)) s →
      LeadNoise blank (.block k) ('/'.toUInt8 :: '*'.toUInt8 :: s)
  | closes : LeadNoise blank (.block k) s →
      LeadNoise blank (.block (k + 1)) ('*'.toUInt8 :: '/'.toUInt8 :: s)
  | closed : LeadNoise blank .text s →
      LeadNoise blank (.block 0) ('*'.toUInt8 :: '/'.toUInt8 :: s)
  | blockByte : ¬ (c = '/'.toUInt8 ∧ d = '*'.toUInt8) → ¬ (c = '*'.toUInt8 ∧ d = '/'.toUInt8) →
      LeadNoise blank (.block k) (d :: s) → LeadNoise blank (.block k) (c :: d :: s)

def startsNoise : Bytes → Bool
  | [] => false
  | [c] => isSpace c
  | c :: d :: _ => isSpace c || (c == '/'.toUInt8 && d == '*'.toUInt8) ||
      (c == '-'.toUInt8 && d == '-'.toUInt8)

theorem skipFrom_blank (h : isSpace c) (s : Bytes) :
    skipFrom .text (c :: s) = skipFrom .text s := by
  cases s with
  | nil =>
    unfold skipFrom
    exact if_pos h
  | cons d s => rw [skipFrom, if_pos h]

theorem skipFrom_self (h : startsNoise s = false) : skipFrom .text s = s := by
  rcases s with _ | ⟨c, _ | ⟨d, s⟩⟩
  · rfl
  · rw [startsNoise] at h
    rw [skipFrom, h]
    rfl
  · simp only [startsNoise, Bool.or_eq_false_iff, Bool.and_eq_false_iff, beq_eq_false_iff_ne] at h
    obtain ⟨⟨hs, hb⟩, hl⟩ := h
    rw [skipFrom, hs, if_neg (by decide), if_neg, if_neg]
    · exact fun hc => hl.elim (fun h => h hc.1) fun h => h hc.2
    · exact fun hc => hb.elim (fun h => h hc.1) fun h => h hc.2

theorem skipFrom_block : skipFrom (.block k) (c :: d :: s) =
    if c = '/'.toUInt8 ∧ d = '*'.toUInt8 then skipFrom (.block (k + 1)) s
    else if c = '*'.toUInt8 ∧ d = '/'.toUInt8 then
      skipFrom (if k = 0 then .text else .block (k - 1)) s
    else skipFrom (.block k) (d :: s) := by
  cases k <;> rfl

def Leads (n : Noise) (s r : Bytes) : Prop :=
  startsNoise r = false ∧ ∃ lead, LeadNoise isSpace n lead ∧ s = lead ++ r

theorem Leads.step (h : Leads n s r) (read : Bytes)
    (hread : ∀ lead, LeadNoise isSpace n lead → LeadNoise isSpace m (read ++ lead)) :
    Leads m (read ++ s) r := by
  obtain ⟨hr, lead, hl, rfl⟩ := h
  exact ⟨hr, read ++ lead, hread lead hl, (List.append_assoc ..).symm⟩

theorem LeadNoise.ne_nil_of_block (h : LeadNoise isSpace (.block k) lead) : lead ≠ [] := by
  cases h <;> exact List.cons_ne_nil _ _

theorem Leads.blockByte (ho : ¬ (c = '/'.toUInt8 ∧ d = '*'.toUInt8))
    (hc : ¬ (c = '*'.toUInt8 ∧ d = '/'.toUInt8)) (h : Leads (.block k) (d :: s) r) :
    Leads (.block k) (c :: d :: s) r := by
  obtain ⟨hr, lead, hl, he⟩ := h
  cases lead with
  | nil => exact absurd rfl hl.ne_nil_of_block
  | cons e lead =>
    obtain ⟨rfl, rfl⟩ := List.cons.inj he
    exact ⟨hr, c :: d :: lead, .blockByte ho hc hl, rfl⟩

/-- What is skipped are blanks and comments, and the text behind them starts with neither. -/
theorem skipFrom_split (n : Noise) (s : Bytes) (hne : skipFrom n s ≠ []) :
    Leads n s (skipFrom n s) := by
  fun_induction skipFrom n s with
  | case1 => exact absurd rfl hne
  | case2 => exact absurd rfl hne
  | case3 c hs => exact ⟨eq_false_of_ne_true hs, [], .nil, rfl⟩
  | case4 c d s hs ih => exact (ih hne).step [c] fun lead => .blank hs
  | case5 c d s hs hb ih =>
    obtain ⟨rfl, rfl⟩ := hb
    exact (ih hne).step ['/'.toUInt8, '*'.toUInt8] fun lead => .openBlock
  | case6 c d s hs hb hl ih =>
    obtain ⟨rfl, rfl⟩ := hl
    exact (ih hne).step ['-'.toUInt8, '-'.toUInt8] fun lead => .openLine
  | case7 c d s hs hb hl =>
    refine ⟨?_, [], .nil, rfl⟩
    simp only [startsNoise, eq_false_of_ne_true hs, Bool.false_or, Bool.or_eq_false_iff]
    exact ⟨by simpa using hb, by simpa using hl⟩
  | case8 s ih => exact (ih hne).step [10] fun lead => .lineEnd
  | case9 c s hc ih => exact (ih hne).step [c] fun lead => .lineByte hc
  | case10 => exact absurd rfl hne
  | case11 k c d s hb ih =>
    obtain ⟨rfl, rfl⟩ := hb
    exact (ih hne).step ['/'.toUInt8, '*'.toUInt8] fun lead => .deeper
  | case12 c d s ho hc ih =>
    obtain ⟨rfl, rfl⟩ := hc
    exact (ih hne).step ['*'.toUInt8, '/'.toUInt8] fun lead => .closed
  | case13 c d s ho hc k ih =>
    obtain ⟨rfl, rfl⟩ := hc
    exact (ih hne).step ['*'.toUInt8, '/'.toUInt8] fun lead => .closes
  | case14 k c d s ho hc ih => exact (ih hne).blockByte ho hc

theorem LeadNoise.skip (h : LeadNoise isSpace n lead) (hr : startsNoise r = false) :
    skipFrom n (lead ++ r) = r := by
  induction h with
  | nil => exact skipFrom_self hr
  | blank hc _ ih => rw [List.cons_append, skipFrom_blank hc, ih]
  | openBlock _ ih => exact ih
  | openLine _ ih => exact ih
  | lineByte hc _ ih => rw [List.cons_append, skipFrom, if_neg hc, ih]
  | lineEnd _ ih => rw [List.cons_append, skipFrom, if_pos rfl, ih]
  | deeper _ ih => exact ih
  | closes _ ih => exact ih
  | closed _ ih => exact ih
  | blockByte ho hc _ ih =>
    rw [List.cons_append, List.cons_append, skipFrom_block, if_neg ho, if_neg hc]
    exact ih

theorem stripCommentsFrom_byte (hs : c ≠ '/'.toUInt8) (hd : c ≠ '-'.toUInt8) (s : Bytes) :
    stripCommentsFrom .text (c :: s) = c :: stripCommentsFrom .text s := by
  cases s with
  | nil => rfl
  | cons d s => rw [stripCommentsFrom, if_neg fun h => hs h.1, if_neg fun h => hd h.1]

theorem stripCommentsFrom_blank (h : isSpace c) (s : Bytes) :
    stripCommentsFrom .text (c :: s) = c :: stripCommentsFrom .text s := by
  apply stripCommentsFrom_byte
  · rintro rfl
    revert h
    decide
  · rintro rfl
    revert h
    decide

theorem LeadNoise.strip (h : LeadNoise isSpace n lead) : ∃ blanks, (∀ c ∈ blanks, isSpace c) ∧
    ∀ r, stripCommentsFrom n (lead ++ r) = blanks ++ stripCommentsFrom .text r := by
  induction h with
  | nil => exact ⟨[], by simp, fun r => rfl⟩
  | @blank c s hc _ ih =>
    obtain ⟨blanks, hb, he⟩ := ih
    refine ⟨c :: blanks, List.forall_mem_cons.mpr ⟨hc, hb⟩, fun r => ?_⟩
    rw [List.cons_append, stripCommentsFrom_blank hc, he]
    rfl
  | openBlock _ ih => exact ih
  | openLine _ ih => exact ih
  | lineByte hc _ ih => simpa [stripCommentsFrom, hc] using ih
  | lineEnd _ ih =>
    obtain ⟨blanks, hb, he⟩ := ih
    refine ⟨10 :: blanks, List.forall_mem_cons.mpr ⟨rfl, hb⟩, fun r => ?_⟩
    simp [stripCommentsFrom, he]
  | deeper _ ih => exact ih
  | closes _ ih => exact ih
  | closed _ ih => exact ih
  | blockByte ho hc _ ih => simpa [stripCommentsFrom, ho, hc] using ih

theorem startsNoise_of_solid (hc : solid c) (hs : c ≠ '/'.toUInt8) (hd : c ≠ '-'.toUInt8)
    (s : Bytes) : startsNoise (c :: s) = false := by
  have hspace : isSpace c = false := by
    by_contra h
    have := isAsciiSpace_of_isSpace (eq_true_of_ne_false h)
    rw [(solid_iff.mp hc).1] at this
    cases this
  cases s <;> simp [startsNoise, hspace, hs, hd]

theorem LeadNoise.trimLeft (h : LeadNoise isSpace .text lead) (hc : solid c) (s : Bytes) :
    ∃ lead', LeadNoise isSpace .text lead' ∧ Pgmux.trimLeft (lead ++ c :: s) = lead' ++ c :: s := by
  induction lead with
  | nil => exact ⟨[], .nil, trimLeft_solid hc s⟩
  | cons d lead ih =>
    cases h with
    | blank hd h =>
      obtain ⟨lead', hl, he⟩ := ih h
      exact ⟨lead', hl, (dropSpace_one (isAsciiSpace_of_isSpace hd) _).trans he⟩
    | openBlock h => exact ⟨_, .openBlock h, trimLeft_solid (by decide) _⟩
    | openLine h => exact ⟨_, .openLine h, trimLeft_solid (by decide) _⟩

theorem lead_semicolon_free (hsingle : isSingleStatement (lead ++ x)) (hc : solid c)
    (hx : c ∈ x) : ';'.toUInt8 ∉ lead := by
  intro hm
  obtain ⟨d, rest, hd⟩ : ∃ d rest, lead.dropWhile (· ≠ ';'.toUInt8) = d :: rest := by
    apply List.exists_cons_of_ne_nil
    intro hnil
    simpa using List.dropWhile_eq_nil_iff.mp hnil _ hm
  unfold isSingleStatement at hsingle
  rw [List.dropWhile_append, hd] at hsingle
  have hnil : trimSpace (rest ++ x) = [] := by simpa using hsingle
  have := mem_trimSpace_of_solid hc (List.mem_append_right rest hx)
  rw [hnil] at this
  cases this

end Pgmux
