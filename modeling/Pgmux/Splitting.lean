import Pgmux.Scanning
import Pgmux.Words

namespace Pgmux

def inert (c : UInt8) : Bool :=
  !(isTagChar c || isDelimiter c || c == '-'.toUInt8 || c == '*'.toUInt8 || c == '/'.toUInt8)

section Inert

variable {x : UInt8} (hx : inert x = true)
include hx

theorem inert_tagChar : isTagChar x = false := by
  simp only [inert, Bool.not_eq_true', Bool.or_eq_false_iff] at hx
  exact hx.1.1.1.1

theorem inert_ne (hc : c ∈ [quote, dquote, '$'.toUInt8, '-'.toUInt8, '*'.toUInt8, '/'.toUInt8]) :
    x ≠ c := by
  rintro rfl
  have : ∀ c ∈ [quote, dquote, '$'.toUInt8, '-'.toUInt8, '*'.toUInt8, '/'.toUInt8],
      inert c = false := by decide
  rw [this x hc] at hx
  cases hx

theorem takeWhile_tag (l r : Bytes) :
    (l ++ x :: r).takeWhile isTagChar = l.takeWhile isTagChar := by
  induction l with
  | nil => simp [inert_tagChar hx]
  | cons c l ih => simp [List.takeWhile_cons, ih]

theorem dropWhile_tag (l r : Bytes) :
    ((l ++ x :: r).dropWhile isTagChar).head? = some '$'.toUInt8 ↔
      (l.dropWhile isTagChar).head? = some '$'.toUInt8 := by
  induction l with
  | nil =>
    have hne := inert_ne (c := '$'.toUInt8) hx (by decide)
    simp [inert_tagChar hx, hne]
  | cons c l ih =>
    rw [List.cons_append, List.dropWhile_cons, List.dropWhile_cons]
    split
    · exact ih
    · rfl

theorem parseDollarTag_inert (c : UInt8) (p r : Bytes) :
    parseDollarTag (c :: (p ++ x :: r)) = parseDollarTag (c :: p) := by
  cases p with
  | nil =>
    have hne := inert_ne (c := '$'.toUInt8) hx (by decide)
    have hstart : isTagStart x = false := by
      have := inert_tagChar hx
      rw [isTagChar, Bool.or_eq_false_iff] at this
      exact this.1
    simp [parseDollarTag, hne, hstart]
  | cons d p =>
    rw [List.cons_append, parseDollarTag, parseDollarTag, ← List.cons_append]
    simp only [dropWhile_tag hx, takeWhile_tag hx]

theorem head_inert (hc : c ∈ [quote, dquote, '$'.toUInt8, '-'.toUInt8, '*'.toUInt8, '/'.toUInt8])
    (p r : Bytes) : (p ++ x :: r).head? = some c ↔ p.head? = some c := by
  cases p with
  | nil => simp [inert_ne hx hc]
  | cons d p => rfl

theorem isPrefixOf_inert (ht : IsTag tag) (p r : Bytes) :
    tag.isPrefixOf (p ++ x :: r) = tag.isPrefixOf p := by
  have hmem : x ∉ tag := by
    intro hm
    rcases ht.chars x hm with h | h
    · exact inert_ne hx (by decide) h
    · rw [inert_tagChar hx] at h
      cases h
  rw [Bool.eq_iff_iff, List.isPrefixOf_iff_prefix, List.isPrefixOf_iff_prefix]
  constructor
  · intro h
    rcases List.prefix_or_prefix_of_prefix h (List.prefix_append p (x :: r)) with h' | h'
    · exact h'
    · obtain ⟨u, rfl⟩ := h'
      rw [List.prefix_append_right_inj] at h
      cases u with
      | nil => simp
      | cons d u =>
        rw [List.cons_prefix_cons] at h
        exact absurd (by simp [h.1]) hmem
  · exact fun h => h.trans (List.prefix_append _ _)

theorem next_inert {m : Mode} (ht : m.Tagged) (comments : Bool) (c : UInt8) (p r : Bytes) :
    m.next comments c (p ++ x :: r) = m.next comments c p := by
  cases m with
  | plain =>
    simp only [Mode.next, parseDollarTag_inert hx, head_inert hx (c := '-'.toUInt8) (by decide),
      head_inert hx (c := '*'.toUInt8) (by decide)]
  | single => simp only [Mode.next, head_inert hx (c := quote) (by decide)]
  | double => rfl
  | line => rfl
  | block d =>
    simp only [Mode.next, head_inert hx (c := '*'.toUInt8) (by decide),
      head_inert hx (c := '/'.toUInt8) (by decide)]
  | dollar tag => rw [Mode.next, Mode.next, ← List.cons_append, isPrefixOf_inert hx ht]
  | copy k m => cases k <;> rfl

theorem next_plain_inert (comments : Bool) (s : Bytes) : Mode.plain.next comments x s = .plain := by
  have hne {c : UInt8}
      (hc : c ∈ [quote, dquote, '$'.toUInt8, '-'.toUInt8, '*'.toUInt8, '/'.toUInt8]) :=
    inert_ne hx hc
  have htag : parseDollarTag (x :: s) = none := by
    cases h : parseDollarTag (x :: s) with
    | none => rfl
    | some tag =>
      have := (parseDollarTag_isTag h).1
      exact absurd (Option.some.inj this) (hne (by decide))
  simp [Mode.next, htag, hne (c := quote) (by decide), hne (c := dquote) (by decide),
    hne (c := '-'.toUInt8) (by decide), hne (c := '/'.toUInt8) (by decide)]

end Inert

section Space

variable {two : UInt8 → UInt8 → Bool} {three : UInt8 → UInt8 → UInt8 → Bool}

theorem dropSpace_split (two : UInt8 → UInt8 → Bool) (three : UInt8 → UInt8 → UInt8 → Bool)
    (s : Bytes) : ∃ w, s = w ++ dropSpace two three s ∧ ∀ c ∈ w, ¬ Unspaced two three c := by
  have hone {c : UInt8} (h : isAsciiSpace c) : ¬ Unspaced two three c := by
    intro hc
    rw [hc.one] at h
    cases h
  have htwo {c d : UInt8} (h : two c d) :
      ¬ Unspaced two three c ∧ ¬ Unspaced two three d := by
    constructor
    · intro hc
      rw [(hc.two d).1] at h
      cases h
    · intro hd
      rw [(hd.two c).2] at h
      cases h
  have hthree {c d e : UInt8} (h : three c d e) :
      ¬ Unspaced two three c ∧ ¬ Unspaced two three d ∧ ¬ Unspaced two three e := by
    refine ⟨fun hc => ?_, fun hd => ?_, fun he => ?_⟩
    · rw [(hc.three d e).1] at h
      cases h
    · rw [(hd.three c e).2.1] at h
      cases h
    · rw [(he.three c d).2.2] at h
      cases h
  fun_induction dropSpace two three s with
  | case1 => exact ⟨[], rfl, by simp⟩
  | case2 c h => exact ⟨[c], rfl, by simp [hone h]⟩
  | case3 c h => exact ⟨[], rfl, by simp⟩
  | case4 c d h ih =>
    obtain ⟨w, hw, hall⟩ := ih
    exact ⟨c :: w, congrArg (c :: ·) hw, List.forall_mem_cons.mpr ⟨hone h, hall⟩⟩
  | case5 c d h h₂ => exact ⟨[c, d], rfl, by simp [htwo h₂]⟩
  | case6 c d h h₂ => exact ⟨[], rfl, by simp⟩
  | case7 c d e s h ih =>
    obtain ⟨w, hw, hall⟩ := ih
    exact ⟨c :: w, congrArg (c :: ·) hw, List.forall_mem_cons.mpr ⟨hone h, hall⟩⟩
  | case8 c d e s h h₂ ih =>
    obtain ⟨w, hw, hall⟩ := ih
    refine ⟨c :: d :: w, congrArg (c :: d :: ·) hw, ?_⟩
    exact List.forall_mem_cons.mpr ⟨(htwo h₂).1, List.forall_mem_cons.mpr ⟨(htwo h₂).2, hall⟩⟩
  | case9 c d e s h h₂ h₃ ih =>
    obtain ⟨w, hw, hall⟩ := ih
    refine ⟨c :: d :: e :: w, congrArg (c :: d :: e :: ·) hw, ?_⟩
    obtain ⟨hc, hd, he⟩ := hthree h₃
    simp only [List.forall_mem_cons]
    exact ⟨hc, hd, he, hall⟩
  | case10 c d e s h h₂ h₃ => exact ⟨[], rfl, by simp⟩

theorem inert_of_not_solid (h : solid c = false) : inert c := by
  have hall : ∀ c, solid c = false → inert c := forall_byte (by decide +kernel)
  exact hall c h

theorem inert_of_spaced (h : ¬ Unspaced isSpace2 isSpace3 c) : inert c :=
  inert_of_not_solid (Bool.eq_false_iff.mpr fun hs => h (unspaced_of_solid hs))

theorem trimRight_split (s : Bytes) : ∃ w, s = trimRight s ++ w ∧ ∀ c ∈ w, inert c := by
  obtain ⟨w, hw, hall⟩ := dropSpace_split (fun c d => isSpace2 d c) (fun c d e => isSpace3 e d c)
    s.reverse
  refine ⟨w.reverse, ?_, fun c hc => ?_⟩
  · conv_lhs => rw [← List.reverse_reverse s, hw, List.reverse_append]
    rfl
  · exact inert_of_spaced fun hs => hall c (List.mem_reverse.mp hc) hs.swap

theorem trimSpace_split (s : Bytes) : ∃ w w', s = w ++ trimSpace s ++ w' ∧
    (∀ c ∈ w, inert c) ∧ ∀ c ∈ w', inert c := by
  obtain ⟨w, hw, hall⟩ := dropSpace_split isSpace2 isSpace3 s
  obtain ⟨w', hw', hall'⟩ := trimRight_split (trimLeft s)
  refine ⟨w, w', ?_, fun c hc => inert_of_spaced (hall c hc), hall'⟩
  rw [List.append_assoc, trimSpace, ← hw']
  exact hw

end Space

section Pieces

def piecesFrom : Mode → Bytes → Bytes → List Bytes
  | _, cur, [] => [cur]
  | m, cur, c :: s =>
    if m = .plain ∧ c = ';'.toUInt8 then cur :: piecesFrom .plain [] s
    else piecesFrom (m.next true c s) (cur ++ [c]) s

def Whole : Mode → Bytes → Prop
  | _, [] => True
  | m, c :: s => ¬ (m = .plain ∧ c = ';'.toUInt8) ∧ Whole (m.next true c s) s

theorem splitFrom_pieces (m : Mode) (cur s : Bytes) :
    splitFrom m cur s = (piecesFrom m cur s).flatMap piece := by
  induction s generalizing m cur with
  | nil => simp [splitFrom, piecesFrom]
  | cons c s ih =>
    rw [splitFrom, piecesFrom]
    split
    · rw [List.flatMap_cons, ih]
    · exact ih _ _

theorem pieces_join (m : Mode) (cur s : Bytes) :
    piecesFrom m cur s ≠ [] ∧ cur ++ s = [';'.toUInt8].intercalate (piecesFrom m cur s) := by
  induction s generalizing m cur with
  | nil => exact ⟨List.cons_ne_nil _ _, by simp [piecesFrom]⟩
  | cons c s ih =>
    rw [piecesFrom]
    split
    · rename_i hc
      obtain ⟨hne, hjoin⟩ := ih .plain []
      refine ⟨List.cons_ne_nil _ _, ?_⟩
      rw [List.intercalate_cons_of_ne_nil hne, ← hjoin, hc.2, List.append_assoc]
      rfl
    · obtain ⟨hne, hjoin⟩ := ih (m.next true c s) (cur ++ [c])
      refine ⟨hne, ?_⟩
      rw [← hjoin, List.append_assoc]
      rfl

theorem splitFrom_whole (h : Whole m s) (cur : Bytes) : splitFrom m cur s = piece (cur ++ s) := by
  induction s generalizing m cur with
  | nil => rw [splitFrom, List.append_nil]
  | cons c s ih =>
    rw [splitFrom, if_neg h.1, ih h.2, List.append_assoc]
    rfl

theorem pieces_whole {m : Mode} (ht : m.Tagged) (cur s : Bytes) :
    ∃ p rest, piecesFrom m cur s = (cur ++ p) :: rest ∧ Whole m p ∧
      (s = p ∨ ∃ t, s = p ++ ';'.toUInt8 :: t) ∧ ∀ q ∈ rest, Whole .plain q := by
  induction s generalizing m cur with
  | nil => exact ⟨[], [], by simp [piecesFrom], trivial, .inl rfl, by simp⟩
  | cons c s ih =>
    rw [piecesFrom]
    split
    · rename_i hc
      obtain ⟨p, rest, heq, hp, -, hrest⟩ := ih (m := .plain) trivial []
      refine ⟨[], piecesFrom .plain [] s, by simp, trivial, .inr ⟨s, by rw [hc.2]; rfl⟩, ?_⟩
      rw [heq]
      exact List.forall_mem_cons.mpr ⟨hp, hrest⟩
    · rename_i hc
      obtain ⟨p, rest, heq, hp, hs, hrest⟩ := ih (ht.next true c s) (cur ++ [c])
      have hnext : m.next true c s = m.next true c p := by
        rcases hs with rfl | ⟨t, rfl⟩
        · rfl
        · exact next_inert (by decide) ht true c p t
      refine ⟨c :: p, rest, by rw [heq]; simp, ⟨hc, hnext ▸ hp⟩, ?_, hrest⟩
      rcases hs with rfl | ⟨t, rfl⟩
      · exact .inl rfl
      · exact .inr ⟨t, rfl⟩

theorem Whole.drop_inert (h : Whole .plain (w ++ s)) (hw : ∀ c ∈ w, inert c) :
    Whole .plain s := by
  induction w with
  | nil => exact h
  | cons c w ih =>
    have hrest := h.2
    rw [next_plain_inert (hw c (.head _))] at hrest
    exact ih hrest fun d hd => hw d (List.mem_cons_of_mem c hd)

theorem Whole.cut_inert {m : Mode} (ht : m.Tagged) (h : Whole m (s ++ w))
    (hw : ∀ c ∈ w, inert c) : Whole m s := by
  induction s generalizing m with
  | nil => trivial
  | cons c s ih =>
    refine ⟨h.1, ?_⟩
    have hrest := h.2
    have hnext : m.next true c (s ++ w) = m.next true c s := by
      cases w with
      | nil => rw [List.append_nil]
      | cons d w => exact next_inert (hw d (.head _)) ht true c s w
    rw [List.append_eq, hnext] at hrest
    exact ih (ht.next true c s) hrest

theorem Whole.trimSpace (h : Whole .plain s) : Whole .plain (trimSpace s) := by
  obtain ⟨w, w', hs, hw, hw'⟩ := trimSpace_split s
  rw [hs, List.append_assoc] at h
  exact (h.drop_inert hw).cut_inert trivial hw'

theorem splitStatements_piece (h : Whole .plain s) (hne : trimSpace s ≠ []) :
    splitStatements (trimSpace s) = [trimSpace s] := by
  rw [splitStatements, splitFrom_whole h.trimSpace, List.nil_append, piece, trimSpace_trimSpace,
    if_neg hne]

theorem flatMap_piece (cs : List Bytes) :
    cs.flatMap piece = (cs.map trimSpace).filter (· ≠ []) := by
  induction cs with
  | nil => rfl
  | cons c cs ih =>
    rw [List.flatMap_cons, ih, List.map_cons, List.filter_cons, piece]
    by_cases hc : trimSpace c = []
    · simp [hc]
    · simp [hc]

/-- The statements of a query are the non-empty ones among the trimmed pieces between its
semicolons, and splitting a statement again gives the statement. -/
theorem splitStatements_lossless (query : Bytes) :
    (∃ cs : List Bytes, cs ≠ [] ∧ query = [';'.toUInt8].intercalate cs ∧
      splitStatements query = (cs.map trimSpace).filter (· ≠ [])) ∧
    ∀ stmt ∈ splitStatements query, splitStatements stmt = [stmt] := by
  obtain ⟨hne, hjoin⟩ := pieces_join .plain [] query
  have hsplit := splitFrom_pieces .plain [] query
  refine ⟨⟨_, hne, hjoin, hsplit.trans (flatMap_piece _)⟩, ?_⟩
  intro stmt hstmt
  rw [splitStatements, hsplit, List.mem_flatMap] at hstmt
  obtain ⟨c, hc, hpiece⟩ := hstmt
  have hwhole : Whole .plain c := by
    obtain ⟨p, rest, heq, hp, -, hrest⟩ := pieces_whole (m := .plain) trivial [] query
    rw [heq, List.nil_append] at hc
    rcases List.mem_cons.mp hc with rfl | hc
    · exact hp
    · exact hrest c hc
  unfold piece at hpiece
  split at hpiece
  · cases hpiece
  · rename_i htrim
    rw [List.mem_singleton.mp hpiece]
    exact splitStatements_piece hwhole htrim

end Pieces

end Pgmux
