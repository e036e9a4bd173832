import Pgmux.PgLiterals
import Pgmux.Redact

namespace Pgmux

open Regex

namespace Redact

def isStop (c : UInt8) : Bool := !isRegexWord c && !numberPattern.reads c

/-- One segment of a part of a text: what it reads, the segment, and whether it ends in a word byte.
-/
inductive Step (s t : Bytes) (b : Bool) : Bytes → Segment UInt8 → Bool → Prop
  | closed : isQuote k = true → k ∉ y → Step s t b (k :: y ++ [k]) (.matched (k :: y ++ [k])) false
  | lone : isQuote k = true → k ∉ s → k ∉ t → Step s t b [k] (.copied k) false
  | plain : isQuote c = false → numberPattern.matchesAt isRegexWord b (c :: (s ++ t)) = [] →
    Step s t b [c] (.copied c) (isRegexWord c)
  | number : (numberPattern.matchesAt isRegexWord b (m ++ (s ++ t))).head? = some (m, s ++ t) →
    Step s t b m (.matched m) (behind isRegexWord b m)

/-- The scan of a part of a text with `t` behind it: its segments, up to a quote that is closed in
`t` if there is one. -/
inductive Reads (t : Bytes) : Bool → Bytes → List (Segment UInt8) → Option UInt8 → Prop
  | done : scan b t = scan false t → Reads t b [] [] none
  | step : Step s t b r g b' → Reads t b' s segs st → Reads t b (r ++ s) (g :: segs) st
  | opens : isQuote k = true → k ∉ s → k ∈ t → Reads t b (k :: s) [] (some k)

/-- The quote that is open behind a part of a text with `t` behind it, if each quote is closed by
the next one of its kind. A quote that does not come again opens nothing. -/
def openQuote (t : Bytes) : Option UInt8 → Bytes → Option UInt8
  | q, [] => q
  | some k, c :: s => openQuote t (if c = k then none else some k) s
  | none, c :: s => openQuote t (if isQuote c ∧ c ∈ s ++ t then some c else none) s

inductive Ended (p t : Bytes) : Prop
  | inside : p = u ++ [z] → isStop z = true → Ended p t
  | atEnd : t = [] → Ended p t
  | before : t = z :: t' → isStop z = true → Ended p t

section Stops

theorem isStop_of_isQuote (hk : isQuote k) : isStop k := by
  rcases Bool.or_eq_true _ _ |>.mp hk with h | h <;> rw [eq_of_beq h] <;> decide

theorem isStop_iff : isStop z ↔ isRegexWord z = false ∧ numberPattern.reads z = false := by
  simp [isStop]

theorem isDigit_of_isStop (hz : isStop z) : isDigit z = false := by
  rw [← Bool.not_eq_true]
  intro hd
  have hread := (isStop_iff.mp hz).2
  simp [numberPattern, Expr.oneOrMore, Expr.reads, hd] at hread

theorem scan_stop (hz : isStop z) (b : Bool) (t : Bytes) :
    scan b (z :: t) = scan false (z :: t) := by
  by_cases hq : isQuote z
  · by_cases hm : z ∈ t
    · obtain ⟨y, w, rfl, hy⟩ := List.eq_append_cons_of_mem hm
      exact (scan_closed hq hy b w).trans (scan_closed hq hy false w).symm
    · rw [scan_lone hq hm, scan_lone hq hm]
  · have hq := Bool.not_eq_true _ ▸ hq
    have hn := numberPattern_other (isDigit_of_isStop hz) (s := t)
    rw [scan_plain hq (hn b), scan_plain hq (hn false)]

theorem Ended.scan_behind (h : Ended p t) (b : Bool) :
    scan (behind isRegexWord b p) t = scan false t := by
  cases h with
  | inside hu hz =>
    rw [hu, behind_append, behind_cons, behind_nil, (isStop_iff.mp hz).1]
  | atEnd ht => rw [ht]; rfl
  | before ht hz => rw [ht, scan_stop hz]

theorem Ended.number (h : Ended p t) (hm : m ∈ numberPattern.matchesAt isRegexWord b (p ++ t)) :
    ∃ s, p = m.1 ++ s ∧ m.2 = s ++ t := by
  cases h with
  | @inside u z hu hz =>
    rw [hu, List.append_assoc] at hm
    obtain ⟨v, rfl, hv⟩ := ends_before (isStop_iff.mp hz).2 hm
    exact ⟨v ++ [z], by rw [hu, List.append_assoc], by rw [hv, List.append_assoc]; rfl⟩
  | atEnd ht =>
    subst ht
    rw [List.append_nil] at hm
    exact ⟨m.2, (append_of_mem_matchesAt hm).symm, (List.append_nil _).symm⟩
  | before ht hz =>
    subst ht
    exact ends_before (isStop_iff.mp hz).2 hm

theorem Ended.suffix (h : Ended (r ++ s) t) (hs : s ≠ []) : Ended s t := by
  cases h with
  | @inside u z hu hz =>
    obtain ⟨s, c, rfl⟩ := (List.eq_nil_or_concat s).resolve_left hs
    rw [List.concat_eq_append] at hu ⊢
    rw [← List.append_assoc] at hu
    obtain ⟨-, hc⟩ := List.append_inj' hu rfl
    exact .inside rfl ((List.singleton_inj.mp hc) ▸ hz)
  | atEnd ht => exact .atEnd ht
  | before ht hz => exact .before ht hz

end Stops

section Reading

variable {s t : Bytes} {b b' : Bool} {g : Segment UInt8} {segs : List (Segment UInt8)}
  {st : Option UInt8}

theorem Step.scan (h : Step s t b r g b') : scan b (r ++ (s ++ t)) = g :: scan b' (s ++ t) := by
  cases h with
  | closed hk hy =>
    rw [List.append_assoc]
    exact scan_closed hk hy b (s ++ t)
  | lone hk hs ht => exact scan_lone hk (fun h => (List.mem_append.mp h).elim hs ht) b
  | plain hc hn => exact scan_plain hc hn
  | number hn => exact scan_number hn

theorem Step.text (h : Step s t b r g b') : g.text = r := by
  cases h <;> rfl

theorem Step.ne_nil (h : Step s t b r g b') : r ≠ [] := by
  cases h with
  | closed => simp
  | lone => exact List.cons_ne_nil _ _
  | plain => exact List.cons_ne_nil _ _
  | number hn => exact numberPattern_ne_nil (List.mem_of_head? hn)

theorem Ended.step (h : Ended p t) (hp : p ≠ []) (b : Bool) :
    (∃ k s, p = k :: s ∧ isQuote k ∧ k ∉ s ∧ k ∈ t) ∨
    ∃ r s g b', p = r ++ s ∧ Step s t b r g b' ∧
      (s = [] → Redact.scan b' t = Redact.scan false t) := by
  obtain ⟨c, s, rfl⟩ := List.exists_cons_of_ne_nil hp
  by_cases hc : isQuote c
  · by_cases hs : c ∈ s
    · obtain ⟨y, w, rfl, hy⟩ := List.eq_append_cons_of_mem hs
      exact .inr ⟨c :: y ++ [c], w, _, false, by simp, .closed hc hy, fun _ => rfl⟩
    · by_cases ht : c ∈ t
      · exact .inl ⟨c, s, rfl, hc, hs, ht⟩
      · exact .inr ⟨[c], s, _, false, rfl, .lone hc hs ht, fun _ => rfl⟩
  · rw [Bool.not_eq_true] at hc
    cases hn : (numberPattern.matchesAt isRegexWord b (c :: s ++ t)).head? with
    | none =>
      refine .inr ⟨[c], s, _, isRegexWord c, rfl, .plain hc (List.head?_eq_none_iff.mp hn), ?_⟩
      rintro rfl
      exact h.scan_behind b
    | some m =>
      obtain ⟨w, hw, hrest⟩ := h.number (List.mem_of_head? hn)
      rw [hw, List.append_assoc] at hn
      refine .inr ⟨m.1, w, _, _, hw, .number (hn.trans (by rw [← hrest])), ?_⟩
      rintro rfl
      rw [List.append_nil] at hw
      rw [hw] at h
      exact h.scan_behind b

theorem exists_reads (hp : p ≠ [] → Ended p t) (hnil : p = [] → scan b t = scan false t) :
    ∃ segs st, Reads t b p segs st := by
  induction hlen : p.length using Nat.strong_induction_on generalizing p b with
  | _ n ih =>
    subst hlen
    by_cases hne : p = []
    · subst hne
      exact ⟨[], none, .done (hnil rfl)⟩
    · rcases (hp hne).step hne b with ⟨k, s, rfl, hk, hs, ht⟩ | ⟨r, s, g, b', rfl, hstep, hdone⟩
      · exact ⟨[], some k, .opens hk hs ht⟩
      · have hpos := List.length_pos_iff.mpr hstep.ne_nil
        obtain ⟨segs, st, h⟩ := ih s.length (by simp; omega) (hp hne).suffix hdone rfl
        exact ⟨g :: segs, st, .step hstep h⟩

theorem Reads.scan_none (h : Reads t b p segs none) :
    scan b (p ++ t) = segs ++ scan false t ∧ text segs = p := by
  generalize hst : none = st at h
  induction h with
  | done h => exact ⟨h, rfl⟩
  | step hstep _ ih =>
    obtain ⟨hscan, htext⟩ := ih hst
    constructor
    · rw [List.append_assoc, hstep.scan, hscan]
      rfl
    · exact congrArg₂ (· ++ ·) hstep.text htext
  | opens => cases hst

/-- The quote that is open at the end of a part is closed by the next one behind the part. -/
theorem Reads.scan_some (h : Reads t b p segs (some k)) :
    isQuote k ∧ k ∈ t ∧ ∃ s, p = text segs ++ k :: s ∧
      ∀ v w, t = v ++ k :: w → k ∉ v →
        scan b (p ++ t) = segs ++ .matched (k :: s ++ v ++ [k]) :: scan false w := by
  generalize hst : some k = st at h
  induction h with
  | done => cases hst
  | @step s b r g b' segs st hstep _ ih =>
    obtain ⟨hquote, hmem, s', htext, hscan⟩ := ih hst
    refine ⟨hquote, hmem, s', ?_, ?_⟩
    · rw [htext, ← List.append_assoc]
      exact congrArg (· ++ text segs ++ k :: s') hstep.text.symm
    · intro v w ht hv
      rw [List.append_assoc, hstep.scan, hscan v w ht hv]
      rfl
  | @opens k' s b hk hs ht =>
    cases hst
    refine ⟨hk, ht, s, rfl, ?_⟩
    intro v w ht hv
    have hnot : k ∉ s ++ v := fun h => (List.mem_append.mp h).elim hs hv
    rw [ht, ← List.append_assoc, List.cons_append, scan_closed hk hnot]
    rfl

theorem openQuote_plain (hr : ∀ c ∈ r, isQuote c = false) (s : Bytes) :
    openQuote t none (r ++ s) = openQuote t none s := by
  induction r with
  | nil => rfl
  | cons c r ih =>
    obtain ⟨hc, hr⟩ := List.forall_mem_cons.mp hr
    rw [List.cons_append, openQuote, if_neg (by simp [hc]), ih hr]

theorem openQuote_inside (hy : k ∉ y) (s : Bytes) :
    openQuote t (some k) (y ++ s) = openQuote t (some k) s := by
  induction y with
  | nil => rfl
  | cons c y ih =>
    obtain ⟨hc, hy⟩ := not_or.mp (mt List.mem_cons.mpr hy)
    rw [List.cons_append, openQuote, if_neg (Ne.symm hc), ih hy]

theorem Step.openQuote (h : Step s t b r g b') :
    openQuote t none (r ++ s) = openQuote t none s := by
  cases h with
  | @closed k y hk hy =>
    rw [List.append_assoc, List.cons_append, Redact.openQuote, if_pos ⟨hk, by simp⟩,
      openQuote_inside hy, List.singleton_append, Redact.openQuote, if_pos rfl]
  | lone hk hs ht =>
    have hnot : ¬ _ ∈ s ++ t := fun hm => (List.mem_append.mp hm).elim hs ht
    rw [List.singleton_append, Redact.openQuote, if_neg fun h => hnot h.2]
  | plain hc =>
    exact openQuote_plain (List.forall_mem_singleton.mpr hc) s
  | number hn =>
    refine openQuote_plain (fun c hc => ?_) s
    have hread := reads_of_mem_matchesAt (List.mem_of_head? hn) hc
    rw [← Bool.not_eq_true]
    intro hq
    rw [(isStop_iff.mp (isStop_of_isQuote hq)).2] at hread
    cases hread

theorem Reads.openQuote_eq (h : Reads t b p segs st) : openQuote t none p = st := by
  induction h with
  | done => rfl
  | step hstep _ ih => rw [hstep.openQuote, ih]
  | @opens k s b hk hs ht =>
    rw [openQuote, if_pos ⟨hk, List.mem_append_right s ht⟩, ← List.append_nil s,
      openQuote_inside hs]
    rfl

theorem Step.behind_eq (h : Step s t b r g b') : b' = behind isRegexWord b r := by
  cases h with
  | closed hk =>
    rw [behind_append]
    exact (isRegexWord_of_isQuote hk).symm
  | lone hk => exact (isRegexWord_of_isQuote hk).symm
  | plain => rfl
  | number => rfl

theorem Step.last (h : Step [] t b (y ++ [k]) g b') (hk : isQuote k) (hy : k ∉ y) :
    g = .copied k := by
  generalize hr : y ++ [k] = r at h
  cases h with
  | @closed k' y' hk' _ =>
    obtain ⟨rfl, hlast⟩ := List.append_inj' hr rfl
    rw [List.singleton_inj.mp hlast] at hy
    simp at hy
  | lone =>
    obtain ⟨-, hlast⟩ := List.append_inj' (hr.trans (List.nil_append _).symm) rfl
    rw [List.singleton_inj.mp hlast]
  | plain hc =>
    obtain ⟨-, hlast⟩ := List.append_inj' (hr.trans (List.nil_append _).symm) rfl
    rw [← List.singleton_inj.mp hlast, hk] at hc
    cases hc
  | number hn =>
    have hread := reads_of_mem_matchesAt (List.mem_of_head? hn) (c := k) (by rw [← hr]; simp)
    rw [(isStop_iff.mp (isStop_of_isQuote hk)).2] at hread
    cases hread

theorem append_eq_concat {r s y : Bytes} (h : r ++ s = y ++ [k]) (hs : s ≠ []) :
    ∃ s', s = s' ++ [k] ∧ y = r ++ s' := by
  obtain ⟨s, c, rfl⟩ := (List.eq_nil_or_concat s).resolve_left hs
  rw [List.concat_eq_append, ← List.append_assoc] at h
  obtain ⟨hy, hc⟩ := List.append_inj' h rfl
  exact ⟨s, by rw [List.concat_eq_append, hc], hy.symm⟩

theorem Reads.nil (h : Reads t b [] segs st) : segs = [] := by
  generalize hp : [] = p at h
  cases h with
  | done => rfl
  | step hstep => exact absurd (List.append_eq_nil_iff.mp hp.symm).1 hstep.ne_nil
  | opens => rfl

theorem Reads.last (h : Reads t b p segs none) (hp : p = y ++ [k]) (hk : isQuote k)
    (hy : k ∉ y) : ∃ segs', segs = segs' ++ [.copied k] := by
  generalize hst : none = st at h
  induction h generalizing y with
  | done => simp at hp
  | @step s b r g b' segs st hstep hrest ih =>
    by_cases hs : s = []
    · subst hs
      rw [List.append_nil] at hp
      subst hp
      exact ⟨[], by rw [hrest.nil, hstep.last hk hy]; rfl⟩
    · obtain ⟨s', hs', rfl⟩ := append_eq_concat hp hs
      obtain ⟨segs', rfl⟩ := ih hs' (fun h => hy (List.mem_append_right _ h)) hst
      exact ⟨g :: segs', rfl⟩
  | opens => cases hst

end Reading

section Output

abbrev shown (segs : List (Segment UInt8)) : Bytes := render (ascii "?") segs

theorem shown_append (segs segs' : List (Segment UInt8)) :
    shown (segs ++ segs') = shown segs ++ shown segs' := render_append ..

theorem shown_matched (m : Bytes) (segs : List (Segment UInt8)) :
    shown (.matched m :: segs) = '?'.toUInt8 :: shown segs := rfl

theorem shown_copied (c : UInt8) (segs : List (Segment UInt8)) :
    shown (.copied c :: segs) = c :: shown segs := rfl

theorem isQuote_of_getLast_shown {x : Bytes} (h : (x ++ ['?'.toUInt8]).getLast? = some q) :
    isQuote q = false := by
  rw [List.getLast?_concat] at h
  cases h
  rfl

theorem shown_shift (hk : isQuote k) (hy : k ∉ y) {x z : Bytes}
    (hz : ∀ q, z.getLast? = some q → isQuote q = false) (w : Bytes) :
    x ++ shown (scan false (y ++ k :: w)) ≠ z ++ shown (scan false w) := by
  -- The quote either stays open, and is shown, or the scan meets `w` again behind a later quote.
  induction hlen : w.length using Nat.strong_induction_on generalizing y k x z w with
  | _ n ih =>
    subst hlen
    intro heq
    have hend : Ended (y ++ [k]) w := .inside rfl (isStop_of_isQuote hk)
    obtain ⟨segs, st, h⟩ := exists_reads (p := y ++ [k]) (fun _ => hend) (b := false) (by simp)
    rw [show y ++ k :: w = y ++ [k] ++ w by simp] at heq
    cases st with
    | none =>
      obtain ⟨segs', rfl⟩ := h.last rfl hk hy
      rw [h.scan_none.1, shown_append, ← List.append_assoc] at heq
      have hlast : z.getLast? = some k := by
        rw [← List.append_cancel_right heq, shown_append, ← List.append_assoc]
        exact List.getLast?_concat
      rw [hz k hlast] at hk
      cases hk
    | some k' =>
      obtain ⟨hk', hmem, s, -, hscan⟩ := h.scan_some
      obtain ⟨v, w', rfl, hv⟩ := List.eq_append_cons_of_mem hmem
      rw [hscan v w' rfl hv, shown_append, shown_matched] at heq
      apply ih w'.length (by simp; omega) hk' hv (x := z) (z := x ++ shown segs ++ ['?'.toUInt8])
        (fun q => isQuote_of_getLast_shown) w' rfl
      rw [← heq]
      simp

theorem Reads.shown_ne (h : Reads t b p segs (some k)) (x z : Bytes) :
    x ++ shown (scan b (p ++ t)) ≠ z ++ shown (scan false t) := by
  intro heq
  obtain ⟨hk, hmem, s, -, hscan⟩ := h.scan_some
  obtain ⟨v, w, rfl, hv⟩ := List.eq_append_cons_of_mem hmem
  rw [hscan v w rfl hv, shown_append, shown_matched] at heq
  apply shown_shift hk hv (x := z) (z := x ++ shown segs ++ ['?'.toUInt8])
    (fun q => isQuote_of_getLast_shown) w
  rw [← heq]
  simp

theorem shown_eq_nil (h : shown segs = []) : segs = [] := by
  cases segs with
  | nil => rfl
  | cons g segs => cases g <;> cases h

theorem shown_quote_append (hk : isQuote k) (u w : Bytes) :
    shown (scan false (u ++ k :: w)) ≠ shown (scan false w) := by
  intro heq
  have hend : Ended (u ++ [k]) w := .inside rfl (isStop_of_isQuote hk)
  obtain ⟨segs, st, h⟩ := exists_reads (p := u ++ [k]) (fun _ => hend) (b := false) (by simp)
  rw [show u ++ k :: w = u ++ [k] ++ w by simp] at heq
  cases st with
  | none =>
    obtain ⟨hscan, htext⟩ := h.scan_none
    rw [hscan, shown_append, List.append_left_eq_self] at heq
    rw [shown_eq_nil heq] at htext
    simp [text] at htext
  | some k' => exact h.shown_ne [] [] heq

theorem Reads.scan_starts (h : Reads t b p segs st) : ∃ more, scan b (p ++ t) = segs ++ more := by
  cases st with
  | none => exact ⟨_, h.scan_none.1⟩
  | some k =>
    obtain ⟨-, hmem, s, -, hscan⟩ := h.scan_some
    obtain ⟨v, w, ht, hv⟩ := List.eq_append_cons_of_mem hmem
    exact ⟨_, hscan v w ht hv⟩

theorem text_of_shown (h : '?'.toUInt8 ∉ shown segs) : text segs = shown segs := by
  induction segs with
  | nil => rfl
  | cons g segs ih =>
    cases g with
    | copied c =>
      have hrest := ih fun hm => h (List.mem_cons_of_mem c hm)
      exact congrArg (c :: ·) hrest
    | matched m => exact absurd (.head _) h

end Output

section Tails

variable {s t t' : Bytes} {b b' : Bool} {g : Segment UInt8} {segs : List (Segment UInt8)}
  {st : Option UInt8}

theorem numberPattern_append (hz : isStop z) (b : Bool) (u t : Bytes) :
    numberPattern.matchesAt isRegexWord b (u ++ [z] ++ t) =
      (numberPattern.matchesAt isRegexWord b (u ++ [z])).map fun m => (m.1, m.2 ++ t) := by
  rw [List.append_assoc]
  exact matchesAt_before (isStop_iff.mp hz).2 b u t

theorem Step.transfer (h : Step s t b r g b') (hp : r ++ s = u ++ [z]) (hz : isStop z)
    (hsub : ∀ k, isQuote k → k ∈ t' → k ∈ t) : Step s t' b r g b' := by
  cases h with
  | closed hk hy => exact .closed hk hy
  | lone hk hs ht => exact .lone hk hs fun h => ht (hsub _ hk h)
  | plain hc hn =>
    apply Step.plain hc
    rw [← List.cons_append, ← List.singleton_append, hp, numberPattern_append hz,
      List.map_eq_nil_iff] at hn
    rw [← List.cons_append, ← List.singleton_append, hp, numberPattern_append hz, hn]
    rfl
  | number hn =>
    apply Step.number
    rw [← List.append_assoc, hp, numberPattern_append hz, List.head?_map] at hn
    obtain ⟨m, hm, heq⟩ := Option.map_eq_some_iff.mp hn
    rw [← List.append_assoc, hp, numberPattern_append hz, List.head?_map, hm]
    obtain ⟨h₁, h₂⟩ := Prod.mk.inj heq
    rw [Option.map_some, h₁, List.append_cancel_right h₂]

theorem Reads.transfer (h : Reads t b p segs st) (hnil : p = [] → b = false)
    (hend : p ≠ [] → ∃ u z, p = u ++ [z] ∧ isStop z)
    (hsub : ∀ k, isQuote k → k ∈ q → k ∈ t) :
    (Reads q b p segs st ∧ ∀ k, st = some k → k ∈ q) ∨
    ∃ k more st', st = some k ∧ k ∉ q ∧ Reads q b p (segs ++ .copied k :: more) st' := by
  induction h with
  | done =>
    rw [hnil rfl]
    exact .inl ⟨.done rfl, fun k hk => by cases hk⟩
  | @step s b r g b' segs st hstep _ ih =>
    obtain ⟨u, z, hp, hz⟩ := hend (List.append_ne_nil_of_left_ne_nil hstep.ne_nil s)
    have hstep' := hstep.transfer hp hz hsub
    have hnil' : s = [] → b' = false := by
      rintro rfl
      rw [List.append_nil] at hp
      rw [hstep.behind_eq, hp, behind_append]
      exact (isStop_iff.mp hz).1
    have hend' : s ≠ [] → ∃ u z, s = u ++ [z] ∧ isStop z := by
      intro hs
      obtain ⟨s', hs', -⟩ := append_eq_concat hp hs
      exact ⟨s', z, hs', hz⟩
    rcases ih hnil' hend' with ⟨h, hk⟩ | ⟨k, more, st', hst, hk, h⟩
    · exact .inl ⟨.step hstep' h, hk⟩
    · exact .inr ⟨k, more, st', hst, hk, .step hstep' h⟩
  | @opens k s b hk hs ht =>
    by_cases hm : k ∈ q
    · exact .inl ⟨.opens hk hs hm, fun k' hk' => by cases hk'; exact hm⟩
    · obtain ⟨u, z, hp, hz⟩ := hend (List.cons_ne_nil k s)
      have hended : s ≠ [] → Ended s q := by
        intro hs
        obtain ⟨s', hs', -⟩ := append_eq_concat (r := [k]) hp hs
        exact .inside hs' hz
      obtain ⟨more, st', h⟩ := exists_reads (b := false) hended (fun _ => rfl)
      exact .inr ⟨k, more, st', rfl, hm, .step (.lone hk hs hm) h⟩

end Tails

def isLetter (c : UInt8) : Bool := (65 ≤ c && c ≤ 90) || (97 ≤ c && c ≤ 122) || 0x80 ≤ c

def Letters (s : Bytes) : Prop := ∀ c ∈ s, isLetter c = true

section Contents

theorem isLetter_classes (h : isLetter c) :
    isQuote c = false ∧ isDigit c = false ∧ c ≠ '?'.toUInt8 := by
  have hall : ∀ c, isLetter c → isQuote c = false ∧ isDigit c = false ∧ c ≠ '?'.toUInt8 :=
    forall_byte (by decide +kernel)
  exact hall c h

theorem shown_letters (hy : Letters y) (b : Bool) (t : Bytes) :
    shown (scan b (y ++ t)) = y ++ shown (scan (behind isRegexWord b y) t) := by
  induction y generalizing b with
  | nil => rfl
  | cons c y ih =>
    obtain ⟨hc, hy⟩ := List.forall_mem_cons.mp hy
    obtain ⟨hquote, hdigit, -⟩ := isLetter_classes hc
    rw [List.cons_append, scan_plain hquote (numberPattern_other hdigit b _), shown_copied, ih hy]
    rfl

theorem not_mem_of_letters (hy : Letters y) (hk : isQuote k) : k ∉ y := by
  intro h
  rw [(isLetter_classes (hy k h)).1] at hk
  cases hk

theorem Ended.of_nil (h : Ended [] t) (p : Bytes) : Ended p t := by
  cases h with
  | inside hu => simp at hu
  | atEnd ht => exact .atEnd ht
  | before ht hz => exact .before ht hz

theorem shown_content_ne (hy : Letters y) (hne : y ≠ x) (ht : Ended [] t) :
    shown (scan false (y ++ t)) ≠ shown (scan false (x ++ t)) := by
  intro heq
  rw [shown_letters hy, (ht.of_nil y).scan_behind] at heq
  obtain ⟨segs, st, h⟩ := exists_reads (p := x) (b := false) (fun _ => ht.of_nil x) (fun _ => rfl)
  cases st with
  | none =>
    obtain ⟨hscan, htext⟩ := h.scan_none
    rw [hscan, shown_append] at heq
    have hshown := List.append_cancel_right heq
    have hmark : '?'.toUInt8 ∉ shown segs := by
      rw [← hshown]
      exact fun hm => (isLetter_classes (hy _ hm)).2.2 rfl
    rw [← text_of_shown hmark, htext] at hshown
    exact hne hshown
  | some k => exact h.shown_ne [] y heq.symm

theorem quotes_of_letters (hy : Letters y) (hk : isQuote k) (hm : k ∈ y ++ t) : k ∈ x ++ t :=
  List.mem_append_right _ ((List.mem_append.mp hm).resolve_left (not_mem_of_letters hy hk))

theorem shown_ne_of_inner (h : Reads (x ++ t) false p segs (some k)) (hx : k ∈ x)
    (hnil : p ≠ []) (hend : ∃ u z, p = u ++ [z] ∧ isStop z) (hy : Letters y) :
    shown (scan false (p ++ (y ++ t))) ≠ shown (scan false (p ++ (x ++ t))) := by
  obtain ⟨hk, -, s, -, hscan⟩ := h.scan_some
  obtain ⟨v, w, rfl, hv⟩ := List.eq_append_cons_of_mem hx
  rw [hscan v (w ++ t) (by simp) hv, shown_append, shown_matched]
  rcases h.transfer (q := y ++ t) (fun hp => absurd hp hnil) (fun _ => hend)
    (fun k => quotes_of_letters hy) with ⟨h', hk'⟩ | ⟨k', more, st', hst, -, h'⟩
  · have hkt := (List.mem_append.mp (hk' k rfl)).resolve_left (not_mem_of_letters hy hk)
    obtain ⟨r, w', rfl, hr⟩ := List.eq_append_cons_of_mem hkt
    obtain ⟨-, -, s', -, hscan'⟩ := h'.scan_some
    have hnot : k ∉ y ++ r := fun hm => (List.mem_append.mp hm).elim (not_mem_of_letters hy hk) hr
    rw [hscan' (y ++ r) w' (by simp) hnot, shown_append, shown_matched]
    intro heq
    have hshown := (List.cons.inj (List.append_cancel_left heq)).2
    rw [← List.append_assoc] at hshown
    exact shown_quote_append hk (w ++ r) w' hshown.symm
  · cases hst
    obtain ⟨rest, hrest⟩ := h'.scan_starts
    rw [hrest, List.append_assoc, shown_append, List.cons_append, shown_copied]
    intro heq
    have hmark := (List.cons.inj (List.append_cancel_left heq)).1
    rw [hmark] at hk
    cases hk

theorem shown_eq_of_outer (h : Reads (x ++ t) false p segs (some k)) (hx : k ∉ x)
    (hnil : p ≠ []) (hend : ∃ u z, p = u ++ [z] ∧ isStop z) (hy : Letters y) :
    shown (scan false (p ++ (y ++ t))) = shown (scan false (p ++ (x ++ t))) := by
  obtain ⟨hk, hmem, s, -, hscan⟩ := h.scan_some
  have hkt := (List.mem_append.mp hmem).resolve_left hx
  have hky := not_mem_of_letters hy hk
  rcases h.transfer (q := y ++ t) (fun hp => absurd hp hnil) (fun _ => hend)
    (fun k => quotes_of_letters hy) with ⟨h', -⟩ | ⟨k', more, st', hst, hk', -⟩
  · obtain ⟨v, w, rfl, hv⟩ := List.eq_append_cons_of_mem hkt
    obtain ⟨-, -, s', -, hscan'⟩ := h'.scan_some
    rw [hscan (x ++ v) w (by simp) (fun hm => (List.mem_append.mp hm).elim hx hv),
      hscan' (y ++ v) w (by simp) (fun hm => (List.mem_append.mp hm).elim hky hv),
      shown_append, shown_append, shown_matched, shown_matched]
  · cases hst
    exact absurd (List.mem_append_right y hkt) hk'

/-- Letters in the place of a content change what is shown, unless a quote that is open in front of
the content is not in it. -/
theorem shown_iff_openQuote (hend : p = u ++ [z]) (hz : isStop z) (ht : Ended [] t)
    (hy : Letters y) (hne : y ≠ x) :
    shown (scan false (p ++ (y ++ t))) = shown (scan false (p ++ (x ++ t))) ↔
      ∃ k, openQuote (x ++ t) none p = some k ∧ k ∉ x := by
  have hnil : p ≠ [] := by simp [hend]
  obtain ⟨segs, st, h⟩ := exists_reads (p := p) (t := x ++ t) (b := false)
    (fun _ => .inside hend hz) (fun _ => rfl)
  rw [h.openQuote_eq]
  cases st with
  | none =>
    have h' : Reads (y ++ t) false p segs none := by
      rcases h.transfer (fun hp => absurd hp hnil) (fun _ => ⟨u, z, hend, hz⟩)
        (fun k => quotes_of_letters hy) with ⟨h', -⟩ | ⟨k, -, -, hk, -⟩
      · exact h'
      · cases hk
    refine iff_of_false ?_ (by simp)
    rw [h.scan_none.1, h'.scan_none.1, shown_append, shown_append, List.append_right_inj]
    exact shown_content_ne hy hne ht
  | some k =>
    by_cases hx : k ∈ x
    · refine iff_of_false (shown_ne_of_inner h hx hnil ⟨u, z, hend, hz⟩ hy) ?_
      rintro ⟨k', hk', hnot⟩
      cases hk'
      exact hnot hx
    · exact iff_of_true (shown_eq_of_outer h hx hnil ⟨u, z, hend, hz⟩ hy) ⟨k, rfl, hx⟩

end Contents

/-- A quote that is open in front of the content of the literal does not come in it. -/
def Enclosed (r : LiteralRegion) : Prop :=
  ∃ k, openQuote (r.content ++ (r.closer ++ r.rest)) none (r.before ++ r.opener) = some k ∧
    k ∉ r.content

section Regions

theorem opener_ends (h : IsLiteral b opener content closer rest) :
    ∃ u z, opener = u ++ [z] ∧ isStop z := by
  have hquote : isStop quote := isStop_of_isQuote rfl
  have hdollar {s tag : Bytes} (h : dollarDelimiter s = some tag) :
      ∃ u z, tag = u ++ [z] ∧ isStop z := by
    obtain ⟨name, rfl⟩ := dollarDelimiter_shape h
    exact ⟨'$'.toUInt8 :: name, _, rfl, by decide⟩
  cases h with
  | quoted => exact ⟨[], quote, rfl, hquote⟩
  | dollar _ hopen => exact hdollar hopen
  | openQuoted => exact ⟨[], quote, rfl, hquote⟩
  | openEscape => exact ⟨[], quote, rfl, hquote⟩
  | openDollar _ hopen => exact hdollar hopen

theorem closer_ended (h : IsLiteral b opener content closer rest) : Ended [] (closer ++ rest) := by
  cases h with
  | quoted => exact .before rfl (isStop_of_isQuote rfl)
  | dollar _ hopen =>
    obtain ⟨name, rfl⟩ := dollarDelimiter_shape hopen
    exact .before rfl (by decide)
  | openQuoted => exact .atEnd rfl
  | openEscape => exact .atEnd rfl
  | openDollar => exact .atEnd rfl

variable [Normalizer]

theorem sql_of_rejected (h : Normalizer.normalize q = none) :
    sql q .literals = shown (scan false q) := by
  rw [sql, h]
  rfl

end Regions

@[reducible] def rejecting : Normalizer := ⟨fun _ => none, fun _ => none⟩

def quotedRegion : LiteralRegion where
  before := ascii "SELEC "
  lead := .none
  opener := ascii "'"
  content := ascii "alice"
  closer := ascii "'"
  rest := ascii " 42"
  outside := by decide
  literal := .quoted (.of_forall (by decide)) (by decide)

def dollarRegion : LiteralRegion where
  before := ascii "SELEC "
  lead := .none
  opener := ascii "$$"
  content := ascii "secret"
  closer := ascii "$$"
  rest := []
  outside := by decide
  literal := .dollar rfl (by decide) (by decide)

end Redact

end Pgmux
