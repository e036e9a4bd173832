import Pgmux.Scanning
import Pgmux.Synthesizer

namespace Pgmux

/-- `t` is `s` with some of its placeholders replaced by their values, every other byte kept. -/
inductive Substituted (literals : List Bytes) : Bytes → Bytes → Prop
  | nil : Substituted literals [] []
  | keep (c : UInt8) : Substituted literals s t → Substituted literals (c :: s) (c :: t)
  | replace : digits ≠ [] → digits.all isDigit = true → s.head?.any isDigit = false →
    1 ≤ decimal digits → literals[decimal digits - 1]? = some lit → Substituted literals s t →
    Substituted literals ('$'.toUInt8 :: (digits ++ s)) (lit ++ t)

/-- The text ends with a tag that opens a dollar-quoted literal. -/
def opensAtEnd : Mode → Bytes → Bool
  | _, [] => false
  | .plain, c :: s =>
    if c = quote then opensAtEnd .single s
    else match parseDollarTag (c :: s) with
      | some tag =>
        tag.length = s.length + 1 || opensAtEnd (.copy (tag.length - 2) (.dollar tag)) s
      | none => opensAtEnd .plain s
  | m, c :: s => opensAtEnd (m.next false c s) s

theorem opensAtEnd_digits (h : u.all isDigit) (s : Bytes) :
    opensAtEnd .plain (u ++ s) = opensAtEnd .plain s := by
  induction u with
  | nil => rfl
  | cons c u ih =>
    rw [List.all_cons, Bool.and_eq_true] at h
    have hq : c ≠ quote := by
      rintro rfl
      exact absurd h.1 (by decide)
    have ht : parseDollarTag (c :: (u ++ s)) = none := by
      cases hp : parseDollarTag (c :: (u ++ s)) with
      | none => rfl
      | some tag =>
        have hc := Option.some.inj (parseDollarTag_isTag hp).1
        rw [hc] at h
        exact absurd h.1 (by decide)
    rw [List.cons_append, opensAtEnd, if_neg hq, ht]
    exact ih h.2

theorem decimal_pos (hd : isDigit c) (hne : c ≠ '0'.toUInt8) (s : Bytes) :
    1 ≤ decimal (c :: s) := by
  have hgrow (l : Bytes) (n : Nat) :
      n ≤ l.foldl (fun n c => n * 10 + (c.toNat - 48)) n := by
    induction l generalizing n with
    | nil => exact le_refl n
    | cons d l ih =>
      rw [List.foldl_cons]
      exact le_trans (by omega) (ih (n * 10 + (d.toNat - 48)))
  have hc : 1 ≤ c.toNat - 48 := by
    simp only [isDigit, Bool.and_eq_true, decide_eq_true_eq, UInt8.le_iff_toNat_le] at hd
    have h48 : c.toNat ≠ 48 := fun h => hne (UInt8.toNat_inj.mp h)
    have := hd.1
    simp only [UInt8.reduceToNat] at this
    omega
  rw [decimal, List.foldl_cons, Nat.zero_mul, Nat.zero_add]
  exact le_trans hc (hgrow s _)

theorem exists_digits (s : Bytes) : ∃ u v, s = u ++ v ∧ s.takeWhile isDigit = u ∧
    u.all isDigit ∧ v.head?.any isDigit = false := by
  refine ⟨s.takeWhile isDigit, s.dropWhile isDigit, List.takeWhile_append_dropWhile.symm, rfl,
    List.all_takeWhile, ?_⟩
  have h := List.head?_dropWhile_not isDigit s
  cases hd : (s.dropWhile isDigit).head? with
  | none => rfl
  | some c =>
    rw [hd] at h
    exact h

theorem placeholder_digits (h : placeholder literals s = some lit) :
    s.takeWhile isDigit ≠ [] ∧ 1 ≤ decimal (s.takeWhile isDigit) ∧
      literals[decimal (s.takeWhile isDigit) - 1]? = some lit := by
  unfold placeholder at h
  split at h
  · rename_i hhead
    cases s with
    | nil => cases hhead
    | cons c s =>
      rw [List.head?_cons, Option.any_some, Bool.and_eq_true, decide_eq_true_eq] at hhead
      rw [List.takeWhile_cons_of_pos hhead.1] at h ⊢
      exact ⟨List.cons_ne_nil _ _, decimal_pos hhead.1 hhead.2 _, h⟩
  · cases h

theorem replaceFrom_substituted (literals : List Bytes) (skip : Nat) (m : Mode) (s : Bytes)
    (h : opensAtEnd m (s.drop skip) = false) :
    Substituted literals (s.drop skip) (replaceFrom literals skip m s) := by
  induction s generalizing skip m with
  | nil =>
    rw [List.drop_nil, replaceFrom]
    exact .nil
  | cons c s ih =>
    cases skip with
    | succ k =>
      rw [List.drop_succ_cons, replaceFrom]
      exact ih k m h
    | zero =>
      rw [List.drop_zero] at h ⊢
      have hnext {m' : Mode} (h' : opensAtEnd m' s = false) :
          Substituted literals (c :: s) (c :: replaceFrom literals 0 m' s) := .keep c (ih 0 m' h')
      cases m with
      | plain =>
        rw [opensAtEnd] at h
        rw [replaceFrom]
        by_cases hq : c = quote
        · rw [if_pos hq] at h ⊢
          exact hnext h
        rw [if_neg hq] at h ⊢
        cases ht : parseDollarTag (c :: s) with
        | some tag =>
          rw [ht] at h
          obtain ⟨hlen, h⟩ := Bool.or_eq_false_iff.mp h
          dsimp only
          rw [if_neg (by simpa using hlen)]
          exact hnext h
        | none =>
          rw [ht] at h
          dsimp only at h ⊢
          by_cases hc : c = '$'.toUInt8
          · rw [if_pos hc]
            cases hp : placeholder literals s with
            | none => exact hnext h
            | some lit =>
              obtain ⟨u, v, rfl, hu, hall, hstop⟩ := exists_digits s
              obtain ⟨hne, hpos, hlit⟩ := placeholder_digits hp
              rw [hu] at hne hpos hlit ⊢
              rw [opensAtEnd_digits hall] at h
              have hrest := ih u.length .plain (by rwa [List.drop_left])
              rw [List.drop_left] at hrest
              rw [hc]
              exact .replace hne hall hstop hpos hlit hrest
          · rw [if_neg hc]
            exact hnext h
      | _ =>
        rw [opensAtEnd] at h
        · rw [replaceFrom]
          · exact hnext h
          all_goals
            intro hm
            cases hm
        all_goals
          intro hm
          cases hm

theorem Substituted.eq_of_nil (h : Substituted [] s t) : t = s := by
  induction h with
  | nil => rfl
  | keep c _ ih => rw [ih]
  | replace _ _ _ _ hlit => cases hlit

/-- Without values to put in, nothing is lost, and a tag at the end is written twice. -/
theorem replaceFrom_length (m : Mode) (s : Bytes) : s.length ≤ (replaceFrom [] 0 m s).length ∧
    (opensAtEnd m s → s.length < (replaceFrom [] 0 m s).length) := by
  induction s generalizing m with
  | nil => exact ⟨Nat.zero_le _, fun h => by cases m <;> cases h⟩
  | cons c s ih =>
    have hnext (m' : Mode) : (c :: s).length ≤ (c :: replaceFrom [] 0 m' s).length ∧
        (opensAtEnd m' s → (c :: s).length < (c :: replaceFrom [] 0 m' s).length) := by
      obtain ⟨hle, hlt⟩ := ih m'
      exact ⟨Nat.succ_le_succ hle, fun h => Nat.succ_lt_succ (hlt h)⟩
    cases m with
    | plain =>
      rw [replaceFrom, opensAtEnd]
      by_cases hq : c = quote
      · rw [if_pos hq, if_pos hq]
        exact hnext .single
      rw [if_neg hq, if_neg hq]
      cases parseDollarTag (c :: s) with
      | some tag =>
        dsimp only
        by_cases hlen : tag.length = s.length + 1
        · rw [if_pos hlen, List.length_append, hlen, List.length_cons, List.length_cons]
          exact ⟨by omega, fun _ => by omega⟩
        · rw [if_neg hlen, decide_eq_false hlen, Bool.false_or]
          exact hnext _
      | none =>
        have hp : placeholder [] s = none := by simp [placeholder]
        dsimp only
        rw [hp]
        split <;> exact hnext .plain
    | _ =>
      rw [replaceFrom, opensAtEnd]
      · exact hnext _
      all_goals
        intro hm
        cases hm

/-- A query is copied except for its placeholders, exactly if it does not end with a tag that opens
a dollar-quoted literal. -/
theorem replacePlaceholders_copies_iff (query : Bytes) :
    (replacePlaceholders query [] = query ∧
      ∀ literals, Substituted literals query (replacePlaceholders query literals)) ↔
    opensAtEnd .plain query = false := by
  constructor
  · intro h
    cases hend : opensAtEnd .plain query with
    | false => rfl
    | true =>
      have hlt := (replaceFrom_length .plain query).2 hend
      rw [← replacePlaceholders, h.1] at hlt
      exact absurd hlt (lt_irrefl _)
  · intro h
    have hsub (literals : List Bytes) :
        Substituted literals query (replacePlaceholders query literals) :=
      replaceFrom_substituted literals 0 .plain query h
    exact ⟨(hsub []).eq_of_nil, hsub⟩

theorem tag_at_end_doubled :
    replacePlaceholders (ascii "SELECT $q$") [] = ascii "SELECT $q$$q$" ∧
      ¬ Substituted [] (ascii "SELECT $q$") (replacePlaceholders (ascii "SELECT $q$") []) := by
  refine ⟨by decide +kernel, fun h => ?_⟩
  exact absurd h.eq_of_nil (by decide +kernel)

end Pgmux
