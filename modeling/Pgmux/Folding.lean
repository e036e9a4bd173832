import Pgmux.Scan

namespace Pgmux

def fold (c : UInt8) : UInt8 := c ||| 0x20

theorem eqFold_iff (s target : Bytes) :
    eqFold s target ↔ (s.take target.length).map fold = target.map fold := by
  unfold eqFold
  induction target generalizing s with
  | nil => simp
  | cons c target ih =>
    cases s with
    | nil => simp
    | cons d s =>
      simp only [List.length_cons, Nat.add_le_add_iff_right, List.zip_cons_cons, List.all_cons,
        List.take_succ_cons, List.map_cons, List.cons.injEq, ← ih s, Bool.and_eq_true, beq_iff_eq,
        decide_eq_true_eq]
      exact and_left_comm

theorem keyword_iff : keyword kw stop rest ↔
    ∃ word tail, rest = word ++ tail ∧ word.map fold = kw.map fold ∧
      tail.head?.all stop := by
  unfold keyword
  rw [Bool.and_eq_true, eqFold_iff]
  constructor
  · intro h
    exact ⟨_, _, (List.take_append_drop kw.length rest).symm, h.1, h.2⟩
  · rintro ⟨word, tail, rfl, hw, ht⟩
    have hlen : word.length = kw.length := by simpa using congrArg List.length hw
    rw [← hlen, List.take_left, List.drop_left]
    exact ⟨hw, ht⟩

def isCapital (c : UInt8) : Bool := 65 ≤ c && c ≤ 90

theorem fold_upperByte (h : isCapital (upperByte c)) : fold (upperByte c) = fold c := by
  have hall : ∀ c, isCapital (upperByte c) → fold (upperByte c) = fold c :=
    forall_byte (by decide +kernel)
  exact hall c h

theorem upperByte_fold (h : isCapital (upperByte (fold c))) :
    upperByte (fold c) = upperByte c := by
  have hall : ∀ c, isCapital (upperByte (fold c)) → upperByte (fold c) = upperByte c :=
    forall_byte (by decide +kernel)
  exact hall c h

theorem fold_capital (hk : isCapital k) (c : UInt8) : fold c = fold k ↔ upperByte c = k := by
  have hself : upperByte (fold k) = k := by
    have hall : ∀ k, isCapital k → upperByte (fold k) = k := forall_byte (by decide +kernel)
    exact hall k hk
  constructor
  · intro h
    rw [← hself, ← h] at hk
    rw [← upperByte_fold hk, h, hself]
  · rintro rfl
    exact (fold_upperByte hk).symm

theorem fold_blank (c : UInt8) : fold c = fold 32 ↔ upperByte c = 32 ∨ upperByte c = 0 := by
  revert c
  exact forall_byte (by decide +kernel)

theorem fold_word (hk : ∀ c ∈ kw, isCapital c) (word : Bytes) :
    word.map fold = kw.map fold ↔ word.map upperByte = kw := by
  induction kw generalizing word with
  | nil => simp
  | cons k kw ih =>
    cases word with
    | nil => simp
    | cons c word =>
      rw [List.forall_mem_cons] at hk
      simp only [List.map_cons, List.cons.injEq, fold_capital hk.1, ih hk.2]

theorem fold_words (ha : ∀ c ∈ a, isCapital c)
    (hb : ∀ c ∈ b, isCapital c) (word : Bytes) :
    word.map fold = (a ++ 32 :: b).map fold ↔
      word.map upperByte = a ++ 32 :: b ∨ word.map upperByte = a ++ 0 :: b := by
  induction a generalizing word with
  | nil =>
    cases word with
    | nil => simp
    | cons c word => simp [fold_blank, fold_word hb, or_and_right]
  | cons k a ih =>
    cases word with
    | nil => simp
    | cons c word =>
      rw [List.forall_mem_cons] at ha
      simp only [List.cons_append, List.map_cons, List.cons.injEq, fold_capital ha.1, ih ha.2,
        and_or_left]

end Pgmux
