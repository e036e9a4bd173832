import Pgmux.Bytes

namespace Pgmux

inductive StartsSpace (two : UInt8 → UInt8 → Bool) (three : UInt8 → UInt8 → UInt8 → Bool) :
    Bytes → Prop
  | one : isAsciiSpace c = true → StartsSpace two three (c :: s)
  | two : two c d = true → StartsSpace two three (c :: d :: s)
  | three : three c d e = true → StartsSpace two three (c :: d :: e :: s)

section Forms

variable {two : UInt8 → UInt8 → Bool} {three : UInt8 → UInt8 → UInt8 → Bool} {s : Bytes}

theorem StartsSpace.append (h : StartsSpace two three s) (t : Bytes) :
    StartsSpace two three (s ++ t) := by
  cases h with
  | one h => exact .one h
  | two h => exact .two h
  | three h => exact .three h

theorem dropSpace_suffix (two : UInt8 → UInt8 → Bool) (three : UInt8 → UInt8 → UInt8 → Bool)
    (s : Bytes) : dropSpace two three s <:+ s := by
  fun_induction dropSpace two three s with
  | case1 => exact List.suffix_refl _
  | case2 c h => exact List.nil_suffix
  | case3 c h => exact List.suffix_refl _
  | case4 c d h ih => exact ih.trans (List.suffix_cons c [d])
  | case5 c d h h₂ => exact List.nil_suffix
  | case6 c d h h₂ => exact List.suffix_refl _
  | case7 c d e s h ih => exact ih.trans (List.suffix_cons c _)
  | case8 c d e s h h₂ ih => exact ih.trans ⟨[c, d], rfl⟩
  | case9 c d e s h h₂ h₃ ih => exact ih.trans ⟨[c, d, e], rfl⟩
  | case10 c d e s h h₂ h₃ => exact List.suffix_refl _

theorem dropSpace_not_starts (s : Bytes) : ¬ StartsSpace two three (dropSpace two three s) := by
  fun_induction dropSpace two three s with
  | case1 => intro h; cases h
  | case2 c h => intro h; cases h
  | case3 c h =>
    intro hs
    cases hs with
    | one hc => exact h hc
  | case4 c d h ih => exact ih
  | case5 c d h h₂ => intro h; cases h
  | case6 c d h h₂ =>
    intro hs
    cases hs with
    | one hc => exact h hc
    | two hc => exact h₂ hc
  | case7 c d e s h ih => exact ih
  | case8 c d e s h h₂ ih => exact ih
  | case9 c d e s h h₂ h₃ ih => exact ih
  | case10 c d e s h h₂ h₃ =>
    intro hs
    cases hs with
    | one hc => exact h hc
    | two hc => exact h₂ hc
    | three hc => exact h₃ hc

theorem dropSpace_eq_self (h : ¬ StartsSpace two three s) : dropSpace two three s = s := by
  fun_induction dropSpace two three s with
  | case1 => rfl
  | case2 c hc => exact absurd (.one hc) h
  | case3 c hc => rfl
  | case4 c d hc ih => exact absurd (.one hc) h
  | case5 c d hc h₂ => exact absurd (.two h₂) h
  | case6 c d hc h₂ => rfl
  | case7 c d e s hc ih => exact absurd (.one hc) h
  | case8 c d e s hc h₂ ih => exact absurd (.two h₂) h
  | case9 c d e s hc h₂ h₃ ih => exact absurd (.three h₃) h
  | case10 c d e s hc h₂ h₃ => rfl

end Forms

theorem trimRight_isPrefix (s : Bytes) : trimRight s <+: s := by
  unfold trimRight
  rw [← List.reverse_suffix, List.reverse_reverse]
  exact dropSpace_suffix ..

theorem trimLeft_suffix (s : Bytes) : trimLeft s <:+ s := dropSpace_suffix ..

theorem trimRight_trimRight (s : Bytes) : trimRight (trimRight s) = trimRight s := by
  unfold trimRight
  rw [List.reverse_reverse, dropSpace_eq_self (dropSpace_not_starts _)]

theorem trimLeft_trimRight_trimLeft (s : Bytes) :
    trimLeft (trimRight (trimLeft s)) = trimRight (trimLeft s) := by
  apply dropSpace_eq_self
  intro h
  obtain ⟨t, ht⟩ := trimRight_isPrefix (trimLeft s)
  have hlong := h.append t
  rw [ht] at hlong
  exact dropSpace_not_starts s hlong

theorem trimSpace_trimSpace (s : Bytes) : trimSpace (trimSpace s) = trimSpace s := by
  unfold trimSpace
  rw [trimLeft_trimRight_trimLeft, trimRight_trimRight]

theorem mem_trimSpace (h : c ∈ trimSpace s) : c ∈ s :=
  (trimLeft_suffix s).subset ((trimRight_isPrefix _).subset h)

end Pgmux
