import Pgmux.LiteralValues
import Pgmux.PgLiterals

namespace Pgmux

/-- White space and line comments with a newline among them, and then a quote, go on with the string
constant in front of them. -/
def Continues (rest : Bytes) : Prop := ∃ g r, Gap false g ∧ rest = g ++ quote :: r

/-- A string constant in front of `rest`, in its full length. -/
def IsStringToken (token rest : Bytes) : Prop :=
  ∃ x, token = quote :: (x ++ [quote]) ∧ QuotedBody .standard x ∧
    rest.head? ≠ some quote ∧ ¬ Continues rest

def quotedByte (c : UInt8) : Bytes :=
  if c = quote then [quote, quote] else if c = 0 then [] else [c]

theorem quotedBody_escape (s : Bytes) : QuotedBody .standard (s.flatMap quotedByte) := by
  induction s with
  | nil => exact .nil
  | cons c s ih =>
    rw [List.flatMap_cons, quotedByte]
    split
    · exact .doubled (by decide) ih
    · split
      · exact ih
      · exact .byte ‹_› (fun h => by cases h.1) ih

theorem escape_cases (s : Bytes) : s.flatMap quotedByte = [] ∨
    (∃ c, ∃ t : Bytes, c ≠ quote ∧ s.flatMap quotedByte = c :: t.flatMap quotedByte) ∨
    ∃ t : Bytes, s.flatMap quotedByte = quote :: quote :: t.flatMap quotedByte := by
  induction s with
  | nil => exact .inl rfl
  | cons c s ih =>
    rw [List.flatMap_cons, quotedByte]
    split
    · exact .inr (.inr ⟨s, rfl⟩)
    · split
      · exact ih
      · exact .inr (.inl ⟨c, s, ‹_›, rfl⟩)

/-- The body of a string constant that starts as an escaped text does is that text. -/
theorem QuotedBody.eq_escape {s : Bytes} (h : QuotedBody .standard x)
    (he : x ++ quote :: rest = s.flatMap quotedByte ++ quote :: r)
    (hrest : rest.head? ≠ some quote) (hr : r.head? ≠ some quote) (hc : ¬ Continues r) :
    x = s.flatMap quotedByte := by
  generalize hq : Quoting.standard = q at h
  induction h generalizing s with
  | nil =>
    rcases escape_cases s with hs | ⟨c, t, hne, hs⟩ | ⟨t, hs⟩
    · exact hs.symm
    · rw [hs] at he
      exact absurd (List.cons.inj he).1.symm hne
    · rw [hs] at he
      exact absurd (by rw [(List.cons.inj he).2]; rfl) hrest
  | byte hne' _ _ ih =>
    rcases escape_cases s with hs | ⟨c, t, -, hs⟩ | ⟨t, hs⟩ <;> rw [hs] at he
    · exact absurd (List.cons.inj he).1 hne'
    · obtain ⟨rfl, htail⟩ := List.cons.inj he
      rw [hs, ih htail]
    · exact absurd (List.cons.inj he).1 hne'
  | doubled _ _ ih =>
    rcases escape_cases s with hs | ⟨c, t, hne, hs⟩ | ⟨t, hs⟩ <;> rw [hs] at he
    · exact absurd (by rw [← (List.cons.inj he).2]; rfl) hr
    · exact absurd (List.cons.inj he).1.symm hne
    · rw [hs, ih (List.cons.inj (List.cons.inj he).2).2]
  | escaped he' => cases hq.trans he'
  | @continued g y hg _ _ =>
    rcases escape_cases s with hs | ⟨c, t, hne, hs⟩ | ⟨t, hs⟩ <;> rw [hs] at he
    · refine absurd ⟨g, y ++ quote :: rest, hg, ?_⟩ hc
      rw [← (List.cons.inj he).2]
      simp
    · exact absurd (List.cons.inj he).1.symm hne
    · have hhead := hg.head_ne_quote (quote :: y ++ quote :: rest)
      have htail : g ++ quote :: y ++ quote :: rest =
          quote :: (t.flatMap quotedByte ++ quote :: r) :=
        (List.cons.inj he).2
      rw [List.append_assoc] at htail
      exact absurd (by rw [htail]; rfl) hhead

/-- In front of a text that does not go on with it, an escaped text is read as one string constant,
and its value is the text without its bytes 0. -/
theorem escaped_text_token (s r : Bytes) (hr : r.head? ≠ some quote) (hc : ¬ Continues r) :
    (∀ token rest, token ++ rest = escapeStringLiteral s ++ r →
      (IsStringToken token rest ↔ token = escapeStringLiteral s)) ∧
    constantText (escapeStringLiteral s) = some (s.filter (· ≠ 0)) := by
  have hshape : escapeStringLiteral s = quote :: (s.flatMap quotedByte ++ [quote]) := rfl
  refine ⟨fun token rest he => ⟨?_, ?_⟩, quotedText_escape s⟩
  · rintro ⟨x, rfl, hx, hrest, -⟩
    rw [hshape] at he ⊢
    have hbody : x ++ quote :: rest = s.flatMap quotedByte ++ quote :: r := by
      simpa using he
    rw [hx.eq_escape hbody hrest hr hc]
  · rintro rfl
    obtain rfl := List.append_cancel_left he
    exact ⟨_, hshape, quotedBody_escape s, hr, hc⟩

/-- A text with a quote, a backslash and a byte 0 in the middle of a query. -/
theorem escaped_token_in_query :
    let literal := ascii "'it''s \\'"
    escapeStringLiteral (ascii "it's \\" ++ [0]) = literal ∧
    (∀ token rest, token ++ rest = literal ++ ascii "\nOR 1" →
      (IsStringToken token rest ↔ token = literal)) ∧
    constantText literal = some (ascii "it's \\") := by
  have hfree : quote ∉ ascii "\nOR 1" := by decide
  have hc : ¬ Continues (ascii "\nOR 1") := by
    rintro ⟨g, r, -, he⟩
    rw [he] at hfree
    simp at hfree
  have hesc : escapeStringLiteral (ascii "it's \\" ++ [0]) = ascii "'it''s \\'" := by decide
  have h := escaped_text_token (ascii "it's \\" ++ [0]) (ascii "\nOR 1") (by decide) hc
  rw [hesc] at h
  exact ⟨hesc, h⟩

end Pgmux
