import Pgmux.WireFields

namespace Pgmux

open Codec

theorem readOids_of_many (h : many readUint32 n p = some (oids, t)) :
    readOids n p = (oids, true) := by
  induction n generalizing p oids with
  | zero =>
    cases h
    rfl
  | succ n ih =>
    obtain ⟨oid, p', oids, hoid, hrest, rfl⟩ := many_succ_eq_some.mp h
    rcases p with _ | ⟨a, _ | ⟨b, _ | ⟨c, _ | ⟨d, p⟩⟩⟩⟩
    · cases hoid
    · cases hoid
    · cases hoid
    · cases hoid
    · cases hoid
      rw [readOids, ih hrest]

theorem many_of_readOids (h : readOids n p = (oids, true)) :
    ∃ t, many readUint32 n p = some (oids, t) := by
  induction n generalizing p oids with
  | zero =>
    cases h
    exact ⟨p, rfl⟩
  | succ n ih =>
    rcases p with _ | ⟨a, _ | ⟨b, _ | ⟨c, _ | ⟨d, p⟩⟩⟩⟩
    · cases h
    · cases h
    · cases h
    · cases h
    · rcases hr : readOids n p with ⟨rest, ok⟩
      rw [readOids, hr] at h
      cases h
      obtain ⟨t, ht⟩ := ih hr
      exact ⟨t, many_succ_eq_some.mpr ⟨_, p, rest, rfl, ht, rfl⟩⟩

def parsePayload : Parser UInt8 (Bytes × Bytes × List Nat) :=
  both cString (both cString (counted readUint16 readUint32))

/-- What a Parse message can express. -/
structure ParseFits (name query : Bytes) (oids : List Nat) : Prop where
  name : 0 ∉ name
  query : 0 ∉ query
  count : oids.length ≤ 65535
  oids : ∀ oid ∈ oids, oid < 4294967296

theorem parsePayload_inverts : Inverts parsePayload (fun x => ParseFits x.1 x.2.1 x.2.2)
    (fun x => buildParsePayload x.1 x.2.1 x.2.2) := by
  have h := cString_inverts.both
    (cString_inverts.both (readUint16_inverts.counted readUint32_inverts))
  rintro p ⟨name, query, oids⟩ t
  rw [parsePayload, h]
  simp only [buildParsePayload, List.append_assoc]
  refine and_congr_left fun _ => ?_
  constructor
  · rintro ⟨hn, hq, hc, ho⟩
    exact ⟨hn, hq, Nat.le_of_lt_succ hc, ho⟩
  · intro hf
    exact ⟨hf.name, hf.query, Nat.lt_succ_of_le hf.count, hf.oids⟩

theorem parseParseMessageFull_strings (hname : cString p = some (name, p'))
    (hquery : cString p' = some (query, a :: b :: rest)) :
    parseParseMessageFull p =
      ⟨name, query, (readOids (uint16 a b) rest).1, (readOids (uint16 a b) rest).2⟩ := by
  rw [parseParseMessageFull, hname]
  dsimp only
  rw [hquery]

theorem parseParseMessageFull_of_payload
    (h : parsePayload p = some ((name, query, oids), t)) :
    parseParseMessageFull p = ⟨name, query, oids, true⟩ := by
  obtain ⟨p₁, hname, hrest⟩ := both_eq_some.mp h
  obtain ⟨p₂, hquery, hcount⟩ := both_eq_some.mp hrest
  obtain ⟨n, p₃, hn, hoids⟩ := counted_eq_some.mp hcount
  rcases p₂ with _ | ⟨a, _ | ⟨b, p₂⟩⟩
  · cases hn
  · cases hn
  · cases hn
    rw [parseParseMessageFull_strings hname hquery, readOids_of_many hoids]

theorem strings_of_ok (h : parseParseMessageFull p = ⟨name, query, oids, true⟩) :
    ∃ p₁ p₂, cString p = some (name, p₁) ∧ cString p₁ = some (query, p₂) := by
  unfold parseParseMessageFull at h
  split at h
  · cases h
  · rename_i p₁ hname
    split at h
    · cases h
    · rename_i a b p₂ hquery
      simp only [ParseFull.mk.injEq] at h
      rw [← h.1, ← h.2.1]
      exact ⟨p₁, _, hname, hquery⟩
    · rename_i p₂ _ hquery
      cases h
      exact ⟨p₁, p₂, hname, hquery⟩

theorem payload_of_ok (h : parseParseMessageFull p = ⟨name, query, oids, true⟩)
    (hlen : name.length + 1 + query.length + 1 + 2 ≤ p.length) :
    ∃ t, parsePayload p = some ((name, query, oids), t) := by
  obtain ⟨p₁, p₂, hname, hquery⟩ := strings_of_ok h
  obtain ⟨-, rfl⟩ := (cString_inverts _ _ _).mp hname
  obtain ⟨-, rfl⟩ := (cString_inverts _ _ _).mp hquery
  have h₂ : 2 ≤ p₂.length := by
    simp only [List.length_append, List.length_cons, List.length_nil] at hlen
    omega
  rcases p₂ with _ | ⟨a, _ | ⟨b, p₂⟩⟩
  · cases h₂
  · simp at h₂
  · rw [parseParseMessageFull_strings hname hquery] at h
    have hoids : readOids (uint16 a b) p₂ = (oids, true) := by
      simp only [ParseFull.mk.injEq, true_and] at h
      exact Prod.ext h.1 h.2
    obtain ⟨t, ht⟩ := many_of_readOids hoids
    exact ⟨t, both_eq_some.mpr ⟨_, hname, both_eq_some.mpr ⟨_, hquery,
      counted_eq_some.mpr ⟨_, p₂, rfl, ht⟩⟩⟩⟩

theorem parseParseMessage_eq (p : Bytes) :
    parseParseMessage p =
      ((parseParseMessageFull p).stmtName, (parseParseMessageFull p).query) := by
  unfold parseParseMessage parseParseMessageFull
  rcases cString p with _ | ⟨name, p₁⟩
  · rfl
  dsimp only
  rcases cString p₁ with _ | ⟨query, _ | ⟨a, _ | ⟨b, p₂⟩⟩⟩
  · rfl
  · rfl
  · rfl
  · rfl

/-- A built payload is parsed back whatever follows it, a payload that is parsed and has a count is
the built one up to what follows it, and the short parser agrees. -/
theorem parse_payload_round_trip :
    (∀ name query oids t, ParseFits name query oids →
      parseParseMessageFull (buildParsePayload name query oids ++ t) =
        ⟨name, query, oids, true⟩) ∧
    (∀ p name query oids, parseParseMessageFull p = ⟨name, query, oids, true⟩ →
      name.length + 1 + query.length + 1 + 2 ≤ p.length →
      ∃ t, p = buildParsePayload name query oids ++ t) ∧
    ∀ p, parseParseMessage p =
      ((parseParseMessageFull p).stmtName, (parseParseMessageFull p).query) := by
  refine ⟨?_, ?_, parseParseMessage_eq⟩
  · intro name query oids t hf
    apply parseParseMessageFull_of_payload (t := t)
    exact parsePayload_inverts.read (x := (name, query, oids)) hf t
  · intro p name query oids h hlen
    obtain ⟨t, ht⟩ := payload_of_ok h hlen
    exact ⟨t, ((parsePayload_inverts _ _ _).mp ht).2⟩

end Pgmux
