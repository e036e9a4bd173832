import Mathlib.Data.List.Induction

namespace History

variable {A : Type} (P : List A → A → Bool)

def note (h : List A × List A) (o : A) : List A × List A :=
  (h.1 ++ [o], if P h.1 o then [] else h.2 ++ [o])

/-- The calls after the last event, or all calls if there was none. Whether a call is an event may
depend on the calls before it. -/
def since (calls : List A) : List A := (calls.foldl (note P) ([], [])).2

theorem foldl_note (calls : List A) : (calls.foldl (note P) ([], [])).1 = calls := by
  induction calls using List.reverseRecOn with
  | nil => rfl
  | append_singleton calls o ih =>
    rw [List.foldl_append]
    simp only [List.foldl_cons, List.foldl_nil, note, ih]

theorem since_snoc (calls : List A) (o : A) :
    since P (calls ++ [o]) = if P calls o then [] else since P calls ++ [o] := by
  unfold since
  rw [List.foldl_append]
  simp only [List.foldl_cons, List.foldl_nil, note, foldl_note]

end History
