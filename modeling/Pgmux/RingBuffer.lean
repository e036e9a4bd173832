import Mathlib.Data.List.Basic

namespace RingBuffer

variable {α : Type} {m idx : Nat} {xs buf : List α}

/-- The buffer holds the last values of a history, as many as it has room for; read from `idx` on
and around they are in order. -/
structure IsWindow (m : Nat) (xs buf : List α) (idx : Nat) : Prop where
  length : buf.length = min xs.length m
  start : buf.length < m → idx = 0
  inside : idx < m
  view : buf.drop idx ++ buf.take idx = xs.drop (xs.length - m)

theorem IsWindow.empty (hm : 0 < m) : IsWindow m ([] : List α) [] 0 :=
  ⟨by simp, fun _ => rfl, hm, List.drop_nil.symm⟩

theorem IsWindow.grow (h : IsWindow m xs buf idx) (hroom : buf.length < m) (x : α) :
    IsWindow m (xs ++ [x]) (buf ++ [x]) idx := by
  have hlen := h.length
  obtain rfl := h.start hroom
  have hzero : xs.length + 1 - m = 0 := by omega
  have hall : buf = xs := by
    simpa [show xs.length - m = 0 by omega] using h.view
  exact ⟨by simp; omega, fun _ => rfl, h.inside, by simp [hall, hzero]⟩

theorem IsWindow.wrap (h : IsWindow m xs buf idx) (hfull : m ≤ buf.length) (x : α) :
    IsWindow m (xs ++ [x]) (buf.set idx x) ((idx + 1) % m) := by
  have hlen := h.length
  have hinside := h.inside
  have hidx : idx < buf.length := by omega
  -- The value at `idx` is the oldest one.
  have hrest : xs.drop (xs.length - m + 1) = buf.drop (idx + 1) ++ buf.take idx := by
    rw [← List.tail_drop, ← h.view, List.drop_eq_getElem_cons hidx]
    rfl
  have hset : buf.set idx x = buf.take idx ++ [x] ++ buf.drop (idx + 1) := by
    rw [List.set_eq_take_append_cons_drop, if_pos hidx, List.append_cons]
  have hlong : (buf.take idx ++ [x]).length = idx + 1 := by
    simp
    omega
  refine ⟨by simp; omega, fun hroom => ?_, Nat.mod_lt _ (by omega), ?_⟩
  · rw [List.length_set] at hroom
    omega
  · have hpast : (xs ++ [x]).drop ((xs ++ [x]).length - m) =
        xs.drop (xs.length - m + 1) ++ [x] := by
      rw [List.length_append, List.length_singleton, Nat.sub_add_comm (by omega),
        List.drop_append_of_le_length (by omega)]
    rw [hpast, hrest, hset]
    by_cases hlast : idx + 1 = m
    · rw [hlast, Nat.mod_self, ← hlast, List.drop_eq_nil_of_le (i := idx + 1) (by omega)]
      simp
    · rw [Nat.mod_eq_of_lt (by omega), List.drop_left' hlong, List.take_left' hlong,
        List.append_assoc]

theorem IsWindow.perm (h : IsWindow m xs buf idx) : buf.Perm (xs.drop (xs.length - m)) := by
  rw [← h.view]
  calc
    buf = buf.take idx ++ buf.drop idx := (List.take_append_drop idx buf).symm
    List.Perm _ (buf.drop idx ++ buf.take idx) := List.perm_append_comm

end RingBuffer
