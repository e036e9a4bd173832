import Mathlib.Data.List.Induction
import Mathlib.Data.List.Nodup
import Mathlib.Algebra.Ring.Int.Defs

namespace Recency

/-- One binding of a map whose bindings expire and carry tags. -/
structure Slot (K V T : Type) where
  key : K
  value : V
  tags : List T
  expiresAt : Int
  deriving DecidableEq

inductive Call (K V T : Type) where
  | get (key : K)
  | set (key : K) (value : V) (tags : List T)
  | invalidate (tag : T)
  | flush

/-- A capacity that is not positive bounds nothing. -/
structure Limits (V : Type) where
  capacity : Int
  ttl : Int
  admits : V → Bool

def Limits.full (L : Limits V) (es : List (Slot K V T)) : Prop :=
  0 < L.capacity ∧ L.capacity ≤ es.length

instance (L : Limits V) (es : List (Slot K V T)) : Decidable (L.full es) :=
  inferInstanceAs (Decidable (_ ∧ _))

section Operations

variable [DecidableEq K] [DecidableEq T]

def find (es : List (Slot K V T)) (key : K) : Option (Slot K V T) := es.find? fun e => e.key = key

def others (es : List (Slot K V T)) (key : K) : List (Slot K V T) := es.filter fun e => e.key ≠ key

def get (now : Int) (key : K) (es : List (Slot K V T)) : Option V × List (Slot K V T) :=
  match find es key with
  | none => (none, es)
  | some e =>
    if e.expiresAt < now then (none, others es key) else (some e.value, e :: others es key)

/-- The bindings beside which a new one for the key is put. A new key takes the room of the binding
used least recently. -/
def room (L : Limits V) (key : K) (es : List (Slot K V T)) : List (Slot K V T) :=
  match find es key with
  | some _ => others es key
  | none => if L.full es then es.dropLast else es

def set (L : Limits V) (now : Int) (key : K) (value : V) (tags : List T)
    (es : List (Slot K V T)) : List (Slot K V T) :=
  if L.admits value then ⟨key, value, tags, now + L.ttl⟩ :: room L key es else es

def invalidate (tag : T) (es : List (Slot K V T)) : List (Slot K V T) :=
  es.filter fun e => tag ∉ e.tags

/-- The bindings after a call at a time, the one used last in front. -/
def call (L : Limits V) (es : List (Slot K V T)) : Int × Call K V T → List (Slot K V T)
  | (now, .get key) => (get now key es).2
  | (now, .set key value tags) => set L now key value tags es
  | (_, .invalidate tag) => invalidate tag es
  | (_, .flush) => []

def after (L : Limits V) (calls : List (Int × Call K V T)) : List (Slot K V T) :=
  calls.foldl (call L) []

def used (L : Limits V) (es : List (Slot K V T)) : Int × Call K V T → Option K
  | (now, .get key) => if (get now key es).1.isSome then some key else none
  | (_, .set key value _) => if L.admits value then some key else none
  | _ => none

end Operations

section History

variable {A : Type}

def Event (P : List A → A → Prop) (calls : List A) (i : Nat) : Prop :=
  ∃ o, calls[i]? = some o ∧ P (calls.take i) o

theorem event_snoc {P : List A → A → Prop} :
    Event P (calls ++ [o]) i ↔ Event P calls i ∨ (i = calls.length ∧ P calls o) := by
  unfold Event
  rcases Nat.lt_trichotomy i calls.length with hi | hi | hi
  · rw [List.getElem?_append_left hi, List.take_append_of_le_length (Nat.le_of_lt hi)]
    constructor
    · exact .inl
    · rintro (h | ⟨rfl, -⟩)
      · exact h
      · exact (Nat.lt_irrefl _ hi).elim
  · subst hi
    simp
  · have hn : (calls ++ [o])[i]? = none := by simp; omega
    have hn' : calls[i]? = none := by simp; omega
    rw [hn, hn']
    simp
    omega

theorem Event.lt {P : List A → A → Prop} (h : Event P calls i) : i < calls.length := by
  obtain ⟨o, ho, -⟩ := h
  exact (List.getElem?_eq_some_iff.mp ho).1

end History

section Bindings

variable [DecidableEq K]

def keys (es : List (Slot K V T)) : List K := es.map Slot.key

omit [DecidableEq K] in
theorem key_inj {es : List (Slot K V T)} (hd : (keys es).Nodup) (h : e ∈ es) (h' : e' ∈ es)
    (hk : e.key = e'.key) : e = e' := List.inj_on_of_nodup_map hd h h' hk

@[simp] theorem mem_others {es : List (Slot K V T)} :
    e ∈ others es key ↔ e ∈ es ∧ e.key ≠ key := by
  simp [others]

theorem others_sublist (es : List (Slot K V T)) (key : K) : (others es key).Sublist es :=
  List.filter_sublist

theorem find_mem {es : List (Slot K V T)} (h : find es key = some e) : e ∈ es :=
  List.mem_of_find?_eq_some h

theorem find_key {es : List (Slot K V T)} (h : find es key = some e) : e.key = key := by
  simpa using List.find?_some h

theorem find_none {es : List (Slot K V T)} : find es key = none ↔ key ∉ keys es := by
  simp [find, keys]

theorem find_eq_some {es : List (Slot K V T)} (hd : (keys es).Nodup) :
    find es key = some e ↔ e ∈ es ∧ e.key = key := by
  constructor
  · intro h
    exact ⟨find_mem h, find_key h⟩
  · rintro ⟨he, rfl⟩
    cases hf : find es e.key with
    | none => exact (find_none.mp hf (List.mem_map_of_mem he)).elim
    | some e' => rw [key_inj hd (find_mem hf) he (find_key hf)]

theorem others_length {es : List (Slot K V T)} (h : find es key = some e) :
    (others es key).length < es.length := by
  apply List.length_filter_lt_length_iff_exists.mpr
  exact ⟨e, find_mem h, by simpa using find_key h⟩

theorem room_sublist (L : Limits V) (key : K) (es : List (Slot K V T)) :
    (room L key es).Sublist es := by
  unfold room
  split
  · exact others_sublist es key
  · split
    · exact List.dropLast_sublist es
    · exact List.Sublist.refl es

theorem room_key {L : Limits V} {es : List (Slot K V T)} (h : e ∈ room L key es) :
    e.key ≠ key := by
  have hs := (room_sublist L key es).subset h
  unfold room at h
  split at h
  · exact (mem_others.mp h).2
  · rename_i hf
    intro hk
    subst hk
    exact find_none.mp hf (List.mem_map_of_mem hs)

theorem room_length (L : Limits V) (hc : 0 < L.capacity) {es : List (Slot K V T)}
    (h : (es.length : Int) ≤ L.capacity) : ((room L key es).length : Int) < L.capacity := by
  unfold room
  split
  · rename_i e hf
    have hl := others_length hf
    omega
  · split
    · rename_i hfull
      have hp := hfull.2
      rw [List.length_dropLast]
      omega
    · rename_i hfull
      have hl : ¬ L.capacity ≤ es.length := fun hle => hfull ⟨hc, hle⟩
      omega

theorem get_length (now : Int) (key : K) (es : List (Slot K V T)) :
    (get now key es).2.length ≤ es.length := by
  unfold get
  cases hf : find es key with
  | none => exact Nat.le_refl _
  | some e =>
    have hl := others_length hf
    dsimp only
    split
    · exact Nat.le_of_lt hl
    · exact hl

theorem get_eq_some {es : List (Slot K V T)} (hd : (keys es).Nodup) :
    (get now key es).1 = some value ↔
      ∃ e ∈ es, e.key = key ∧ e.value = value ∧ now ≤ e.expiresAt := by
  unfold get
  cases hf : find es key with
  | none =>
    constructor
    · intro h
      cases h
    · rintro ⟨e, he, rfl, -⟩
      exact (find_none.mp hf (List.mem_map_of_mem he)).elim
  | some e =>
    obtain ⟨he, hk⟩ := (find_eq_some hd).mp hf
    dsimp only
    split
    · rename_i hx
      constructor
      · intro h
        cases h
      · rintro ⟨e', h', hk', -, hx'⟩
        rw [key_inj hd h' he (hk'.trans hk.symm)] at hx'
        omega
    · rename_i hx
      constructor
      · intro h
        exact ⟨e, he, hk, by simpa using h, by omega⟩
      · rintro ⟨e', h', hk', hv, -⟩
        rw [← hv, key_inj hd h' he (hk'.trans hk.symm)]

end Bindings

section Reference

variable [DecidableEq K] [DecidableEq T]

theorem after_snoc (L : Limits V) (calls : List (Int × Call K V T)) (o : Int × Call K V T) :
    after L (calls ++ [o]) = call L (after L calls) o := by
  unfold after
  rw [List.foldl_append]
  rfl

theorem call_shape (L : Limits V) (es : List (Slot K V T)) (o : Int × Call K V T) :
    ((call L es o).Sublist es ∧ used L es o = none) ∨
      ∃ e rest, call L es o = e :: rest ∧ rest.Sublist es ∧ (∀ e' ∈ rest, e'.key ≠ e.key) ∧
        used L es o = some e.key := by
  obtain ⟨now, o⟩ := o
  cases o with
  | get key =>
    cases hf : find es key with
    | none =>
      left
      simp [call, used, get, hf]
    | some e =>
      by_cases he : e.expiresAt < now
      · left
        simp [call, used, get, hf, he, others_sublist]
      · right
        have hk := find_key hf
        subst hk
        refine ⟨e, others es e.key, ?_, others_sublist es _, ?_, ?_⟩
        · simp [call, get, hf, he]
        · intro e' h'
          exact (mem_others.mp h').2
        · simp [used, get, hf, he]
  | set key value tags =>
    by_cases ha : L.admits value
    · right
      refine ⟨⟨key, value, tags, now + L.ttl⟩, room L key es, ?_, room_sublist L key es, ?_, ?_⟩
      · simp [call, set, ha]
      · intro e' h'
        exact room_key h'
      · simp [used, ha]
    · left
      simp [call, set, used, ha]
  | invalidate tag =>
    left
    exact ⟨List.filter_sublist, rfl⟩
  | flush =>
    left
    exact ⟨List.nil_sublist es, rfl⟩

theorem call_nodup (L : Limits V) {es : List (Slot K V T)} (hd : (keys es).Nodup)
    (o : Int × Call K V T) : (keys (call L es o)).Nodup := by
  rcases call_shape L es o with ⟨hs, -⟩ | ⟨e, rest, h, hs, hk, -⟩
  · exact hd.sublist (hs.map _)
  · rw [h, keys, List.map_cons, List.nodup_cons]
    constructor
    · intro hm
      obtain ⟨e', h', hk'⟩ := List.mem_map.mp hm
      exact hk e' h' hk'
    · exact hd.sublist (hs.map _)

theorem after_nodup (L : Limits V) (calls : List (Int × Call K V T)) :
    (keys (after L calls)).Nodup := by
  induction calls using List.reverseRecOn with
  | nil => exact List.nodup_nil
  | append_singleton calls o ih =>
    rw [after_snoc]
    exact call_nodup L ih o

theorem call_length (L : Limits V) (hc : 0 < L.capacity) {es : List (Slot K V T)}
    (h : (es.length : Int) ≤ L.capacity) (o : Int × Call K V T) :
    ((call L es o).length : Int) ≤ L.capacity := by
  obtain ⟨now, o⟩ := o
  cases o with
  | get key =>
    have hl := get_length now key es
    simp only [call]
    omega
  | set key value tags =>
    simp only [call, set]
    split
    · have hl : ((room L key es).length : Int) < L.capacity := room_length L hc h
      rw [List.length_cons]
      omega
    · exact h
  | invalidate tag =>
    have hl := List.length_filter_le (fun e : Slot K V T => decide (tag ∉ e.tags)) es
    simp only [call, invalidate]
    omega
  | flush => exact Int.le_of_lt hc

theorem after_length (L : Limits V) (hc : 0 < L.capacity) (calls : List (Int × Call K V T)) :
    ((after L calls).length : Int) ≤ L.capacity := by
  induction calls using List.reverseRecOn with
  | nil => exact Int.le_of_lt hc
  | append_singleton calls o ih =>
    rw [after_snoc]
    exact call_length L hc ih o

/-- A call finds the binding expired, puts another in its place or in its room, or removes it. -/
def Ends (L : Limits V) (es : List (Slot K V T)) (slot : Slot K V T) : Int × Call K V T → Prop
  | (now, .get key) => key = slot.key ∧ slot.expiresAt < now
  | (_, .set key value _) =>
    L.admits value ∧ (key = slot.key ∨ (key ∉ keys es ∧ L.full es ∧ es.getLast? = some slot))
  | (_, .invalidate tag) => tag ∈ slot.tags
  | (_, .flush) => True

def Puts (L : Limits V) (slot : Slot K V T) (o : Int × Call K V T) : Prop :=
  o.2 = .set slot.key slot.value slot.tags ∧ L.admits slot.value ∧ slot.expiresAt = o.1 + L.ttl

omit [DecidableEq K] [DecidableEq T] in
theorem mem_dropLast {es : List (Slot K V T)} (hd : (keys es).Nodup) :
    slot ∈ es.dropLast ↔ slot ∈ es ∧ es.getLast? ≠ some slot := by
  rcases List.eq_nil_or_concat es with rfl | ⟨rest, e, rfl⟩
  · simp
  · rw [keys, List.concat_eq_append, List.map_append, List.nodup_append] at hd
    have hn : slot ∈ rest → slot ≠ e := by
      rintro h rfl
      exact hd.2.2 _ (List.mem_map_of_mem h) _ (by simp) rfl
    simp only [List.concat_eq_append, List.dropLast_concat, List.mem_append, List.mem_singleton,
      List.getLast?_concat, Option.some.injEq, ne_eq]
    constructor
    · intro h
      exact ⟨.inl h, fun he => hn h he.symm⟩
    · rintro ⟨h | h, hne⟩
      · exact h
      · exact (hne h.symm).elim

theorem mem_room {L : Limits V} {es : List (Slot K V T)} (hd : (keys es).Nodup) :
    slot ∈ room L key es ↔ slot ∈ es ∧ slot.key ≠ key ∧
      ¬ (key ∉ keys es ∧ L.full es ∧ es.getLast? = some slot) := by
  unfold room
  cases hf : find es key with
  | some e =>
    have hm : key ∈ keys es := find_key hf ▸ List.mem_map_of_mem (find_mem hf)
    simp [hm]
  | none =>
    have hm := find_none.mp hf
    have hk : slot ∈ es → slot.key ≠ key := by
      rintro h rfl
      exact hm (List.mem_map_of_mem h)
    dsimp only
    split
    · rename_i hfull
      rw [mem_dropLast hd]
      tauto
    · tauto

/-- The bindings after a call are those that it does not end and the one that it puts. -/
theorem mem_call (L : Limits V) {es : List (Slot K V T)} (hd : (keys es).Nodup)
    (o : Int × Call K V T) :
    slot ∈ call L es o ↔ (slot ∈ es ∧ ¬ Ends L es slot o) ∨ Puts L slot o := by
  obtain ⟨now, o⟩ := o
  cases o with
  | get key =>
    have hp : ¬ Puts L slot (now, .get key) := fun h => by cases h.1
    simp only [call, get, Ends, hp, or_false]
    cases hf : find es key with
    | none =>
      have hk : slot ∈ es → key ≠ slot.key := by
        rintro h rfl
        exact find_none.mp hf (List.mem_map_of_mem h)
      dsimp only
      tauto
    | some e =>
      obtain ⟨he, rfl⟩ := (find_eq_some hd).mp hf
      have hk : slot ∈ es → e.key = slot.key → slot = e := fun h hk => key_inj hd h he hk.symm
      dsimp only
      split
      · rename_i hx
        rw [mem_others]
        constructor
        · rintro ⟨h, hne⟩
          exact ⟨h, fun hc => hne hc.1.symm⟩
        · rintro ⟨h, hne⟩
          refine ⟨h, fun hc => hne ⟨hc.symm, ?_⟩⟩
          rw [hk h hc.symm]
          exact hx
      · rename_i hx
        rw [List.mem_cons, mem_others]
        constructor
        · rintro (rfl | ⟨h, hne⟩)
          · exact ⟨he, fun hc => hx hc.2⟩
          · exact ⟨h, fun hc => hne hc.1.symm⟩
        · rintro ⟨h, -⟩
          by_cases hc : e.key = slot.key
          · exact .inl (hk h hc)
          · exact .inr ⟨h, fun hc' => hc hc'.symm⟩
  | set key value tags =>
    simp only [call, set, Ends, Puts]
    by_cases ha : L.admits value
    · simp only [ha, if_true, true_and, List.mem_cons, mem_room hd]
      have hs : slot = ⟨key, value, tags, now + L.ttl⟩ ↔
          Call.set key value tags = Call.set slot.key slot.value slot.tags ∧
            L.admits slot.value ∧ slot.expiresAt = now + L.ttl := by
        obtain ⟨k, v, ts, x⟩ := slot
        simp only [Slot.mk.injEq, Call.set.injEq]
        constructor
        · rintro ⟨rfl, rfl, rfl, rfl⟩
          exact ⟨⟨rfl, rfl, rfl⟩, ha, rfl⟩
        · rintro ⟨⟨rfl, rfl, rfl⟩, -, rfl⟩
          exact ⟨rfl, rfl, rfl, rfl⟩
      rw [hs, or_comm, not_or]
      have hc : (slot.key ≠ key) ↔ ¬ key = slot.key := ⟨Ne.symm, Ne.symm⟩
      rw [hc]
    · have hp : ¬ (Call.set key value tags = Call.set slot.key slot.value slot.tags ∧
          L.admits slot.value ∧ slot.expiresAt = now + L.ttl) := by
        rintro ⟨h, hv, -⟩
        cases h
        exact ha hv
      simp only [ha, hp, Bool.false_eq_true, if_false, false_and, not_false_eq_true, and_true,
        or_false]
  | invalidate tag =>
    have hp : ¬ Puts L slot (now, .invalidate tag) := fun h => by cases h.1
    simp [call, invalidate, Ends, hp]
  | flush =>
    have hp : ¬ Puts L slot (now, .flush) := fun h => by cases h.1
    simp [call, Ends, hp]

def UsedAt (L : Limits V) (key : K) : List (Int × Call K V T) → Nat → Prop :=
  Event fun calls o => used L (after L calls) o = some key

def Later (L : Limits V) (calls : List (Int × Call K V T)) (key other : K) : Prop :=
  ∃ i, UsedAt L key calls i ∧ ∀ j, i < j → ¬ UsedAt L other calls j

theorem Later.asymm {L : Limits V} {calls : List (Int × Call K V T)} (hne : key ≠ other)
    (h : Later L calls key other) : ¬ Later L calls other key := by
  rintro ⟨j, hj, hj'⟩
  obtain ⟨i, hi, hi'⟩ := h
  rcases Nat.lt_trichotomy i j with hij | rfl | hij
  · exact hi' j hij hj
  · obtain ⟨o, ho, hu⟩ := hi
    obtain ⟨o', ho', hu'⟩ := hj
    rw [ho] at ho'
    cases ho'
    rw [hu] at hu'
    exact hne (Option.some.inj hu')
  · exact hj' i hij hi

theorem Later.snoc {L : Limits V} {calls : List (Int × Call K V T)} (h : Later L calls key other)
    (hn : used L (after L calls) o ≠ some other) : Later L (calls ++ [o]) key other := by
  obtain ⟨i, hi, hi'⟩ := h
  refine ⟨i, event_snoc.mpr (.inl hi), ?_⟩
  intro j hj hu
  rcases event_snoc.mp hu with hu | ⟨-, hu⟩
  · exact hi' j hj hu
  · exact hn hu

theorem later_of_used {L : Limits V} {calls : List (Int × Call K V T)}
    (h : used L (after L calls) o = some key) :
    Later L (calls ++ [o]) key other := by
  refine ⟨calls.length, event_snoc.mpr (.inr ⟨rfl, h⟩), ?_⟩
  intro j hj hu
  have hl := Event.lt hu
  rw [List.length_append, List.length_singleton] at hl
  omega

theorem after_recency (L : Limits V) (calls : List (Int × Call K V T)) :
    (after L calls).Pairwise fun e e' => Later L calls e.key e'.key := by
  induction calls using List.reverseRecOn with
  | nil => exact List.Pairwise.nil
  | append_singleton calls o ih =>
    rw [after_snoc]
    rcases call_shape L (after L calls) o with ⟨hs, hu⟩ | ⟨e, rest, h, hs, hk, hu⟩
    · apply (ih.sublist hs).imp
      intro e e' hl
      exact hl.snoc (by simp [hu])
    · rw [h, List.pairwise_cons]
      constructor
      · intro e' h'
        exact later_of_used hu
      · apply (ih.sublist hs).imp_of_mem
        intro e₁ e₂ h₁ h₂ hl
        apply hl.snoc
        rw [hu]
        intro heq
        exact hk e₂ h₂ (Option.some.inj heq).symm

def LeastRecent (L : Limits V) (calls : List (Int × Call K V T)) (key : K) : Prop :=
  key ∈ keys (after L calls) ∧
    ∀ other ∈ keys (after L calls), other ≠ key → Later L calls other key

theorem getLast_iff {L : Limits V} {calls : List (Int × Call K V T)} (h : slot ∈ after L calls) :
    (after L calls).getLast? = some slot ↔ LeastRecent L calls slot.key := by
  have hr := after_recency L calls
  have hd := after_nodup L calls
  rcases List.eq_nil_or_concat (after L calls) with hn | ⟨rest, e, he⟩
  · rw [hn] at h
    cases h
  · rw [List.concat_eq_append] at he
    rw [LeastRecent]
    rw [he] at h hr hd ⊢
    rw [List.getLast?_concat, Option.some.injEq]
    obtain ⟨-, -, hlast⟩ := List.pairwise_append.mp hr
    constructor
    · rintro rfl
      refine ⟨List.mem_map_of_mem h, ?_⟩
      intro other ho hne
      obtain ⟨e', h', rfl⟩ := List.mem_map.mp ho
      rcases List.mem_append.mp h' with h' | h'
      · exact hlast e' h' e (by simp)
      · rw [List.mem_singleton.mp h'] at hne
        exact (hne rfl).elim
    · rintro ⟨-, hl⟩
      rcases List.mem_append.mp h with h' | h'
      · exfalso
        have hle := hlast slot h' e (by simp)
        have hne : slot.key ≠ e.key := by
          intro hk
          rw [keys, List.map_append, List.nodup_append] at hd
          exact hd.2.2 _ (List.mem_map_of_mem h') _ (by simp) hk
        exact hle.asymm hne (hl e.key (List.mem_map_of_mem (by simp)) hne.symm)
      · exact (List.mem_singleton.mp h').symm

/-- What ends a binding, with eviction told by the uses of the keys. -/
def EndedBy (L : Limits V) (slot : Slot K V T) (calls : List (Int × Call K V T)) :
    Int × Call K V T → Prop
  | (now, .get key) => key = slot.key ∧ slot.expiresAt < now
  | (_, .set key value _) =>
    L.admits value ∧ (key = slot.key ∨
      (key ∉ keys (after L calls) ∧ L.full (after L calls) ∧ LeastRecent L calls slot.key))
  | (_, .invalidate tag) => tag ∈ slot.tags
  | (_, .flush) => True

theorem endedBy_iff {L : Limits V} {calls : List (Int × Call K V T)} (h : slot ∈ after L calls)
    (o : Int × Call K V T) : EndedBy L slot calls o ↔ Ends L (after L calls) slot o := by
  obtain ⟨now, o⟩ := o
  cases o with
  | set key value tags => simp only [EndedBy, Ends, getLast_iff h]
  | get key => rfl
  | invalidate tag => rfl
  | flush => rfl

def Lives (L : Limits V) (slot : Slot K V T) (calls : List (Int × Call K V T)) : Prop :=
  ∃ i, Event (fun _ => Puts L slot) calls i ∧ ∀ j, i < j → ¬ Event (EndedBy L slot) calls j

theorem lives_snoc {L : Limits V} {calls : List (Int × Call K V T)} :
    Lives L slot (calls ++ [o]) ↔
      (Lives L slot calls ∧ ¬ EndedBy L slot calls o) ∨ Puts L slot o := by
  constructor
  · rintro ⟨i, hi, hn⟩
    rcases event_snoc.mp hi with hi | ⟨-, hp⟩
    · left
      refine ⟨⟨i, hi, fun j hj he => hn j hj (event_snoc.mpr (.inl he))⟩, ?_⟩
      intro he
      exact hn calls.length hi.lt (event_snoc.mpr (.inr ⟨rfl, he⟩))
    · exact .inr hp
  · rintro (⟨⟨i, hi, hn⟩, he⟩ | hp)
    · refine ⟨i, event_snoc.mpr (.inl hi), ?_⟩
      intro j hj hj'
      rcases event_snoc.mp hj' with hj' | ⟨-, hj'⟩
      · exact hn j hj hj'
      · exact he hj'
    · refine ⟨calls.length, event_snoc.mpr (.inr ⟨rfl, hp⟩), ?_⟩
      intro j hj hj'
      have hl := Event.lt hj'
      rw [List.length_append, List.length_singleton] at hl
      omega

theorem mem_after (L : Limits V) (calls : List (Int × Call K V T)) :
    slot ∈ after L calls ↔ Lives L slot calls := by
  induction calls using List.reverseRecOn with
  | nil =>
    constructor
    · intro h
      cases h
    · rintro ⟨i, hi, -⟩
      exact (Nat.not_lt_zero _ hi.lt).elim
  | append_singleton calls o ih =>
    rw [after_snoc, mem_call L (after_nodup L calls), lives_snoc, ← ih]
    constructor
    · rintro (⟨h, he⟩ | hp)
      · exact .inl ⟨h, fun hc => he ((endedBy_iff h o).mp hc)⟩
      · exact .inr hp
    · rintro (⟨h, he⟩ | hp)
      · exact .inl ⟨h, fun hc => he ((endedBy_iff h o).mpr hc)⟩
      · exact .inr hp

end Reference

end Recency
