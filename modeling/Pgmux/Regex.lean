import Mathlib.Data.List.Basic

namespace Regex

universe u

variable {α : Type u}

/-- A regular expression over symbols of which some are word symbols. -/
inductive Expr (α : Type u) where
  | empty
  | symbol (p : α → Bool)
  /-- As many symbols of a class as possible. -/
  | many (p : α → Bool)
  /-- Between a word symbol and a place without one. -/
  | boundary
  | seq (r r' : Expr α)
  /-- The first alternative is preferred. -/
  | alt (r r' : Expr α)

def Expr.oneOrMore (p : α → Bool) : Expr α := .seq (.symbol p) (.many p)

def one (p : α → Bool) : List α → List (List α × List α)
  | [] => []
  | c :: s => if p c then [([c], s)] else []

/-- The ways to split a text behind symbols of a class, the longest first. -/
def runs (p : α → Bool) : List α → List (List α × List α)
  | [] => [([], [])]
  | c :: s =>
    if p c then (runs p s).map (fun m => (c :: m.1, m.2)) ++ [([], c :: s)] else [([], c :: s)]

/-- The last symbol read is a word symbol, given whether the one before the text was. -/
def behind (word : α → Bool) (b : Bool) (s : List α) : Bool := s.foldl (fun _ c => word c) b

/-- The matches at the start of a text with the rest behind each, by priority. `b` says whether a
word symbol stands before the text. -/
def Expr.matchesAt (word : α → Bool) : Expr α → Bool → List α → List (List α × List α)
  | .empty, _, s => [([], s)]
  | .symbol p, _, s => one p s
  | .many p, _, s => runs p s
  | .boundary, b, s => if b = s.head?.any word then [] else [([], s)]
  | .seq r r', b, s => (r.matchesAt word b s).flatMap fun m =>
      (r'.matchesAt word (behind word b m.1) m.2).map fun m' => (m.1 ++ m'.1, m'.2)
  | .alt r r', b, s => r.matchesAt word b s ++ r'.matchesAt word b s

def Expr.reads : Expr α → α → Bool
  | .empty, _ => false
  | .symbol p, z => p z
  | .many p, z => p z
  | .boundary, _ => false
  | .seq r r', z => r.reads z || r'.reads z
  | .alt r r', z => r.reads z || r'.reads z

inductive Segment (α : Type u) where
  | copied (c : α)
  | matched (m : List α)

def Segment.text : Segment α → List α
  | .copied c => [c]
  | .matched m => m

def text (segs : List (Segment α)) : List α := segs.flatMap Segment.text

/-- The segments of a text: the leftmost match of the highest priority, and so on behind it. Only
matches of at least one symbol count. The number is of the symbols that belong to a match already
found. -/
def segmentsFrom (word : α → Bool) (r : Expr α) : Nat → Bool → List α → List (Segment α)
  | _, _, [] => []
  | k + 1, _, c :: s => segmentsFrom word r k (word c) s
  | 0, b, c :: s =>
    match (r.matchesAt word b (c :: s)).head? with
    | some (_ :: m, _) => .matched (c :: m) :: segmentsFrom word r m.length (word c) s
    | _ => .copied c :: segmentsFrom word r 0 (word c) s

abbrev segments (word : α → Bool) (r : Expr α) (b : Bool) (s : List α) : List (Segment α) :=
  segmentsFrom word r 0 b s

def render (replacement : List α) (segs : List (Segment α)) : List α :=
  segs.flatMap fun
    | .copied c => [c]
    | .matched _ => replacement

def replaceAll (word : α → Bool) (r : Expr α) (replacement s : List α) : List α :=
  render replacement (segments word r false s)

section Matches

variable {word : α → Bool} {r : Expr α} {b : Bool}

@[simp] theorem behind_nil : behind word b [] = b := rfl

@[simp] theorem behind_cons : behind word b (c :: s) = behind word (word c) s := rfl

theorem behind_append : behind word b (s ++ t) = behind word (behind word b s) t :=
  List.foldl_append

theorem append_of_mem_runs (h : m ∈ runs p s) : m.1 ++ m.2 = s := by
  induction s generalizing m with
  | nil =>
    rw [List.mem_singleton.mp h]
    rfl
  | cons c s ih =>
    rw [runs] at h
    split at h
    · rcases List.mem_append.mp h with h | h
      · obtain ⟨m', hm', rfl⟩ := List.mem_map.mp h
        exact congrArg (c :: ·) (ih hm')
      · rw [List.mem_singleton.mp h]
        rfl
    · rw [List.mem_singleton.mp h]
      rfl

theorem class_of_mem_runs (h : m ∈ runs p s) (hc : c ∈ m.1) : p c := by
  induction s generalizing m with
  | nil =>
    rw [List.mem_singleton.mp h] at hc
    cases hc
  | cons d s ih =>
    rw [runs] at h
    split at h
    · rename_i hd
      rcases List.mem_append.mp h with h | h
      · obtain ⟨m', hm', rfl⟩ := List.mem_map.mp h
        rcases List.mem_cons.mp hc with rfl | hc
        · exact hd
        · exact ih hm' hc
      · rw [List.mem_singleton.mp h] at hc
        cases hc
    · rw [List.mem_singleton.mp h] at hc
      cases hc

theorem mem_seq : m ∈ (Expr.seq r r').matchesAt word b s ↔
    ∃ m₁ ∈ r.matchesAt word b s, ∃ m₂ ∈ r'.matchesAt word (behind word b m₁.1) m₁.2,
      (m₁.1 ++ m₂.1, m₂.2) = m := by
  rw [Expr.matchesAt, List.mem_flatMap]
  simp only [List.mem_map]

theorem append_of_mem_matchesAt (h : m ∈ r.matchesAt word b s) : m.1 ++ m.2 = s := by
  induction r generalizing b s m with
  | empty =>
    rw [List.mem_singleton.mp h]
    rfl
  | symbol p =>
    cases s with
    | nil => cases h
    | cons c s =>
      rw [Expr.matchesAt, one] at h
      split at h
      · rw [List.mem_singleton.mp h]
        rfl
      · cases h
  | many p => exact append_of_mem_runs h
  | boundary =>
    rw [Expr.matchesAt] at h
    split at h
    · cases h
    · rw [List.mem_singleton.mp h]
      rfl
  | seq r r' ih ih' =>
    obtain ⟨m₁, h₁, m₂, h₂, rfl⟩ := mem_seq.mp h
    show m₁.1 ++ m₂.1 ++ m₂.2 = s
    rw [List.append_assoc, ih' h₂, ih h₁]
  | alt r r' ih ih' =>
    rcases List.mem_append.mp h with h | h
    · exact ih h
    · exact ih' h

theorem reads_of_mem_matchesAt (h : m ∈ r.matchesAt word b s) (hc : c ∈ m.1) :
    r.reads c := by
  induction r generalizing b s m with
  | empty =>
    rw [List.mem_singleton.mp h] at hc
    cases hc
  | symbol p =>
    cases s with
    | nil => cases h
    | cons d s =>
      rw [Expr.matchesAt, one] at h
      split at h
      · rename_i hd
        rw [List.mem_singleton.mp h] at hc
        rw [List.mem_singleton.mp hc]
        exact hd
      · cases h
  | many p => exact class_of_mem_runs h hc
  | boundary =>
    rw [Expr.matchesAt] at h
    split at h
    · cases h
    · rw [List.mem_singleton.mp h] at hc
      cases hc
  | seq r r' ih ih' =>
    obtain ⟨m₁, h₁, m₂, h₂, rfl⟩ := mem_seq.mp h
    rw [Expr.reads, Bool.or_eq_true]
    rcases List.mem_append.mp hc with hc | hc
    · exact .inl (ih h₁ hc)
    · exact .inr (ih' h₂ hc)
  | alt r r' ih ih' =>
    rw [Expr.reads, Bool.or_eq_true]
    rcases List.mem_append.mp h with h | h
    · exact .inl (ih h hc)
    · exact .inr (ih' h hc)

theorem ends_before (hz : r.reads z = false) (h : m ∈ r.matchesAt word b (u ++ z :: t)) :
    ∃ v, u = m.1 ++ v ∧ m.2 = v ++ z :: t := by
  rcases List.append_eq_append_iff.mp (append_of_mem_matchesAt h) with ⟨v, hu, hm⟩ | ⟨v, hm, hv⟩
  · exact ⟨v, hu, hm⟩
  · cases v with
    | nil => exact ⟨[], by rw [hm]; simp, hv.symm⟩
    | cons d v =>
      obtain ⟨rfl, -⟩ := List.cons.inj hv
      have hread := reads_of_mem_matchesAt h (c := z) (by rw [hm]; simp)
      rw [hz] at hread
      cases hread

theorem runs_before (hz : p z = false) (u t : List α) :
    runs p (u ++ z :: t) = (runs p (u ++ [z])).map fun m => (m.1, m.2 ++ t) := by
  induction u with
  | nil => simp [runs, hz]
  | cons c u ih =>
    rw [List.cons_append, List.cons_append, runs, runs]
    split
    · rw [ih, List.map_append, List.map_map, List.map_map]
      simp
    · simp

theorem matchesAt_before (hz : r.reads z = false) (b : Bool) (u t : List α) :
    r.matchesAt word b (u ++ z :: t) =
      (r.matchesAt word b (u ++ [z])).map fun m => (m.1, m.2 ++ t) := by
  induction r generalizing b u with
  | empty => simp [Expr.matchesAt]
  | symbol p =>
    cases u with
    | nil => simp [Expr.matchesAt, one, show p z = false from hz]
    | cons c u =>
      rw [List.cons_append, List.cons_append, Expr.matchesAt, Expr.matchesAt, one, one]
      split <;> simp
  | many p => exact runs_before hz u t
  | boundary =>
    have hhead : (u ++ z :: t).head? = (u ++ [z]).head? := by cases u <;> rfl
    rw [Expr.matchesAt, Expr.matchesAt, hhead]
    split <;> simp
  | seq r r' ih ih' =>
    rw [Expr.reads, Bool.or_eq_false_iff] at hz
    rw [Expr.matchesAt, Expr.matchesAt, ih hz.1, List.flatMap_map, List.map_flatMap]
    apply List.flatMap_congr
    intro m hm
    obtain ⟨v, -, hv⟩ := ends_before hz.1 hm
    show (r'.matchesAt word _ (m.2 ++ t)).map _ = _
    rw [hv, List.append_assoc, List.singleton_append, ih' hz.2, List.map_map, List.map_map]
    rfl
  | alt r r' ih ih' =>
    rw [Expr.reads, Bool.or_eq_false_iff] at hz
    rw [Expr.matchesAt, Expr.matchesAt, ih hz.1, ih' hz.2, List.map_append]

theorem runs_one (hy : ∀ c ∈ y, p c ∧ q c = false) (hp : p z = false) (hq : q z)
    (w : List α) :
    (Expr.seq (.many p) (.symbol q)).matchesAt word b (y ++ z :: w) = [(y ++ [z], w)] := by
  show ((runs p (y ++ z :: w)).flatMap fun m => (one q m.2).map fun m' => (m.1 ++ m'.1, m'.2)) = _
  induction y with
  | nil => simp [runs, one, hp, hq]
  | cons c y ih =>
    obtain ⟨hc, hy⟩ := List.forall_mem_cons.mp hy
    have hrest := congrArg (List.map fun m => (c :: m.1, m.2)) (ih hy)
    rw [List.map_flatMap] at hrest
    simp only [List.map_map] at hrest
    rw [List.cons_append, runs, if_pos hc.1, List.flatMap_append, List.flatMap_map,
      List.flatMap_singleton, one, if_neg (by rw [hc.2]; exact Bool.false_ne_true), List.map_nil,
      List.append_nil]
    exact hrest

theorem runs_one_nil (hs : ∀ c ∈ s, q c = false) :
    (Expr.seq (.many p) (.symbol q)).matchesAt word b s = [] := by
  show ((runs p s).flatMap fun m => (one q m.2).map fun m' => (m.1 ++ m'.1, m'.2)) = _
  rw [List.flatMap_eq_nil_iff]
  intro m hm
  have hsplit := append_of_mem_runs hm
  cases hrest : m.2 with
  | nil => rfl
  | cons c t =>
    have hc := hs c (by rw [← hsplit, hrest]; simp)
    simp [one, hc]

end Matches

section Segments

variable {word : α → Bool} {r : Expr α} {b : Bool}

theorem segmentsFrom_skip (m s : List α) :
    segmentsFrom word r m.length b (m ++ s) = segments word r (behind word b m) s := by
  induction m generalizing b with
  | nil => rfl
  | cons c m ih => exact ih

theorem segments_match (h : (r.matchesAt word b s).head? = some (m, t)) (hm : m ≠ []) :
    segments word r b s = .matched m :: segments word r (behind word b m) t := by
  have hs := append_of_mem_matchesAt (List.mem_of_head? h)
  obtain ⟨c, m, rfl⟩ := List.exists_cons_of_ne_nil hm
  subst hs
  show segmentsFrom word r 0 b (c :: (m ++ t)) = _
  rw [segmentsFrom]
  rw [show (c :: m, t).1 ++ (c :: m, t).2 = c :: (m ++ t) from rfl] at h
  rw [h]
  exact congrArg _ (segmentsFrom_skip m t)

theorem segments_copy (h : r.matchesAt word b (c :: s) = []) :
    segments word r b (c :: s) = .copied c :: segments word r (word c) s := by
  rw [segments, segmentsFrom, h]
  rfl

theorem render_append (replacement : List α) (segs segs' : List (Segment α)) :
    render replacement (segs ++ segs') = render replacement segs ++ render replacement segs' :=
  List.flatMap_append

end Segments

end Regex
