import Pgmux.Collect
import Pgmux.Handling

namespace Pgmux

open Interaction

/-- The messages in wire bytes, as a client reads them; the first argument bounds their number. -/
def readMessages : Nat → Bytes → List Message
  | n + 1, type :: a :: b :: c :: d :: s =>
    let size := uint32 a b c d - 4
    ⟨type, s.take size⟩ :: readMessages n (s.drop size)
  | _, _ => []

def readiesIn (data : Bytes) : Nat := (readMessages data.length data).countP Message.isReady

theorem readMessages_raws {ms : List Message} (hs : ∀ m ∈ ms, m.Short)
    (hn : (raws ms).length ≤ n) : readMessages n (raws ms) = ms := by
  induction ms generalizing n with
  | nil => cases n <;> rfl
  | cons m ms ih =>
    rw [raws_cons, List.length_append] at hn
    cases n with
    | zero => simp [Message.raw] at hn
    | succ n =>
      have hsize : bigEndianUint32 (putUint32 (4 + m.payload.length) ++ []) - 4 =
          m.payload.length := by
        rw [bigEndianUint32_put (hs m (.head _)), Nat.add_sub_cancel_left]
      change Message.mk m.type ((m.payload ++ raws ms).take _) ::
        readMessages n ((m.payload ++ raws ms).drop _) = _
      rw [show uint32 _ _ _ _ - 4 = m.payload.length from hsize, List.take_left, List.drop_left,
        ih (fun m hm => hs m (.tail _ hm)) (by simp [Message.raw] at hn; omega)]

theorem readiesIn_raws {ms : List Message} (hs : ∀ m ∈ ms, m.Short) :
    readiesIn (raws ms) = ms.countP Message.isReady := by
  rw [readiesIn, readMessages_raws hs le_rfl]

/-- No ReadyForQuery is in a COPY stream: none ends the data of a CopyOutResponse, and none is
between a CopyBothResponse and its CopyDone. -/
def readyOutsideCopy : List Message → Bool
  | [] => true
  | m :: ms =>
    (m.type ≠ msgCopyOutResponse ||
      (ms.dropWhile fun m => m.type = msgCopyData).head?.all fun m => !m.isReady) &&
    (m.type ≠ msgCopyBothResponse ||
      (ms.takeWhile fun m => m.type ≠ msgCopyDone).all fun m => !m.isReady) &&
    readyOutsideCopy ms

theorem readyOutsideCopy_left {ms ms' : List Message} (h : readyOutsideCopy (ms ++ ms')) :
    readyOutsideCopy ms := by
  induction ms with
  | nil => rfl
  | cons m ms ih =>
    simp only [List.cons_append, readyOutsideCopy, Bool.and_eq_true] at h ⊢
    obtain ⟨⟨h₁, h₂⟩, h₃⟩ := h
    refine ⟨⟨?_, ?_⟩, ih h₃⟩
    · rw [Bool.or_eq_true] at h₁ ⊢
      refine h₁.imp_right fun h => ?_
      rw [List.dropWhile_append] at h
      split at h
      · rename_i he
        rw [List.isEmpty_iff.mp he]
        rfl
      · rename_i he
        rw [List.head?_append_of_ne_nil _ (by simpa using he)] at h
        exact h
    · rw [Bool.or_eq_true] at h₂ ⊢
      refine h₂.imp_right fun h => ?_
      rw [List.all_eq_true] at h ⊢
      intro x hx
      apply h x
      rw [List.takeWhile_append]
      split
      · exact List.mem_append_left _ ((List.takeWhile_prefix _).subset hx)
      · exact hx

theorem readyOutsideCopy_right {ms ms' : List Message} (h : readyOutsideCopy (ms ++ ms')) :
    readyOutsideCopy ms' := by
  induction ms with
  | nil => exact h
  | cons m ms ih =>
    simp only [List.cons_append, readyOutsideCopy, Bool.and_eq_true] at h
    exact ih h.2

section Readies

variable [External] {tr t t₁ t₂ : Trace Ans} {Q : Bytes → Prop}

def eventReadies : Event → Nat
  | ⟨.sendClient m, _⟩ => if m.isReady then 1 else 0
  | ⟨.sendCached data, _⟩ => readiesIn data
  | _ => 0

def readies (tr : Trace Ans) : Nat := (tr.map eventReadies).sum

@[simp] theorem readies_append (t₁ t₂ : Trace Ans) :
    readies (t₁ ++ t₂) = readies t₁ + readies t₂ := by
  simp [readies]

@[simp] theorem readies_cons (e : Event) (t : Trace Ans) :
    readies (e :: t) = eventReadies e + readies t := by
  simp [readies]

/-- A ReadyForQuery that the proxy writes itself: it was not read from a connection just before. -/
def OwnReady (tr : Trace Ans) (p : Bytes) : Prop :=
  ∃ pre b post, tr = pre ++ ⟨.sendClient ⟨msgReadyForQuery, p⟩, b⟩ :: post ∧
    ∀ c pre', pre ≠ pre' ++ [⟨.read c, some ⟨msgReadyForQuery, p⟩⟩]

theorem OwnReady.of_append (h : OwnReady (t₁ ++ t₂) p) : OwnReady t₁ p ∨ OwnReady t₂ p := by
  obtain ⟨pre, b, post, he, hown⟩ := h
  rcases List.append_eq_append_iff.mp he with ⟨pre', rfl, h₂⟩ | ⟨rest, rfl, h₁⟩
  · refine .inr ⟨pre', b, post, h₂, ?_⟩
    rintro c pre'' rfl
    exact hown c (t₁ ++ pre'') (by simp)
  · cases rest with
    | nil => exact .inr ⟨[], b, post, h₁.symm, by simp⟩
    | cons e rest =>
      cases h₁
      exact .inl ⟨pre, b, rest, rfl, hown⟩

/-- The trace sends `n` ReadyForQuery messages, and those of the proxy itself have a payload in
`Q`. -/
structure Answered (n : Nat) (Q : Bytes → Prop) (tr : Trace Ans) : Prop where
  count : readies tr = n
  own : ∀ p, OwnReady tr p → Q p

theorem Answered.append (h₁ : Answered n Q t₁) (h₂ : Answered k Q t₂) :
    Answered (n + k) Q (t₁ ++ t₂) := by
  refine ⟨by rw [readies_append, h₁.count, h₂.count], fun p hp => ?_⟩
  rcases hp.of_append with hp | hp
  · exact h₁.own p hp
  · exact h₂.own p hp

def Op.sendsReady : Op → Bool
  | .sendClient m => m.isReady
  | .sendCached _ => true
  | _ => false

abbrev Silent (p : Proc α) : Prop := Within (fun o => o.sendsReady = false) p

omit [External] in
theorem sendsReady_of_kind {o : Op} (h : [.ready, .cached].contains o.kind = false) :
    o.sendsReady = false := by
  cases o with
  | sendClient m => cases hm : m.isReady <;> simp [Op.kind, Op.sendsReady, hm] at h ⊢
  | sendCached data => cases h
  | _ => rfl

theorem Footprint.silent {p : Proc α} (h : Footprint ks p)
    (hs : ks.all (fun k => !([.ready, .cached].contains k))) : Silent p :=
  h.avoids _ hs fun _ => sendsReady_of_kind

theorem eventReadies_silent {e : Event} (h : e.1.sendsReady = false) : eventReadies e = 0 := by
  obtain ⟨o, x⟩ := e
  cases o with
  | sendClient m =>
    replace h : m.isReady = false := h
    change (if m.isReady then 1 else 0) = 0
    rw [h]
    rfl
  | sendCached data => cases h
  | _ => rfl

theorem answered_silent (h : ∀ e ∈ tr, e.1.sendsReady = false) : Answered 0 Q tr := by
  refine ⟨?_, ?_⟩
  · induction tr with
    | nil => rfl
    | cons e t ih =>
      rw [readies_cons, ih fun e he => h e (.tail _ he)]
      rw [eventReadies_silent (h e (.head _))]
  · rintro p ⟨pre, b, post, rfl, -⟩
    have := h ⟨.sendClient ⟨msgReadyForQuery, p⟩, b⟩ (by simp)
    simp [Op.sendsReady, Message.isReady] at this

theorem Silent.answered {p : Proc α} (hp : Silent p) (h : Runs p tr a) : Answered 0 Q tr :=
  answered_silent (hp tr a h)

theorem Footprint.answered {p : Proc α} (hp : Footprint ks p)
    (hs : ks.all (fun k => !([.ready, .cached].contains k))) (h : Runs p tr a) :
    Answered 0 Q tr := (hp.silent hs).answered h

theorem Kinds.answered (h : Kinds ks tr)
    (hs : ks.all (fun k => !([.ready, .cached].contains k))) : Answered 0 Q tr :=
  answered_silent (h.avoids _ hs fun _ => sendsReady_of_kind)

theorem Answered.cons (he : e.1.sendsReady = false) (h : Answered n Q t) :
    Answered n Q (e :: t) := by
  have hs : Answered 0 Q [e] := answered_silent fun e' h' => by rwa [List.mem_singleton.mp h']
  have ha := hs.append h
  rwa [Nat.zero_add] at ha

def backendReads (tr : Trace Ans) : List Message :=
  tr.filterMap fun
    | ⟨.read _, r⟩ => r
    | _ => none

@[simp] theorem backendReads_append (t₁ t₂ : Trace Ans) :
    backendReads (t₁ ++ t₂) = backendReads t₁ ++ backendReads t₂ := List.filterMap_append

def cacheHits (tr : Trace Ans) : List Bytes :=
  tr.filterMap fun
    | ⟨.cacheGet _, r⟩ => r
    | _ => none

@[simp] theorem cacheHits_append (t₁ t₂ : Trace Ans) :
    cacheHits (t₁ ++ t₂) = cacheHits t₁ ++ cacheHits t₂ := List.filterMap_append

def OneReady (tr : Trace Ans) : Prop :=
  readyOutsideCopy (backendReads tr) = true ∧ ∀ data ∈ cacheHits tr, readiesIn data = 1

instance (tr : Trace Ans) : Decidable (OneReady tr) := inferInstanceAs (Decidable (_ ∧ _))

theorem OneReady.left (h : OneReady (t₁ ++ t₂)) : OneReady t₁ := by
  obtain ⟨h₁, h₂⟩ := h
  rw [backendReads_append] at h₁
  refine ⟨readyOutsideCopy_left h₁, fun data hd => h₂ data ?_⟩
  rw [cacheHits_append]
  exact List.mem_append_left _ hd

theorem OneReady.right (h : OneReady (t₁ ++ t₂)) : OneReady t₂ := by
  obtain ⟨h₁, h₂⟩ := h
  rw [backendReads_append] at h₁
  refine ⟨readyOutsideCopy_right h₁, fun data hd => h₂ data ?_⟩
  rw [cacheHits_append]
  exact List.mem_append_right _ hd

theorem OneReady.tail (h : OneReady (e :: t)) : OneReady t := by
  rw [← List.singleton_append] at h
  exact h.right

end Readies

end Pgmux
