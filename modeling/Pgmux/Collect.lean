import Pgmux.CacheUse

namespace Pgmux

open Interaction

def raws (ms : List Message) : Bytes := ms.flatMap Message.raw

@[simp] theorem raws_append (ms ms' : List Message) : raws (ms ++ ms') = raws ms ++ raws ms' :=
  List.flatMap_append

theorem raws_cons (m : Message) (ms : List Message) : raws (m :: ms) = m.raw ++ raws ms :=
  List.flatMap_cons ..

def Message.Short (m : Message) : Prop := 4 + m.payload.length < 2 ^ 32

theorem Message.short_of_size {m : Message} (h : m.payload.length ≤ maxMessageSize) : m.Short := by
  have hmax : maxMessageSize = 16777216 := rfl
  unfold Short
  omega

theorem raws_inj_of_short {ms ms' : List Message} (h : raws ms = raws ms')
    (hs : ∀ m ∈ ms, m.Short) (hs' : ∀ m ∈ ms', m.Short) : ms = ms' := by
  induction ms generalizing ms' with
  | nil =>
    cases ms' with
    | nil => rfl
    | cons m' ms' => cases h
  | cons m ms ih =>
    cases ms' with
    | nil => cases h
    | cons m' ms' =>
      have hm := hs m (.head _)
      have hm' := hs' m' (.head _)
      obtain ⟨type, payload⟩ := m
      obtain ⟨type', payload'⟩ := m'
      simp only [raws_cons, Message.raw, List.cons_append, List.append_assoc,
        List.cons.injEq] at h
      obtain ⟨rfl, h⟩ := h
      obtain ⟨hput, h⟩ := List.append_inj h rfl
      have hsize := putUint32_inj hput hm hm'
      obtain ⟨rfl, hrest⟩ := List.append_inj h (by omega)
      rw [ih hrest (fun m hm => hs m (.tail _ hm))
        fun m hm => hs' m (.tail _ hm)]

theorem short_of_raws {ms : List Message} (h : (raws ms).length < 2 ^ 32) :
    ∀ m ∈ ms, m.Short := by
  induction ms with
  | nil => simp
  | cons m ms ih =>
    rw [raws_cons, List.length_append] at h
    intro m' hm'
    rcases List.mem_cons.mp hm' with rfl | hm'
    · simp only [Message.raw, List.cons_append, List.length_cons, List.length_append,
        putUint32_length] at h
      unfold Message.Short
      omega
    · exact ih (by omega) m' hm'

theorem raws_inj {ms ms' : List Message} (h : raws ms = raws ms')
    (hlen : (raws ms).length < 2 ^ 32) : ms = ms' :=
  raws_inj_of_short h (short_of_raws hlen) (short_of_raws (h ▸ hlen))

def Oversize (maxSize : Int) (ms : List Message) : Prop :=
  0 < maxSize ∧ maxSize < (raws ms).length

instance (maxSize : Int) (ms : List Message) : Decidable (Oversize maxSize ms) :=
  inferInstanceAs (Decidable (_ ∧ _))

section Collect

variable [External]

def readsOn (c : ConnId) (tr : Trace Ans) : List Message := (answers (.read c) tr).filterMap id

@[simp] theorem readsOn_append (c : ConnId) (t₁ t₂ : Trace Ans) :
    readsOn c (t₁ ++ t₂) = readsOn c t₁ ++ readsOn c t₂ := by
  simp [readsOn, answers]

@[simp] theorem readsOn_nil (c : ConnId) : readsOn c ([] : Trace Ans) = [] := rfl

@[simp] theorem readsOn_read (c : ConnId) (m : Message) (t : Trace Ans) :
    readsOn c (⟨.read c, some m⟩ :: t) = m :: readsOn c t := by
  simp [readsOn, answers]

theorem readsOn_skip {e : Event} (h : e.1 ≠ .read c) (t : Trace Ans) :
    readsOn c (e :: t) = readsOn c t := by
  simp [readsOn, answers, h]

theorem readsOn_of_not {tr : Trace Ans} (h : ∀ e ∈ tr, e.1 ≠ .read c) : readsOn c tr = [] := by
  induction tr with
  | nil => rfl
  | cons e t ih =>
    rw [readsOn_skip (h e (.head _)),
      ih fun e' he => h e' (.tail _ he)]

theorem Quiet.readsOn {p : Proc α} (hp : Quiet p) (h : Runs p tr a) : readsOn c tr = [] := by
  apply readsOn_of_not
  intro e he ho
  have := hp tr a h e he
  simp [ho, Op.onConn] at this

theorem IdleTrace.readsOn (h : IdleTrace tr) : readsOn c tr = [] := by
  apply readsOn_of_not
  intro e he ho
  have := (h e he).1
  simp [ho, Op.onConn] at this

omit [External] in
theorem collect_some (h : collect maxSize (some buf) m = some data) :
    data = buf ++ m.raw ∧ isCopyResponse m = false ∧
      ¬ (0 < maxSize ∧ maxSize < (buf ++ m.raw).length) := by
  simp only [collect] at h
  split at h
  · cases h
  · rename_i hlen
    split at h
    · cases h
    · rename_i hcopy
      obtain rfl := Option.some.inj h
      exact ⟨rfl, by simpa using hcopy, hlen⟩

def Collected (maxSize : Int) (c : ConnId) (n : Nat) (buf : Option Bytes) (t : Trace Ans) :
    Prop :=
  ∀ data, buf = some data → data = raws (readsOn c t) ∧
    (∀ m ∈ readsOn c t, isCopyResponse m = false) ∧ ¬ Oversize maxSize (readsOn c t) ∧
      (readsOn c t).countP Message.isReady = n

theorem Collected.congr (h : Collected maxSize c n buf t) (ht : readsOn c t' = readsOn c t) :
    Collected maxSize c n buf t' := by
  unfold Collected
  rw [ht]
  exact h

theorem Collected.step (h : Collected maxSize c n buf t)
    (hm : isCopyResponse m = false → readsOn c t' = [m]) :
    Collected maxSize c (n + [m].countP Message.isReady) (collect maxSize buf m) (t ++ t') := by
  intro data hd
  cases buf with
  | none => cases hd
  | some buf =>
    obtain ⟨rfl, hcopy, hlen⟩ := collect_some hd
    obtain ⟨rfl, hall, -, hn⟩ := h buf rfl
    have hr : readsOn c (t ++ t') = readsOn c t ++ [m] := by rw [readsOn_append, hm hcopy]
    have hraw : raws (readsOn c (t ++ t')) = raws (readsOn c t) ++ m.raw := by
      rw [hr, raws_append]
      simp [raws]
    refine ⟨hraw.symm, ?_, ?_, by rw [hr, List.countP_append, hn]⟩
    · intro m' hm'
      rw [hr] at hm'
      rcases List.mem_append.mp hm' with hm' | hm'
      · exact hall m' hm'
      · exact List.mem_singleton.mp hm' ▸ hcopy
    · unfold Oversize
      rw [hraw]
      exact hlen

theorem relayAndCollect_collected (h : Runs (relayAndCollect c) tr (some buf)) :
    ∃ cfg : Config, ⟨.config, cfg⟩ ∈ tr ∧ Collected cfg.maxResultSize c 1 buf tr := by
  unfold relayAndCollect at h
  rw [runs_perform_bind] at h
  obtain ⟨cfg, t, h, rfl⟩ := h
  refine ⟨cfg, .head _, ?_⟩
  obtain ⟨buf', t₁, t₂, hI, hb, rfl⟩ := h.of_iterate (I := Collected cfg.maxResultSize c 0)
    (by
      intro data hd
      cases hd
      refine ⟨rfl, by simp, ?_, rfl⟩
      rintro ⟨hpos, hlt⟩
      simp [raws] at hlt
      omega)
    (by
      intro buf t t' buf' hI hb
      obtain ⟨m, u, hne, rfl, hu, rfl⟩ := relayRound_again hb
      have hs : Collected cfg.maxResultSize c (0 + [m].countP Message.isReady) _
          (t ++ ⟨.read c, some m⟩ :: ⟨.sendClient m, true⟩ :: u) := hI.step fun hcopy => by
        rw [hu hcopy, readsOn_read, readsOn_skip (by simp), readsOn_nil]
      rwa [show [m].countP Message.isReady = 0 by simp [Message.isReady, hne]] at hs)
  rcases relayRound_leave hb with he | ⟨m, hready, he, rfl⟩
  · cases he
  · obtain rfl := Option.some.inj he
    have hm : readsOn c [⟨.read c, some m⟩, ⟨.sendClient m, true⟩] = [m] := by
      rw [readsOn_read, readsOn_skip (by simp), readsOn_nil]
    have hs := hI.step fun _ => hm
    rw [show [m].countP Message.isReady = 1 by simp [Message.isReady, hready]] at hs
    exact hs.congr (readsOn_skip (by simp) _)

theorem relayCached_collected (h : Runs (relayCached c) tr (some (some data))) :
    ⟨.queryCache, true⟩ ∈ tr ∧
      ∃ cfg : Config, ⟨.config, cfg⟩ ∈ tr ∧ Collected cfg.maxResultSize c 1 (some data) tr := by
  unfold relayCached at h
  rw [runs_perform_bind] at h
  obtain ⟨cached, t, h, rfl⟩ := h
  split at h
  · rename_i hc
    obtain ⟨cfg, hcfg, hI⟩ := relayAndCollect_collected h
    refine ⟨by rw [hc]; exact .head _, cfg, .tail _ hcfg, ?_⟩
    exact hI.congr (readsOn_skip (by simp) _)
  · obtain ⟨t₁, ok, t₂, -, h, rfl⟩ := h.of_bind
    cases ok with
    | true => cases (runs_pure.mp h).2
    | false => cases (runs_pure.mp h).2

theorem forwardAll_writes (h : Runs (forwardAll c ms) tr ok) : readsOn c' tr = [] := by
  apply readsOn_of_not
  have hw : Within (fun o => ∃ m, o = .write c m) (forwardAll c ms) := by
    clear h
    induction ms with
    | nil => exact within_pure _
    | cons m ms ih => exact .bind (within_perform ⟨m, rfl⟩) fun _ => .ite ih (within_pure _)
  intro e he ho
  obtain ⟨m, hm⟩ := hw tr ok h e he
  cases ho.symm.trans hm

end Collect

end Pgmux
