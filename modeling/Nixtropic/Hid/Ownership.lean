import Nixtropic.Hid.Invariants

/-!
From the packet that completes a request until the main loop is done with it,
the request buffer belongs to that request, and while its handler runs so does
the response buffer.
-/

namespace Nixtropic.Ctaphid

variable {s s' s'' : State}

/-- The main loop finishes the request. -/
def Finishes (s : State) (a : Act) : Prop :=
  (a = .task ∨ ∃ n, a = .finish n) ∧ (step s a).busyCid = 0

/-- The request of `s` is still queued or runs, with its buffer, and no other
one was queued or dispatched. -/
structure Owned (s s' : State) : Prop where
  busyCid : s'.busyCid = s.busyCid
  asm : s'.asm = s.asm
  idle : s'.asm.state = .idle
  dispatched : s'.running = s.running ∧ s'.dispatched = s.dispatched ∨
    s.running = false ∧ s'.running = true ∧ s'.dispatched = s.request :: s.dispatched

/-- Packets and progress points leave the answer alone. -/
structure AnswerKept (s : State) : Prop where
  packet : ∀ pkt, (step s (.packet pkt)).resp = s.resp
  progress : (step s .progress).resp = s.resp
  progressed : (step s .progressed).resp = s.resp

theorem Owned.trans (h : Owned s s') (h' : Owned s' s'') : Owned s s'' where
  busyCid := h'.busyCid.trans h.busyCid
  asm := h'.asm.trans h.asm
  idle := h'.idle
  dispatched := by
    have hreq : s'.request = s.request := by rw [State.request, State.request, h.asm, h.busyCid]
    obtain ⟨hr, hd⟩ | ⟨hr, hr', hd⟩ := h.dispatched
    · obtain ⟨hr₂, hd₂⟩ | ⟨hr₂, hr₂', hd₂⟩ := h'.dispatched
      · exact .inl ⟨hr₂.trans hr, hd₂.trans hd⟩
      · exact .inr ⟨hr ▸ hr₂, hr₂', by rw [hd₂, hreq, hd]⟩
    · obtain ⟨hr₂, hd₂⟩ | ⟨hr₂, -⟩ := h'.dispatched
      · exact .inr ⟨hr, hr₂.trans hr', hd₂.trans hd⟩
      · rw [hr'] at hr₂
        cases hr₂

section Step

variable (ht : Tidy s) (hb : s.busyCid ≠ 0)

include ht hb

theorem Owned.refl : Owned s s := ⟨rfl, rfl, ht.idle hb, .inl ⟨rfl, rfl⟩⟩

theorem Owned.framed (h : Framed s s') : Owned s s' where
  busyCid := h.busyCid
  asm := h.asm
  idle := by
    rw [h.asm]
    exact ht.idle hb
  dispatched := .inl ⟨h.running, h.dispatched⟩

theorem Owned.effect {pkt : Packet} (h : Effect pkt s s') : Owned s s' := by
  cases h with
  | answered h => exact .framed ht hb h.toFramed
  | reset hb' _ => exact absurd hb' hb
  | resynced _ _ h =>
    exact ⟨h.busyCid, h.asm, h.asm ▸ ht.idle hb, .inl ⟨h.running, h.dispatched⟩⟩
  | first hb' _ _ => exact absurd hb' hb
  | next hb' _ _ => exact absurd hb' hb

/-- Every action keeps the request, except the one that finishes it. -/
theorem Owned.step {a : Act} (ha : ¬ Finishes s a) : Owned s (step s a) := by
  have hrefl := Owned.refl ht hb
  cases a with
  | endpoint usb => exact ⟨rfl, rfl, ht.idle hb, .inl ⟨rfl, rfl⟩⟩
  | clock now => exact ⟨rfl, rfl, ht.idle hb, .inl ⟨rfl, rfl⟩⟩
  | wait on => exact ⟨rfl, rfl, ht.idle hb, .inl ⟨rfl, rfl⟩⟩
  | packet pkt =>
    have h := Owned.effect (ht.see pkt) hb (handlePacket_effect (ht.see pkt) pkt)
    exact ⟨h.busyCid, h.asm, h.idle, h.dispatched⟩
  | task =>
    have hfin : (Ctaphid.step s .task).busyCid ≠ 0 := fun h => ha ⟨.inl rfl, h⟩
    simp only [Ctaphid.step] at hfin ⊢
    split at hfin
    · next hr => rwa [if_pos hr]
    · next hr =>
      rw [if_neg hr]
      have h := fidoHidTask_tasked ht
      generalize fidoHidTask s = s' at h hfin
      cases h with
      | waited _ => exact .framed ht hb (sendAnswers_framed s)
      | discarded _ _ _ => exact absurd (finishRequest_finished _).busyCid hfin
      | answered _ _ _ _ => exact absurd (finishRequest_finished _).busyCid hfin
      | rejected _ _ _ => exact absurd (finishRequest_finished _).busyCid hfin
      | started _ _ _ _ =>
        simp only [Bool.or_eq_true, not_or, Bool.not_eq_true] at hr
        exact ⟨rfl, rfl, ht.idle hb, .inr ⟨hr.1, rfl, rfl⟩⟩
  | progress =>
    simp only [Ctaphid.step]
    split
    · exact hrefl
    · exact ⟨rfl, rfl, ht.idle hb, .inl ⟨rfl, rfl⟩⟩
  | progressed =>
    simp only [Ctaphid.step]
    split
    · obtain ⟨s₁, h, heq⟩ := progressRest_eq s
      have h' := Owned.framed ht hb h.toFramed
      rw [heq]
      exact ⟨h'.busyCid, h'.asm, h'.idle, h'.dispatched⟩
    · exact hrefl
  | scratch buf =>
    simp only [Ctaphid.step]
    split
    · exact ⟨rfl, rfl, ht.idle hb, .inl ⟨rfl, rfl⟩⟩
    · exact hrefl
  | finish n =>
    have hfin : (Ctaphid.step s (.finish n)).busyCid ≠ 0 := fun h => ha ⟨.inr ⟨n, rfl⟩, h⟩
    simp only [Ctaphid.step] at hfin ⊢
    split at hfin
    · exact absurd (finishRequest_finished _).busyCid hfin
    · next hr => rwa [if_neg hr]

end Step

/-- While the handler runs no answer waits, so none can be dropped. -/
theorem Replied.resp_running (ht : Tidy s) (hr : s.running = true) (h : Replied s s') :
    s'.resp = s.resp := by
  obtain ⟨hb, hp⟩ := ht.running hr
  obtain h | h := h.resp hb
  · exact h
  · rw [h, ← hp]

theorem answerKept (ht : Tidy s) (hr : s.running = true) : AnswerKept s where
  packet := by
    intro pkt
    have hb := (ht.running hr).1
    have h := handlePacket_effect (ht.see pkt) pkt
    change (handlePacket pkt (s.see pkt)).resp = s.resp
    generalize handlePacket pkt (s.see pkt) = s' at h ⊢
    cases h with
    | answered h => exact Replied.resp_running (s := s.see pkt) (ht.see pkt) hr h
    | reset hb' _ => exact absurd hb' hb
    | resynced _ _ h => exact h.resp
    | first hb' _ _ => exact absurd hb' hb
    | next hb' _ _ => exact absurd hb' hb
  progress := by
    simp only [step]
    split <;> rfl
  progressed := by
    simp only [step]
    split
    · obtain ⟨s₁, h, heq⟩ := progressRest_eq s
      have hresp := h.resp_running ht hr
      rw [heq]
      exact hresp
    · rfl

/-- From a state with a queued or running request, up to the action that
finishes it: the request buffer, command and length stay, no assembly is
active, no second request is queued or dispatched, and while the handler runs
packets and progress points leave the answer alone. -/
theorem buffer_ownership (acts acts' : List Act) (hb : (system.run acts).busyCid ≠ 0)
    (hrun : ∀ pre a, pre ++ [a] <+: acts' →
      ¬ Finishes (system.runFrom (system.run acts) pre) a) :
    Owned (system.run acts) (system.runFrom (system.run acts) acts') ∧
      ((system.runFrom (system.run acts) acts').running = true →
        AnswerKept (system.runFrom (system.run acts) acts')) := by
  have ht := tidy_run acts
  have hinv := Runs.System.runFrom_keeps_of (M := system)
    (I := fun s => Tidy s ∧ Owned (system.run acts) s) (C := fun s a => ¬ Finishes s a)
    (fun s a h ha => ⟨h.1.step a, h.2.trans (.step h.1 (h.2.busyCid ▸ hb) ha)⟩)
    ⟨ht, .refl ht hb⟩ hrun
  exact ⟨hinv.2, answerKept hinv.1⟩

/-- A CBOR request of one byte on channel 1. -/
def demoCbor : Packet := writeBe32 1 ++ [0x90, 0x00, 0x01, 0x04] ++ List.replicate 56 0

/-- A PING of one byte. -/
def demoPing (cid : ℕ) : Packet :=
  writeBe32 cid ++ [0x81, 0x00, 0x01, 0x07] ++ List.replicate 56 0

/-- Packets of the same and of another channel, before the request is dispatched and while
its handler runs. -/
def demoBetween : List Act :=
  [.packet (demoPing 1), .packet (demoPing 2), .task, .packet (demoPing 1), .packet (demoPing 2),
    .progress]

theorem buffer_ownership_demo :
    (system.runFrom (system.run [.packet demoCbor]) demoBetween).running = true ∧
      Owned (system.run [.packet demoCbor])
        (system.runFrom (system.run [.packet demoCbor]) demoBetween) ∧
      AnswerKept (system.runFrom (system.run [.packet demoCbor]) demoBetween) := by
  have hruns : (system.runFrom (system.run [.packet demoCbor]) demoBetween).running = true := by
    decide +kernel
  have hrun : ∀ pre a, pre ++ [a] <+: demoBetween →
      ¬Finishes (system.runFrom (system.run [.packet demoCbor]) pre) a := by
    iterate 6
      refine Runs.System.forall_runFrom_cons (C := fun s a => ¬Finishes s a)
        (fun hf => absurd hf.2 (by decide +kernel)) ?_
    exact Runs.System.forall_runFrom_nil (C := fun s a => ¬Finishes s a)
  obtain ⟨howned, hkept⟩ := buffer_ownership [.packet demoCbor] demoBetween (by decide +kernel) hrun
  exact ⟨hruns, howned, hkept hruns⟩

end Nixtropic.Ctaphid
