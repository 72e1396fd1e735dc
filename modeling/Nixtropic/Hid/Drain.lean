import Nixtropic.Hid.Invariants

/-!
What the framing does with an endpoint that takes every report.
-/

namespace Nixtropic.Ctaphid

variable {s s' : State}

/-- The endpoint takes every report. -/
def State.Accepting (s : State) : Prop := s.usb = fun _ => true

theorem pushPacket_accepting (h : s.Accepting) (pkt : Packet) :
    pushPacket pkt s = (true, { s with sent := s.sent ++ [pkt] }) := by
  have h : s.usb = fun _ => true := h
  simp [pushPacket, tudHidReady, tudHidReport, h]

/-- The held answers have gone out. -/
def State.flushed (s : State) : State :=
  { s with
    sent := s.sent ++ (if s.short.pending then [s.short.pkt] else []) ++
      (if s.resync.pending && !s.abandoned then [s.resync.pkt] else [])
    short := ⟨s.short.pkt, false⟩
    resync := ⟨s.resync.pkt, s.resync.pending && s.abandoned⟩ }

theorem flushShort_accepting (h : s.Accepting) :
    flushShort s = { s with
      sent := s.sent ++ (if s.short.pending then [s.short.pkt] else [])
      short := ⟨s.short.pkt, false⟩ } := by
  simp only [flushShort]
  split
  · rw [pushPacket_accepting h]
    rfl
  · next hp =>
    have hshort : s.short = ⟨s.short.pkt, false⟩ := by
      rw [Bool.not_eq_true] at hp
      rw [← hp]
    rw [List.append_nil, ← hshort]

theorem flushResync_accepting (h : s.Accepting) (hs : s.short.pending = false) :
    flushResync s = { s with
      sent := s.sent ++ (if s.resync.pending && !s.abandoned then [s.resync.pkt] else [])
      resync := ⟨s.resync.pkt, s.resync.pending && s.abandoned⟩ } := by
  simp only [flushResync, hs, Bool.not_false, Bool.true_and]
  split
  · next hp =>
    rw [pushPacket_accepting h]
    simp only [Bool.and_eq_true, Bool.not_eq_true'] at hp
    rw [hp.1, hp.2]
    rfl
  · next hp =>
    have hresync : s.resync = ⟨s.resync.pkt, s.resync.pending && s.abandoned⟩ := by
      cases hr : s.resync.pending with
      | false => rw [Bool.false_and, ← hr]
      | true =>
        rw [hr, Bool.true_and, Bool.not_eq_true, Bool.not_eq_false'] at hp
        rw [hp, Bool.true_and, ← hr]
    rw [List.append_nil, ← hresync]

theorem flushPending_accepting (h : s.Accepting) : flushPending s = (true, s.flushed) := by
  have h' : State.Accepting { s with
      sent := s.sent ++ (if s.short.pending then [s.short.pkt] else [])
      short := ⟨s.short.pkt, false⟩ } := h
  rw [flushPending, flushShort_accepting h, flushResync_accepting h' rfl]
  rfl

theorem emitResponsePacket_accepting (h : s.Accepting) (hp : s.resp.pending = true) :
    emitResponsePacket s = (true, { s with
      sent := s.sent ++ [s.resp.next.1]
      resp := { s.resp.next.2 with
        pending := decide (s.resp.next.2.sent < s.resp.next.2.total) } }) := by
  have h : s.usb = fun _ => true := h
  simp [emitResponsePacket, tudHidReady, tudHidReport, h, hp]

/-- Every packet but the last carries a byte of the answer. -/
theorem Response.next_sent (r : Response) (h : r.next.2.sent < r.next.2.total) :
    r.next.2.total = r.total ∧ r.total - r.next.2.sent < r.total - r.sent := by
  refine ⟨rfl, ?_⟩
  simp only [Response.next] at h ⊢
  split at h <;> simp only [initDataLen, contDataLen] at h ⊢ <;> split <;> omega

theorem drainLoop_accepting (fuel : ℕ) (h : s.Accepting)
    (hfuel : s.resp.total - s.resp.sent < fuel) :
    ∃ resp more, drainLoop fuel s = { s with resp := resp, sent := s.sent ++ more } ∧
      resp.pending = false ∧ (s.resp.pending = true → more ≠ []) := by
  induction fuel generalizing s with
  | zero => omega
  | succ fuel ih =>
    cases hp : s.resp.pending with
    | false =>
      refine ⟨s.resp, [], ?_, hp, by simp⟩
      have he : emitResponsePacket s = (false, s) := by simp [emitResponsePacket, hp]
      simp only [drainLoop, he, List.append_nil]
      rfl
    | true =>
      simp only [drainLoop, emitResponsePacket_accepting h hp, if_true]
      by_cases hlt : s.resp.next.2.sent < s.resp.next.2.total
      · obtain ⟨htotal, hdec⟩ := s.resp.next_sent hlt
        obtain ⟨resp, more, heq, hpend, -⟩ := @ih { s with
          sent := s.sent ++ [s.resp.next.1]
          resp := { s.resp.next.2 with
            pending := decide (s.resp.next.2.sent < s.resp.next.2.total) } } h (by
              change s.resp.next.2.total - s.resp.next.2.sent < fuel
              omega)
        refine ⟨resp, s.resp.next.1 :: more, ?_, hpend, by simp⟩
        rw [heq]
        simp
      · refine ⟨{ s.resp.next.2 with pending := false }, [s.resp.next.1], ?_, rfl, by simp⟩
        rw [decide_eq_false hlt]
        cases fuel with
        | zero => rfl
        | succ fuel => simp [drainLoop, emitResponsePacket]

/-- With an accepting endpoint the end of `fido_hid_task` sends everything that
is not held for an abandoned request. -/
theorem sendAnswers_accepting (h : s.Accepting) :
    ∃ resp more, sendAnswers s = { s.flushed with resp := resp, sent := s.flushed.sent ++ more } ∧
      ((s.resync.pending && s.abandoned) = true → resp = s.resp) ∧
      ((s.resync.pending && s.abandoned) = false → resp.pending = false) ∧
      ((s.resync.pending && s.abandoned) = false → s.resp.pending = true → more ≠ []) := by
  cases hheld : s.resync.pending && s.abandoned with
  | true =>
    refine ⟨s.resp, [], ?_, by simp, by simp, by simp⟩
    have : s.flushed.resync.pending = true := hheld
    simp only [sendAnswers, flushPending_accepting h, this, List.append_nil]
    rfl
  | false =>
    have : s.flushed.resync.pending = false := hheld
    have hfuel : s.flushed.resp.total - s.flushed.resp.sent <
        s.flushed.resp.total - s.flushed.resp.sent + 2 := by omega
    have hf : s.flushed.Accepting := h
    obtain ⟨resp, more, heq, hp, hmore⟩ := drainLoop_accepting _ hf hfuel
    refine ⟨resp, more, ?_, by simp, fun _ => hp, fun _ => hmore⟩
    simp only [sendAnswers, flushPending_accepting h, this]
    exact heq

/-! ### The endpoint stays as it is -/

theorem accepting_sendNow (h : s.Accepting) (cid : ℕ) (cmd : UInt8) (payload : Packet) :
    (sendNow cid cmd payload s).Accepting := by
  unfold sendNow
  split
  · exact h
  · have hf : s.flushed.Accepting := h
    simp only [flushPending_accepting h, pushPacket_accepting hf]
    exact h

theorem accepting_replyShort (h : s.Accepting) (cid : ℕ) (cmd : UInt8) (payload : Packet) :
    (replyShort cid cmd payload s).Accepting := by
  unfold replyShort
  split
  · exact h
  · split
    · exact accepting_sendNow h _ _ _
    · exact h

theorem accepting_queueError (h : s.Accepting) (cid : ℕ) (err : UInt8) :
    (queueError cid err s).Accepting :=
  accepting_replyShort h _ _ _

theorem accepting_sendAnswers (h : s.Accepting) : (sendAnswers s).Accepting := by
  obtain ⟨resp, more, heq, -⟩ := sendAnswers_accepting h
  rw [heq]
  exact h

theorem accepting_sendKeepalive (h : s.Accepting) : (sendKeepalive s).Accepting := by
  simp only [sendKeepalive]
  split
  · rw [pushPacket_accepting h]
    exact h
  · exact h

theorem accepting_progressRest (h : s.Accepting) : (progressRest s).Accepting := by
  have hf : s.flushed.Accepting := h
  simp only [progressRest, flushPending_accepting h]
  split
  · exact accepting_sendKeepalive hf
  · exact hf

theorem accepting_handleCborReturn (h : s.Accepting) (cid : ℕ) (n : Option ℕ) :
    (handleCborReturn cid n s).Accepting := by
  cases n with
  | none => exact accepting_queueError h _ _
  | some n => exact h

end Nixtropic.Ctaphid
