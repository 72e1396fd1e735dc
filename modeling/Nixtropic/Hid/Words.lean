import Nixtropic.Hid.Sends

/-!
Channel numbers are 32-bit words in every state the framing reaches, and what
each action sends is of one kind as long as its answers are.
-/

namespace Nixtropic.Ctaphid

variable {s s' : State} {G : Packet → Prop}

theorem readBe32_writeBe32 {cid : ℕ} (hc : cid < 2 ^ 32) : readBe32 (writeBe32 cid) = cid := by
  have h (n : ℕ) : (UInt8.ofNat n).toNat = n % 256 := by simp
  simp only [readBe32, byteAt, writeBe32, be32, List.getD_cons_zero, List.getD_cons_succ, h]
  omega

theorem zero_word : 0 < 2 ^ 32 := by decide

/-- The channels are 32-bit words. -/
structure Words (s : State) : Prop where
  busyCid : s.busyCid < 2 ^ 32
  curCid : s.asm.curCid < 2 ^ 32
  resp : s.resp.cid < 2 ^ 32

theorem Words.framed (h : Words s) (hf : Framed s s') (hr : s'.resp.cid < 2 ^ 32) : Words s' :=
  ⟨hf.busyCid ▸ h.busyCid, hf.asm ▸ h.curCid, hr⟩

/-- The channel of the answer that is sent next. -/
theorem pushPacket_resp (pkt : Packet) (s : State) : (pushPacket pkt s).2.resp = s.resp := by
  obtain ⟨usb, sent, h⟩ := pushPacket_eq pkt s
  rw [h]

theorem flushPending_resp (s : State) : (flushPending s).2.resp = s.resp := by
  have hs : (flushShort s).resp = s.resp := by
    simp only [flushShort]
    split
    · split <;> exact pushPacket_resp _ _
    · rfl
  have hr (s : State) : (flushResync s).resp = s.resp := by
    simp only [flushResync]
    split
    · split <;> exact pushPacket_resp _ _
    · rfl
  exact (hr _).trans hs

theorem sendNow_resp (cid : ℕ) (cmd : UInt8) (payload : Packet) (s : State) :
    (sendNow cid cmd payload s).resp = s.resp := by
  have hk (pkt : Packet) (r : Bool × State) : (keepShort pkt r).resp = r.2.resp := by
    unfold keepShort
    split
    · rfl
    · split <;> rfl
  unfold sendNow
  split
  · rfl
  · dsimp only
    rw [hk]
    split
    · rw [pushPacket_resp, flushPending_resp]
    · exact flushPending_resp s

/-- An answer is queued on its own channel. -/
theorem replyShort_resp {cid : ℕ} (hc : cid < 2 ^ 32) (cmd : UInt8) (payload : Packet)
    (hs : s.resp.cid < 2 ^ 32) : (replyShort cid cmd payload s).resp.cid < 2 ^ 32 := by
  unfold replyShort
  split
  · exact hs
  · split
    · rwa [sendNow_resp]
    · exact hc

theorem sendKeepalive_resp (s : State) : (sendKeepalive s).resp = s.resp := by
  simp only [sendKeepalive]
  split
  · split <;> exact pushPacket_resp _ _
  · rfl

theorem progressRest_resp (s : State) : (progressRest s).resp = s.resp := by
  simp only [progressRest]
  split
  · exact (sendKeepalive_resp _).trans (flushPending_resp s)
  · exact flushPending_resp s

theorem drainLoop_cid (fuel : ℕ) (s : State) : (drainLoop fuel s).resp.cid = s.resp.cid := by
  induction fuel generalizing s with
  | zero => rfl
  | succ fuel ih =>
    simp only [drainLoop]
    obtain ⟨usb, h⟩ | ⟨-, usb, h⟩ := emitResponsePacket_cases s
    · rw [h]
      rfl
    · rw [h]
      exact ih _

theorem sendAnswers_cid (s : State) : (sendAnswers s).resp.cid = s.resp.cid := by
  simp only [sendAnswers]
  split
  · exact (drainLoop_cid _ _).trans (congrArg Response.cid (flushPending_resp s))
  · exact congrArg Response.cid (flushPending_resp s)

theorem finishRequest_cid (s : State) : (finishRequest s).resp.cid = s.resp.cid := by
  rw [finishRequest_eq, sendAnswers_cid]
  simp only [State.ended, dropStaleAnswer]
  split <;> rfl

theorem Words.finished (h : Words s) : Words (finishRequest s) := by
  have hf := finishRequest_finished s
  refine ⟨?_, ?_, ?_⟩
  · rw [hf.busyCid]
    decide
  · rw [hf.asm]
    decide
  · rw [finishRequest_cid]
    exact h.resp

theorem dropAnswer_cid (cid : ℕ) (s : State) : (dropAnswer cid s).resp.cid = s.resp.cid := by
  unfold dropAnswer
  split <;> rfl

theorem Words.handled {pkt : Packet} (h : Words s) (hh : Handled pkt s s') : Words s' := by
  cases hh with
  | silent _ => exact ⟨h.busyCid, h.curCid, h.resp⟩
  | refused hc _ _ =>
      exact h.framed (replied_queueError _ _ s).toFramed (replyShort_resp hc _ _ h.resp)
  | dropped _ => exact ⟨h.busyCid, zero_word, h.resp⟩
  | broken _ hc _ =>
    have h' : Words (resetAssembly s) := ⟨h.busyCid, zero_word, h.resp⟩
    exact h'.framed (replied_queueError _ _ _).toFramed (replyShort_resp hc _ _ h.resp)
  | @late cid err a _ hc _ =>
    have hf := replied_queueError cid err { s with asm := a }
    refine ⟨?_, zero_word, replyShort_resp hc _ _ h.resp⟩
    change (queueError cid err { s with asm := a }).busyCid < 2 ^ 32
    rw [hf.busyCid]
    exact h.busyCid
  | allocated _ _ =>
    exact h.framed ((replied_allocChannel s).trans (replied_replyShort _ _ _ _)).toFramed
      (replyShort_resp (by decide) _ _ h.resp)
  | @acked s₁ hc _ h₁ _ =>
    have h₁ : Words s₁ ∧ readBe32 pkt ≠ s₁.busyCid := by
      obtain ⟨rfl, -⟩ | ⟨rfl, -⟩ := h₁
      · exact ⟨h, hc⟩
      · exact ⟨⟨h.busyCid, zero_word, h.resp⟩, hc⟩
    obtain ⟨short, resync, hd⟩ := dropStaleInit_eq (readBe32 pkt) s₁
    refine h₁.1.framed (replied_acked h₁.2 _ _).toFramed (replyShort_resp (readBe32_lt pkt) _ _ ?_)
    rw [dropAnswer_cid, hd]
    exact h₁.1.resp
  | resynced _ _ =>
    obtain ⟨short, resync, hd⟩ := dropStaleInit_eq s.busyCid s
    rw [hd]
    exact ⟨h.busyCid, h.curCid, h.resp⟩
  | @first cid _ _ hf =>
    have hc : cid < 2 ^ 32 := hf.channel ▸ readBe32_lt pkt
    unfold State.accept
    split
    · exact ⟨hc, zero_word, h.resp⟩
    · exact ⟨h.busyCid, hc, h.resp⟩
  | next _ _ _ =>
    unfold State.accept
    split
    · exact ⟨h.curCid, zero_word, h.resp⟩
    · exact ⟨h.busyCid, h.curCid, h.resp⟩

theorem Words.step (ht : Tidy s) (h : Words s) (a : Act) : Words (step s a) := by
  cases a with
  | endpoint usb => exact ⟨h.busyCid, h.curCid, h.resp⟩
  | clock now => exact ⟨h.busyCid, h.curCid, h.resp⟩
  | wait on => exact ⟨h.busyCid, h.curCid, h.resp⟩
  | packet pkt =>
    have h' : Words (s.see pkt) := ⟨h.busyCid, h.curCid, h.resp⟩
    exact h'.handled (handlePacket_handled (ht.see pkt) pkt)
  | task =>
    simp only [Ctaphid.step]
    split
    · exact h
    · have hs := fidoHidTask_tasked ht
      generalize fidoHidTask s = s' at hs ⊢
      cases hs with
      | waited _ =>
        exact h.framed (sendAnswers_framed s) (by rw [sendAnswers_cid]; exact h.resp)
      | discarded _ _ _ => exact Words.finished ⟨h.busyCid, h.curCid, h.resp⟩
      | answered _ _ _ _ => exact Words.finished ⟨h.busyCid, h.curCid, h.busyCid⟩
      | rejected _ _ _ =>
        have hs : Words s.started := ⟨h.busyCid, h.curCid, h.resp⟩
        exact (hs.framed (replied_queueError _ _ _).toFramed
          (replyShort_resp h.busyCid _ _ h.resp)).finished
      | started _ _ _ _ => exact ⟨h.busyCid, h.curCid, h.resp⟩
  | progress =>
    simp only [Ctaphid.step]
    split
    · exact h
    · exact ⟨h.busyCid, h.curCid, h.resp⟩
  | progressed =>
    simp only [Ctaphid.step]
    split
    · have hresp := progressRest_resp s
      obtain ⟨s₁, hr, heq⟩ := progressRest_eq s
      have hf := hr.toFramed
      rw [heq] at hresp ⊢
      refine ⟨hf.busyCid ▸ h.busyCid, hf.asm ▸ h.curCid, ?_⟩
      rw [hresp]
      exact h.resp
    · exact h
  | scratch buf =>
    simp only [Ctaphid.step]
    split
    · exact ⟨h.busyCid, h.curCid, h.resp⟩
    · exact h
  | finish n =>
    simp only [Ctaphid.step]
    split
    · refine Words.finished (h.framed (handleCborReturn_framed _ _ _) ?_)
      cases n with
      | none => exact replyShort_resp h.busyCid _ _ h.resp
      | some n => exact h.busyCid
    · exact h

theorem words_run (acts : List Act) : Words (system.run acts) := by
  have h : Tidy (system.run acts) ∧ Words (system.run acts) :=
    Runs.System.run_keeps (I := fun s => Tidy s ∧ Words s)
      ⟨tidy_fidoHidInit, by decide, by decide, by decide⟩
      (fun _ a h => ⟨h.1.step a, h.2.step h.1 a⟩) acts
  exact h.2

end Nixtropic.Ctaphid
