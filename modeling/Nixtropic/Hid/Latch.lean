import Nixtropic.Hid.Invariants

/-!
What the framing does to the cancel latch. No answer touches it; a packet sets
it only if it is a CANCEL or an INIT on the channel of the running request; and
it is cleared where a request begins and where one ends.
-/

namespace Nixtropic.Ctaphid

variable {s s' s'' : State}

/-- A CANCEL on the channel. -/
structure IsCancel (cid : ℕ) (pkt : Packet) : Prop where
  length : reportLen ≤ pkt.length
  channel : readBe32 pkt = cid
  init : isInitPacket pkt = true
  command : cmdOf pkt = cmdCancel

/-- The packet ends the running request: a CANCEL on its channel, or an INIT
with its eight bytes. -/
def Stops (s : State) (pkt : Packet) : Prop :=
  s.running = true ∧ (IsCancel s.busyCid pkt ∨ IsSync s.busyCid pkt)

/-- The latch and what decides on it are the same. -/
structure SameLatch (s s' : State) : Prop where
  cancel : s'.cancel = s.cancel
  busyCid : s'.busyCid = s.busyCid
  running : s'.running = s.running

namespace SameLatch

theorem refl (s : State) : SameLatch s s := ⟨rfl, rfl, rfl⟩

theorem trans (h : SameLatch s s') (h' : SameLatch s' s'') : SameLatch s s'' where
  cancel := h'.cancel.trans h.cancel
  busyCid := h'.busyCid.trans h.busyCid
  running := h'.running.trans h.running

end SameLatch

/-! ### Answers -/

theorem sameLatch_push (pkt : Packet) (s : State) : SameLatch s (pushPacket pkt s).2 := by
  obtain ⟨usb, sent, h⟩ := pushPacket_eq pkt s
  rw [h]
  exact ⟨rfl, rfl, rfl⟩

theorem sameLatch_flushShort (s : State) : SameLatch s (flushShort s) := by
  have hp := sameLatch_push s.short.pkt s
  simp only [flushShort]
  split
  · split
    · exact hp.trans ⟨rfl, rfl, rfl⟩
    · exact hp
  · exact .refl s

theorem sameLatch_flushResync (s : State) : SameLatch s (flushResync s) := by
  have hp := sameLatch_push s.resync.pkt s
  simp only [flushResync]
  split
  · split
    · exact hp.trans ⟨rfl, rfl, rfl⟩
    · exact hp
  · exact .refl s

theorem sameLatch_flushPending (s : State) : SameLatch s (flushPending s).2 :=
  (sameLatch_flushShort s).trans (sameLatch_flushResync _)

theorem sameLatch_sendNow (cid : ℕ) (cmd : UInt8) (payload : Packet) (s : State) :
    SameLatch s (sendNow cid cmd payload s) := by
  have hf := sameLatch_flushPending s
  have hp := hf.trans (sameLatch_push (buildPacket cid cmd payload) (flushPending s).2)
  have hkeep : ∀ r : Bool × State, SameLatch s r.2 →
      SameLatch s (keepShort (buildPacket cid cmd payload) r) := by
    intro r hr
    unfold keepShort
    split
    · exact hr
    · split
      · exact hr
      · exact hr.trans ⟨rfl, rfl, rfl⟩
  unfold sendNow
  split
  · exact .refl s
  · apply hkeep
    split
    · exact hp
    · exact hf

theorem sameLatch_replyShort (cid : ℕ) (cmd : UInt8) (payload : Packet) (s : State) :
    SameLatch s (replyShort cid cmd payload s) := by
  unfold replyShort
  split
  · exact .refl s
  · split
    · exact sameLatch_sendNow cid cmd payload s
    · exact ⟨rfl, rfl, rfl⟩

theorem sameLatch_queueError (cid : ℕ) (err : UInt8) (s : State) :
    SameLatch s (queueError cid err s) := sameLatch_replyShort cid _ _ s

theorem sameLatch_syncAssembly (cid : ℕ) (s : State) : SameLatch s (syncAssembly cid s) := by
  unfold syncAssembly
  split <;> exact ⟨rfl, rfl, rfl⟩

theorem sameLatch_dropStaleInit (cid : ℕ) (s : State) : SameLatch s (dropStaleInit cid s) := by
  obtain ⟨short, resync, h⟩ := dropStaleInit_eq cid s
  rw [h]
  exact ⟨rfl, rfl, rfl⟩

theorem sameLatch_dropAnswer (cid : ℕ) (s : State) : SameLatch s (dropAnswer cid s) := by
  unfold dropAnswer
  split <;> exact ⟨rfl, rfl, rfl⟩

theorem sameLatch_sendAnswers (s : State) : SameLatch s (sendAnswers s) := by
  have hf := sameLatch_flushPending s
  simp only [sendAnswers]
  split
  · obtain ⟨usb, sent, resp, h⟩ := drainLoop_eq
      ((flushPending s).2.resp.total - (flushPending s).2.resp.sent + 2) (flushPending s).2
    rw [drain, h]
    exact hf.trans ⟨rfl, rfl, rfl⟩
  · exact hf

theorem sameLatch_progressRest (s : State) : SameLatch s (progressRest s) := by
  have hf := sameLatch_flushPending s
  have hk : SameLatch s (sendKeepalive (flushPending s).2) := by
    simp only [sendKeepalive]
    split
    · have hp := sameLatch_push (buildPacket (flushPending s).2.busyCid
        (cmdInitFlag ||| cmdKeepalive) [keepaliveStatus (flushPending s).2]) (flushPending s).2
      split
      · exact hf.trans (hp.trans ⟨rfl, rfl, rfl⟩)
      · exact hf.trans hp
    · exact hf
  simp only [progressRest]
  split
  · exact hk.trans ⟨rfl, rfl, rfl⟩
  · exact hf.trans ⟨rfl, rfl, rfl⟩

/-! ### Packets -/

section Packets

variable {pkt : Packet}

/-- An INIT for another channel, or for a request that does not run. -/
theorem cancel_handleInit {cid : ℕ} {payload : Packet}
    (h : payload.length = 8 → cid = s.busyCid → s.running = false) :
    (handleInit cid payload s).cancel = s.cancel := by
  unfold handleInit
  split
  · exact (sameLatch_queueError _ _ _).cancel
  · rename_i h8
    split
    · dsimp only
      rw [(sameLatch_replyShort _ _ _ _).cancel]
      rfl
    · have hd := (sameLatch_syncAssembly cid s).trans (sameLatch_dropStaleInit cid _)
      dsimp only
      split
      · rename_i hbusy
        -- the request of the channel is abandoned, but it does not run
        simp only [abandon]
        rw [hd.running, h (not_not.mp h8) (hbusy.trans hd.busyCid), Bool.or_false]
        exact hd.cancel
      · exact (hd.trans ((sameLatch_dropAnswer _ _).trans (sameLatch_replyShort _ _ _ _))).cancel

/-- An INIT that does not stop the running request. -/
theorem cancel_initCommand (hlen : reportLen ≤ pkt.length) (hinit : isInitPacket pkt = true)
    (hcmd : cmdOf pkt = cmdInit) (h : ¬Stops s pkt) :
    (handleInitCommand (readBe32 pkt) pkt s).cancel = s.cancel := by
  have hs := sameLatch_syncAssembly (readBe32 pkt) s
  unfold handleInitCommand
  split
  · exact (sameLatch_queueError _ _ s).cancel
  · rename_i hbound
    rw [cancel_handleInit, hs.cancel]
    intro h8 hbusy
    have hbcnt : bcntOf pkt = 8 := by
      simp only [reportLen, initDataLen, List.length_take, List.length_drop] at hlen hbound h8
      omega
    rw [hs.running]
    cases hr : s.running with
    | false => rfl
    | true => exact absurd ⟨hr, .inr ⟨hlen, hbusy.trans hs.busyCid, hinit, hcmd, hbcnt⟩⟩ h

theorem cancel_requestPacket (cid : ℕ) (pkt : Packet) (s : State) :
    (handleRequestPacket cid pkt s).cancel = s.cancel := by
  have hcomplete : ∀ s₁ : State, (completeRequest cid s₁).cancel = s₁.cancel := by
    intro s₁
    simp only [completeRequest]
    split
    · exact (sameLatch_queueError _ _ _).cancel
    · split
      · exact (sameLatch_queueError _ _ _).cancel
      · rfl
  unfold handleRequestPacket
  split
  · exact (sameLatch_queueError _ _ s).cancel
  · split
    · exact (sameLatch_queueError _ _ s).cancel
    · split
      · exact (sameLatch_queueError _ _ (resetAssembly s)).cancel
      · dsimp only
        split
        · exact hcomplete _
        · rfl

theorem cancel_contPacket (cid : ℕ) (pkt : Packet) (s : State) :
    (handleContPacket cid pkt s).cancel = s.cancel := by
  unfold handleContPacket
  split
  · rfl
  · split
    · exact (sameLatch_queueError _ _ (resetAssembly s)).cancel
    · dsimp only
      split
      · simp only [completeRequest]
        split
        · exact (sameLatch_queueError _ _ _).cancel
        · split
          · exact (sameLatch_queueError _ _ _).cancel
          · rfl
      · rfl

/-- A packet that does not stop the running request leaves the latch alone. -/
theorem cancel_of_not_stops (h : ¬Stops s pkt) : (handlePacket pkt s).cancel = s.cancel := by
  unfold handlePacket
  split
  · rfl
  · rename_i hlen
    split
    · exact (sameLatch_queueError _ _ s).cancel
    · split
      · rename_i hinit
        unfold handleInitPacket
        split
        · exact (sameLatch_queueError _ _ s).cancel
        · split
          · rename_i hcmd
            exact cancel_initCommand (by omega) hinit hcmd h
          · split
            · rename_i hcancel
              have hnot : ¬(readBe32 pkt = s.busyCid ∧ s.running = true) := by
                rintro ⟨hc, hr⟩
                exact h ⟨hr, .inl ⟨by omega, hc, hinit, hcancel⟩⟩
              rw [handleCancel, if_neg hnot]
              exact (sameLatch_syncAssembly _ s).cancel
            · exact cancel_requestPacket _ pkt s
      · exact cancel_contPacket _ pkt s

/-- A packet that stops the running request sets the latch. -/
theorem cancel_of_stops (ht : Tidy s) (h : Stops s pkt) : (handlePacket pkt s).cancel = true := by
  obtain ⟨hr, h⟩ := h
  have h0 : s.busyCid ≠ 0 := (ht.running hr).1
  rcases h with ⟨hlen, hc, hinit, hcmd⟩ | hsync
  · have hbc : ¬(readBe32 pkt = cidBroadcast ∧ cmdOf pkt ≠ cmdInit) :=
      fun hbc => ht.not_broadcast (hc ▸ hbc.1)
    have hne : cmdOf pkt ≠ cmdInit := by
      rw [hcmd]
      decide
    rw [handlePacket, if_neg (by omega), if_neg (hc ▸ h0), if_pos hinit, handleInitPacket,
      if_neg hbc, if_neg hne, if_pos hcmd, handleCancel, if_pos ⟨hc, hr⟩]
    exact (sameLatch_syncAssembly _ _).cancel
  · have hc := hsync.channel
    have hsync' : IsSync (readBe32 pkt) pkt := by
      rw [hc]
      exact hsync
    rw [handlePacket_sync hsync' (hc ▸ h0) (hc ▸ ht.not_broadcast), if_pos hc]
    have hd := (sameLatch_syncAssembly (readBe32 pkt) s).trans
      (sameLatch_dropStaleInit (readBe32 pkt) _)
    simp only [abandon]
    rw [hd.running, hr, Bool.or_true]

/-- What no packet changes. -/
theorem Effect.flags (h : Effect pkt s s') : s'.running = s.running ∧ s'.awaiting = s.awaiting ∧
    s'.inProgress = s.inProgress ∧ s'.dispatched = s.dispatched := by
  have hacc : ∀ (cid : ℕ) (a : Assembly), (s.accept cid a).running = s.running ∧
      (s.accept cid a).awaiting = s.awaiting ∧ (s.accept cid a).inProgress = s.inProgress ∧
      (s.accept cid a).dispatched = s.dispatched := by
    intro cid a
    unfold State.accept
    split <;> exact ⟨rfl, rfl, rfl, rfl⟩
  cases h with
  | answered hf _ => exact ⟨hf.running, hf.awaiting, hf.inProgress, hf.dispatched⟩
  | reset _ hf => exact ⟨hf.running, hf.awaiting, hf.inProgress, hf.dispatched⟩
  | resynced _ _ hf => exact ⟨hf.running, hf.awaiting, hf.inProgress, hf.dispatched⟩
  | first _ _ _ => exact hacc _ _
  | next _ _ _ => exact hacc _ _

end Packets

/-! ### The main loop -/

/-- A request that is over has no latch. -/
theorem finishRequest_cancel (s : State) : (finishRequest s).cancel = false := by
  obtain ⟨resp, h⟩ := s.ended_eq
  rw [finishRequest_eq, (sameLatch_sendAnswers s.ended).cancel, h]

/-- The main loop keeps the latch, or clears it. -/
theorem Tasked.cancel (h : Tasked s s') :
    s'.cancel = s.cancel ∧ s'.running = s.running ∨ s'.cancel = false := by
  cases h with
  | waited _ => exact .inl ⟨(sameLatch_sendAnswers s).cancel, (sameLatch_sendAnswers s).running⟩
  | discarded _ _ _ => exact .inr (finishRequest_cancel _)
  | answered _ _ _ _ => exact .inr (finishRequest_cancel _)
  | rejected _ _ _ => exact .inr (finishRequest_cancel _)
  | started _ _ _ _ => exact .inr rfl

/-- What the framing may do in a touch wait: the flags stay, and only a packet
that stops the running request moves the latch. -/
structure Calm (a : Act) (s s' : State) : Prop where
  running : s'.running = s.running
  awaiting : s'.awaiting = s.awaiting
  dispatched : s'.dispatched = s.dispatched
  cancel : s'.cancel = s.cancel ∨ s'.cancel = true ∧ ∃ pkt, a = .packet pkt ∧ Stops s pkt

theorem calm_packet (ht : Tidy s) (pkt : Packet) :
    Calm (.packet pkt) s (step s (.packet pkt)) := by
  obtain ⟨hr, hw, -, hd⟩ := (handlePacket_effect (ht.see pkt) pkt).flags
  refine ⟨hr, hw, hd, ?_⟩
  by_cases h : Stops s pkt
  · exact .inr ⟨cancel_of_stops (ht.see pkt) h, pkt, rfl, h⟩
  · exact .inl (cancel_of_not_stops (s := s.see pkt) h)

theorem calm_progress (s : State) : Calm .progress s (step s .progress) := by
  simp only [step]
  split <;> exact ⟨rfl, rfl, rfl, .inl rfl⟩

theorem calm_progressed (s : State) : Calm .progressed s (step s .progressed) := by
  simp only [step]
  split
  · obtain ⟨s₁, hf, heq⟩ := progressRest_eq s
    refine ⟨?_, ?_, ?_, .inl (sameLatch_progressRest s).cancel⟩
    · rw [heq]
      exact hf.running
    · rw [heq]
      exact hf.awaiting
    · rw [heq]
      exact hf.dispatched
  · exact ⟨rfl, rfl, rfl, .inl rfl⟩

theorem calm_scratch (s : State) (buf : Packet) :
    Calm (.scratch buf) s (step s (.scratch buf)) := by
  simp only [step]
  split <;> exact ⟨rfl, rfl, rfl, .inl rfl⟩

/-- What the framing does where a request begins or ends: the latch stays, the
request being the same one, or it is clear. -/
structure Turned (s s' : State) : Prop where
  awaiting : s'.awaiting = s.awaiting
  latch : s'.cancel = s.cancel ∧ s'.running = s.running ∧ s'.dispatched = s.dispatched ∨
    s'.cancel = false ∧ (s'.running = true →
      s.running = false ∧ s'.dispatched = s.request :: s.dispatched)

theorem Turned.refl (s : State) : Turned s s := ⟨rfl, .inl ⟨rfl, rfl, rfl⟩⟩

theorem turned_finish {s₀ : State} (hw : s₀.awaiting = s.awaiting) :
    Turned s (finishRequest s₀) := by
  have hf := finishRequest_finished s₀
  refine ⟨hf.awaiting.trans hw, .inr ⟨finishRequest_cancel s₀, fun hr => ?_⟩⟩
  rw [hf.running] at hr
  cases hr

theorem turned_task (ht : Tidy s) : Turned s (step s .task) := by
  simp only [step]
  split
  · exact .refl s
  · rename_i hgo
    have hidle : s.running = false := by
      cases hr : s.running with
      | false => rfl
      | true => simp [hr] at hgo
    have htask := fidoHidTask_tasked ht
    generalize fidoHidTask s = s' at htask ⊢
    cases htask with
    | waited _ =>
        have hf := sendAnswers_framed s
        exact ⟨hf.awaiting, .inl ⟨(sameLatch_sendAnswers s).cancel, hf.running, hf.dispatched⟩⟩
    | discarded _ _ _ => exact turned_finish rfl
    | answered _ _ _ _ => exact turned_finish rfl
    | rejected _ _ _ => exact turned_finish (replied_queueError _ _ _).awaiting
    | started _ _ _ _ => exact ⟨rfl, .inr ⟨rfl, fun _ => ⟨hidle, rfl⟩⟩⟩

theorem turned_handlerReturn (s : State) (n : Option ℕ) : Turned s (step s (.finish n)) := by
  simp only [step]
  split
  · exact turned_finish (handleCborReturn_framed _ _ _).awaiting
  · exact .refl s

end Nixtropic.Ctaphid
