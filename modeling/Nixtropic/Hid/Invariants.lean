import Nixtropic.Hid.Frames

/-!
What the main loop and the progress points do, and the flags in every state
the framing reaches.
-/

namespace Nixtropic.Ctaphid

variable {s s' : State}

/-! ### The main loop -/

theorem emitResponsePacket_eq (s : State) :
    ∃ usb sent resp, (emitResponsePacket s).2 =
      { s with usb := usb, sent := sent, resp := resp } := by
  unfold emitResponsePacket
  cases s.resp.pending with
  | false => exact ⟨s.usb, s.sent, s.resp, rfl⟩
  | true =>
    cases h : (tudHidReady s).1 with
    | false => exact ⟨_, s.sent, s.resp, by simp only [h]; rfl⟩
    | true =>
      cases h' : (tudHidReport s.resp.next.1
        { (tudHidReady s).2 with resp := s.resp.next.2 }).1 with
      | false => exact ⟨_, _, _, by simp only [h, h']; rfl⟩
      | true => exact ⟨_, _, _, by simp only [h, h']; rfl⟩

theorem drainLoop_eq (fuel : ℕ) (s : State) :
    ∃ usb sent resp, drainLoop fuel s = { s with usb := usb, sent := sent, resp := resp } := by
  induction fuel generalizing s with
  | zero => exact ⟨s.usb, s.sent, s.resp, rfl⟩
  | succ fuel ih =>
    obtain ⟨usb, sent, resp, h⟩ := emitResponsePacket_eq s
    simp only [drainLoop]
    split
    · obtain ⟨usb', sent', resp', h'⟩ := ih (emitResponsePacket s).2
      exact ⟨usb', sent', resp', by rw [h', h]⟩
    · exact ⟨usb, sent, resp, h⟩

theorem sendAnswers_framed (s : State) : Framed s (sendAnswers s) := by
  have hf := (replied_flushPending s).toFramed
  simp only [sendAnswers]
  split
  · obtain ⟨usb, sent, resp, h⟩ := drainLoop_eq
      ((flushPending s).2.resp.total - (flushPending s).2.resp.sent + 2) (flushPending s).2
    rw [drain, h]
    exact hf.trans ⟨rfl, rfl, rfl, rfl, rfl, rfl, rfl, rfl⟩
  · exact hf

theorem sendAnswers_resync (ha : s.abandoned = true) (hr : readBe32 s.resync.pkt = s.busyCid) :
    (sendAnswers s).resync = s.resync := by
  have hf := (replied_flushPending s).resync ha hr
  simp only [sendAnswers]
  split
  · obtain ⟨usb, sent, resp, h⟩ := drainLoop_eq
      ((flushPending s).2.resp.total - (flushPending s).2.resp.sent + 2) (flushPending s).2
    rw [drain, h]
    exact hf
  · exact hf

/-- The state after a request is over. -/
structure Finished (s s' : State) : Prop where
  asm : s'.asm = emptyAssembly
  busyCid : s'.busyCid = 0
  running : s'.running = false
  abandoned : s'.abandoned = false
  inProgress : s'.inProgress = s.inProgress
  awaiting : s'.awaiting = s.awaiting
  seen : s'.seen = s.seen
  dispatched : s'.dispatched = s.dispatched

/-- The flags of a request that is over. -/
def State.ended (s : State) : State :=
  { resetAssembly { dropStaleAnswer { s with running := false } with cancel := false } with
    busyCid := 0, abandoned := false }

theorem finishRequest_eq (s : State) : finishRequest s = sendAnswers s.ended := rfl

theorem State.ended_eq (s : State) : ∃ resp, s.ended = { s with
    resp := resp, asm := emptyAssembly, running := false, cancel := false, busyCid := 0,
    abandoned := false } := by
  simp only [State.ended, dropStaleAnswer]
  split
  · exact ⟨_, rfl⟩
  · exact ⟨s.resp, rfl⟩

theorem finishRequest_finished (s : State) : Finished s (finishRequest s) := by
  obtain ⟨resp, h⟩ := s.ended_eq
  have hf := sendAnswers_framed s.ended
  rw [← finishRequest_eq, h] at hf
  exact ⟨hf.asm, hf.busyCid, hf.running, hf.abandoned, hf.inProgress, hf.awaiting, hf.seen,
    hf.dispatched⟩

/-- The request that is queued or runs. -/
def State.request (s : State) : Request :=
  ⟨s.busyCid, s.asm.reqCmd, s.asm.reqBuf, s.asm.reqReceived⟩

/-- The state when the handler of the queued request starts. -/
def State.started (s : State) : State := noteDispatch s.busyCid (beginRequest s)

/-- What `fido_hid_task` does: it sends what waits, it discards an abandoned
request, it runs a request to its end, or it starts a CBOR handler. -/
inductive Tasked (s : State) : State → Prop
  | waited (h : s.busyCid = 0 ∨ s.resp.pending = true) : Tasked s (sendAnswers s)
  | discarded (hb : s.busyCid ≠ 0) (hp : s.resp.pending = false) (ha : s.abandoned = true) :
      Tasked s (finishRequest (beginRequest s))
  | answered {cmd : UInt8} {payload : Packet} (hb : s.busyCid ≠ 0) (hp : s.resp.pending = false)
      (ha : s.abandoned = false) (hcmd : cmd ≠ cmdInitFlag ||| cmdInit) :
      Tasked s (finishRequest (queueResponse s.busyCid cmd payload s.started))
  | rejected (hb : s.busyCid ≠ 0) (hp : s.resp.pending = false) (ha : s.abandoned = false) :
      Tasked s (finishRequest (queueError s.busyCid errInvalidCmd s.started))
  | started (hb : s.busyCid ≠ 0) (hp : s.resp.pending = false) (ha : s.abandoned = false)
      (hcmd : s.asm.reqCmd = cmdCbor) : Tasked s s.started

theorem fidoHidTask_tasked (ht : Tidy s) : Tasked s (fidoHidTask s) := by
  unfold fidoHidTask
  split
  · next h =>
    obtain ⟨hb, hp⟩ := h
    have hp : s.resp.pending = false := by simpa using hp
    split
    · next ha => exact .discarded hb hp ha
    · next ha =>
      have ha : s.abandoned = false := by simpa using ha
      have hcmd : (beginRequest s).asm.reqCmd ≠ cmdInit := ht.cmd (.inl hb)
      simp only [dispatchRequest, if_neg hcmd]
      by_cases hping : (beginRequest s).asm.reqCmd = cmdPing
      · simp only [if_pos hping]
        exact .answered hb hp ha (by decide)
      · by_cases hmsg : (beginRequest s).asm.reqCmd = cmdMsg
        · simp only [if_neg hping, if_pos hmsg]
          exact .answered hb hp ha (by decide)
        · by_cases hcbor : (beginRequest s).asm.reqCmd = cmdCbor
          · simp only [if_neg hping, if_neg hmsg, if_pos hcbor]
            exact .started hb hp ha hcbor
          · simp only [if_neg hping, if_neg hmsg, if_neg hcbor]
            exact .rejected hb hp ha
  · next h =>
    refine .waited ?_
    by_cases hb : s.busyCid = 0
    · exact .inl hb
    · exact .inr (by simpa [hb] using h)

/-! ### The progress points and the end of the handler -/

theorem replied_sendKeepalive (s : State) : Replied s (sendKeepalive s) := by
  simp only [sendKeepalive]
  split
  · have hp := replied_push (buildPacket s.busyCid (cmdInitFlag ||| cmdKeepalive)
      [keepaliveStatus s]) s
    split
    · exact hp.trans ⟨⟨rfl, rfl, rfl, rfl, rfl, rfl, rfl, rfl⟩, fun _ => .inl rfl, fun _ _ => rfl⟩
    · exact hp
  · exact .refl s

/-- A progress point only answers. -/
theorem progressRest_eq (s : State) :
    ∃ s₁, Replied s s₁ ∧ progressRest s = { s₁ with inProgress := false } := by
  have hf := replied_flushPending s
  simp only [progressRest]
  split
  · exact ⟨_, hf.trans (replied_sendKeepalive _), rfl⟩
  · exact ⟨_, hf, rfl⟩

theorem handleCborReturn_framed (cid : ℕ) (n : Option ℕ) (s : State) :
    Framed s (handleCborReturn cid n s) := by
  cases n with
  | none => exact (replied_queueError _ _ _).toFramed
  | some n => exact ⟨rfl, rfl, rfl, rfl, rfl, rfl, rfl, rfl⟩

/-! ### The flags -/

theorem tidy_fidoHidInit : Tidy fidoHidInit where
  idle := fun _ => rfl
  not_broadcast := by decide
  cur := by rintro ⟨⟩
  cmd := by
    rintro (h | h)
    · exact absurd rfl h
    · cases h
  running := by rintro ⟨⟩
  inProgress := by rintro ⟨⟩
  abandoned := by rintro ⟨⟩

theorem Tidy.replied (ht : Tidy s) (h : Replied s s') : Tidy s' where
  idle := by
    rw [h.busyCid, h.asm]
    exact ht.idle
  not_broadcast := by
    rw [h.busyCid]
    exact ht.not_broadcast
  cur := by
    rw [h.asm]
    exact ht.cur
  cmd := by
    rw [h.busyCid, h.asm]
    exact ht.cmd
  running := by
    rw [h.running, h.busyCid]
    intro hr
    obtain ⟨hb, hp⟩ := ht.running hr
    refine ⟨hb, ?_⟩
    obtain h | h := h.resp hb
    · rw [h, hp]
    · rw [h]
  inProgress := by
    rw [h.running, h.inProgress]
    exact ht.inProgress
  abandoned := by
    rw [h.abandoned, h.busyCid]
    intro ha
    obtain ⟨hb, hp, hc⟩ := ht.abandoned ha
    rw [h.resync ha hc]
    exact ⟨hb, hp, hc⟩

theorem Tidy.reset (ht : Tidy s) : Tidy (resetAssembly s) where
  idle := fun _ => rfl
  not_broadcast := ht.not_broadcast
  cur := by rintro ⟨⟩
  cmd := fun _ => show (0 : UInt8) ≠ cmdInit by decide
  running := ht.running
  inProgress := ht.inProgress
  abandoned := ht.abandoned

/-- Outside a request the answers may go out. -/
theorem Tidy.sendAnswers (ht : Tidy s) (hr : s.running = false) : Tidy (sendAnswers s) where
  idle := by
    rw [(sendAnswers_framed s).busyCid, (sendAnswers_framed s).asm]
    exact ht.idle
  not_broadcast := by
    rw [(sendAnswers_framed s).busyCid]
    exact ht.not_broadcast
  cur := by
    rw [(sendAnswers_framed s).asm]
    exact ht.cur
  cmd := by
    rw [(sendAnswers_framed s).busyCid, (sendAnswers_framed s).asm]
    exact ht.cmd
  running := by
    rw [(sendAnswers_framed s).running, hr]
    rintro ⟨⟩
  inProgress := by
    rw [(sendAnswers_framed s).inProgress, (sendAnswers_framed s).running]
    exact ht.inProgress
  abandoned := by
    rw [(sendAnswers_framed s).abandoned, (sendAnswers_framed s).busyCid]
    intro ha
    obtain ⟨hb, hp, hc⟩ := ht.abandoned ha
    rw [sendAnswers_resync ha hc]
    exact ⟨hb, hp, hc⟩

theorem Tidy.finished (h : Finished s s') (hp : s.inProgress = false) : Tidy s' where
  idle := fun hb => absurd h.busyCid hb
  not_broadcast := by
    rw [h.busyCid]
    decide
  cur := by
    rw [h.asm]
    rintro ⟨⟩
  cmd := by
    rw [h.asm]
    exact fun _ => by decide
  running := by
    rw [h.running]
    rintro ⟨⟩
  inProgress := by
    rw [h.inProgress, hp]
    rintro ⟨⟩
  abandoned := by
    rw [h.abandoned]
    rintro ⟨⟩

/-- The assembly goes on, or its request is queued. -/
theorem Tidy.accept (ht : Tidy s) {cid : ℕ} {a : Assembly} (hb : s.busyCid = 0)
    (hc : cid ≠ 0 ∧ cid ≠ cidBroadcast) (ha : a.curCid = cid) (hcmd : a.reqCmd ≠ cmdInit) :
    Tidy (s.accept cid a) := by
  have hr : s.running = false := by
    by_contra hr
    exact (ht.running (by simpa using hr)).1 hb
  have hab : s.abandoned = false := by
    by_contra h
    exact (ht.abandoned (by simpa using h)).1 hb
  have hp : s.inProgress = false := by
    by_contra h
    rw [ht.inProgress (by simpa using h)] at hr
    cases hr
  unfold State.accept
  split
  · exact {
      idle := fun _ => rfl
      not_broadcast := hc.2
      cur := by rintro ⟨⟩
      cmd := fun _ => hcmd
      running := fun h => by rw [hr] at h; cases h
      inProgress := fun h => by rw [hp] at h; cases h
      abandoned := fun h => by rw [hab] at h; cases h }
  · exact {
      idle := fun h => absurd hb h
      not_broadcast := ht.not_broadcast
      cur := fun _ => ha ▸ hc
      cmd := fun _ => hcmd
      running := fun h => by rw [hr] at h; cases h
      inProgress := fun h => by rw [hp] at h; cases h
      abandoned := fun h => by rw [hab] at h; cases h }

theorem Tidy.effect {pkt : Packet} (ht : Tidy s) (h : Effect pkt s s') : Tidy s' := by
  cases h with
  | answered h => exact ht.replied h
  | reset _ h => exact ht.reset.replied h
  | resynced hb hsync h =>
    exact {
      idle := by
        rw [h.busyCid, h.asm]
        exact ht.idle
      not_broadcast := by
        rw [h.busyCid]
        exact ht.not_broadcast
      cur := by
        rw [h.asm]
        exact ht.cur
      cmd := by
        rw [h.busyCid, h.asm]
        exact ht.cmd
      running := by
        rw [h.running, h.busyCid, h.resp]
        exact ht.running
      inProgress := by
        rw [h.running, h.inProgress]
        exact ht.inProgress
      abandoned := by
        rw [h.busyCid]
        exact fun _ => ⟨hb, h.pending, h.pkt⟩ }
  | first hb hwait h =>
    exact ht.accept hb ⟨h.channel_ne, h.not_broadcast⟩ rfl h.not_init
  | next hb hst h =>
    exact ht.accept hb (ht.cur hst) rfl (ht.cmd (.inr hst))

theorem Tidy.see (ht : Tidy s) (pkt : Packet) : Tidy (s.see pkt) :=
  ⟨ht.1, ht.2, ht.3, ht.4, ht.5, ht.6, ht.7⟩

theorem Tidy.tasked (ht : Tidy s) (h : Tasked s s') (hr : s.running = false)
    (hp : s.inProgress = false) : Tidy s' := by
  cases h with
  | waited _ => exact ht.sendAnswers hr
  | discarded _ _ _ => exact .finished (finishRequest_finished _) hp
  | answered _ _ _ _ => exact .finished (finishRequest_finished _) hp
  | rejected _ _ _ =>
    have hf := (replied_queueError s.busyCid errInvalidCmd s.started).toFramed
    exact .finished (finishRequest_finished _) (hf.inProgress.trans hp)
  | started hb hpend ha hcmd =>
    exact ⟨ht.1, ht.2, ht.3, ht.4, fun _ => ⟨hb, hpend⟩, fun _ => rfl, ht.7⟩

theorem Tidy.step (ht : Tidy s) (a : Act) : Tidy (step s a) := by
  have hidle (h : ¬ (s.running || s.awaiting) = true) : s.inProgress = false := by
    by_contra hp
    simp [ht.inProgress (by simpa using hp)] at h
  cases a with
  | endpoint usb => exact ⟨ht.1, ht.2, ht.3, ht.4, ht.5, ht.6, ht.7⟩
  | clock now => exact ⟨ht.1, ht.2, ht.3, ht.4, ht.5, ht.6, ht.7⟩
  | wait on => exact ⟨ht.1, ht.2, ht.3, ht.4, ht.5, ht.6, ht.7⟩
  | packet pkt =>
    exact (ht.see pkt).effect (handlePacket_effect (ht.see pkt) pkt)
  | task =>
    simp only [Ctaphid.step]
    split
    · exact ht
    · next h =>
      have hp := hidle h
      have hr : s.running = false := by
        simp only [Bool.or_eq_true, not_or, Bool.not_eq_true] at h
        exact h.1
      exact ht.tasked (fidoHidTask_tasked ht) hr hp
  | progress =>
    simp only [Ctaphid.step]
    split
    · exact ht
    · next h =>
      have hr : s.running = true := by
        simp at h
        exact h.1
      exact ⟨ht.1, ht.2, ht.3, ht.4, ht.5, fun _ => hr, ht.7⟩
  | progressed =>
    simp only [Ctaphid.step]
    split
    · obtain ⟨s₁, h, heq⟩ := progressRest_eq s
      rw [heq]
      have ht' := ht.replied h
      exact ⟨ht'.1, ht'.2, ht'.3, ht'.4, ht'.5, by rintro ⟨⟩, ht'.7⟩
    · exact ht
  | scratch buf =>
    simp only [Ctaphid.step]
    split
    · exact ⟨ht.1, ht.2, ht.3, ht.4, ht.5, ht.6, ht.7⟩
    · exact ht
  | finish n =>
    simp only [Ctaphid.step]
    split
    · next h =>
      have hp : s.inProgress = false := by simpa using h.2.1
      exact .finished (finishRequest_finished _)
        ((handleCborReturn_framed _ _ _).inProgress.trans hp)
    · exact ht

theorem tidy_run (acts : List Act) : Tidy (system.run acts) :=
  Runs.System.run_keeps tidy_fidoHidInit (fun _ a h => h.step a) acts

end Nixtropic.Ctaphid
