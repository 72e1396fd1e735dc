import Nixtropic.Hid.Ctaphid

/-!
What one packet can do to the framing. `Handled` lists it once, with the answer
that is given; `Effect` is what that means for the requests: the packet is only
answered, it resets an assembly, it abandons the queued or running request, or
it becomes part of a request. The invariants of the framing are derived from
these lists.
-/

namespace Nixtropic.Ctaphid

variable {s s' s'' : State}

/-- What no answer changes. -/
structure Framed (s s' : State) : Prop where
  asm : s'.asm = s.asm
  busyCid : s'.busyCid = s.busyCid
  running : s'.running = s.running
  inProgress : s'.inProgress = s.inProgress
  awaiting : s'.awaiting = s.awaiting
  abandoned : s'.abandoned = s.abandoned
  seen : s'.seen = s.seen
  dispatched : s'.dispatched = s.dispatched

namespace Framed

theorem refl (s : State) : Framed s s := ⟨rfl, rfl, rfl, rfl, rfl, rfl, rfl, rfl⟩

theorem trans (h : Framed s s') (h' : Framed s' s'') : Framed s s'' where
  asm := h'.asm.trans h.asm
  busyCid := h'.busyCid.trans h.busyCid
  running := h'.running.trans h.running
  inProgress := h'.inProgress.trans h.inProgress
  awaiting := h'.awaiting.trans h.awaiting
  abandoned := h'.abandoned.trans h.abandoned
  seen := h'.seen.trans h.seen
  dispatched := h'.dispatched.trans h.dispatched

end Framed

/-- An answer given while packets are handled: the response buffer belongs to
a queued or running request, and the answer held for an abandoned request
stays. -/
structure Replied (s s' : State) : Prop extends Framed s s' where
  resp : s.busyCid ≠ 0 → s'.resp = s.resp ∨ s'.resp = { s.resp with pending := false }
  resync : s.abandoned = true → readBe32 s.resync.pkt = s.busyCid → s'.resync = s.resync

namespace Replied

theorem refl (s : State) : Replied s s where
  toFramed := .refl s
  resp := fun _ => .inl rfl
  resync := fun _ _ => rfl

theorem trans (h : Replied s s') (h' : Replied s' s'') : Replied s s'' where
  toFramed := h.toFramed.trans h'.toFramed
  resp := by
    intro hb
    have h₁ := h.resp hb
    have h₂ := h'.resp (h.busyCid ▸ hb)
    rcases h₁ with h₁ | h₁ <;> rcases h₂ with h₂ | h₂ <;> rw [h₂, h₁] <;> simp
  resync := by
    intro ha hr
    have h₁ := h.resync ha hr
    rw [h'.resync (h.abandoned ▸ ha) (by rw [h₁, h.busyCid, hr]), h₁]

end Replied

/-! ### Answers -/

theorem pushPacket_eq (pkt : Packet) (s : State) :
    ∃ usb sent, (pushPacket pkt s).2 = { s with usb := usb, sent := sent } := by
  cases h : s.usb 0 with
  | false => exact ⟨_, s.sent, by simp only [pushPacket, tudHidReady, h]; rfl⟩
  | true => exact ⟨_, _, by simp only [pushPacket, tudHidReady, h]; rfl⟩

theorem replied_push (pkt : Packet) (s : State) : Replied s (pushPacket pkt s).2 := by
  obtain ⟨usb, sent, h⟩ := pushPacket_eq pkt s
  rw [h]
  exact ⟨⟨rfl, rfl, rfl, rfl, rfl, rfl, rfl, rfl⟩, fun _ => .inl rfl, fun _ _ => rfl⟩

/-- The short slot is no part of the frame. -/
theorem replied_setShort (short : Slot) (s : State) : Replied s { s with short := short } :=
  ⟨⟨rfl, rfl, rfl, rfl, rfl, rfl, rfl, rfl⟩, fun _ => .inl rfl, fun _ _ => rfl⟩

theorem replied_flushShort (s : State) : Replied s (flushShort s) := by
  have hp := replied_push s.short.pkt s
  simp only [flushShort]
  split
  · split
    · exact hp.trans (replied_setShort _ _)
    · exact hp
  · exact .refl s

/-- Outside an abandoned request the resync slot is free. -/
theorem replied_setResync (resync : Slot) {s : State} (h : s.abandoned = false) :
    Replied s { s with resync := resync } :=
  ⟨⟨rfl, rfl, rfl, rfl, rfl, rfl, rfl, rfl⟩, fun _ => .inl rfl, fun ha => by simp [h] at ha⟩

theorem replied_flushResync (s : State) : Replied s (flushResync s) := by
  have hp := replied_push s.resync.pkt s
  simp only [flushResync]
  split
  · next hc =>
    have ha : s.abandoned = false := by
      simp only [Bool.and_eq_true, Bool.not_eq_true'] at hc
      exact hc.2
    split
    · exact hp.trans (replied_setResync _ (hp.abandoned.trans ha))
    · exact hp
  · exact .refl s

theorem replied_flushPending (s : State) : Replied s (flushPending s).2 :=
  (replied_flushShort s).trans (replied_flushResync _)

theorem replied_keepShort (pkt : Packet) {r : Bool × State} (h : Replied s r.2) :
    Replied s (keepShort pkt r) := by
  unfold keepShort
  split
  · exact h
  · split
    · exact h
    · exact h.trans (replied_setShort _ _)

theorem replied_sendNow (cid : ℕ) (cmd : UInt8) (payload : Packet) (s : State) :
    Replied s (sendNow cid cmd payload s) := by
  have hf := replied_flushPending s
  have hp := hf.trans (replied_push (buildPacket cid cmd payload) (flushPending s).2)
  unfold sendNow
  split
  · exact .refl s
  · apply replied_keepShort
    split
    · exact hp
    · exact hf

theorem replied_replyShort (cid : ℕ) (cmd : UInt8) (payload : Packet) (s : State) :
    Replied s (replyShort cid cmd payload s) := by
  unfold replyShort
  split
  · exact .refl s
  · split
    · exact replied_sendNow cid cmd payload s
    · next h =>
      push Not at h
      exact ⟨⟨rfl, rfl, rfl, rfl, rfl, rfl, rfl, rfl⟩, fun hb => absurd h.1 hb, fun _ _ => rfl⟩

theorem replied_queueError (cid : ℕ) (err : UInt8) (s : State) :
    Replied s (queueError cid err s) :=
  replied_replyShort cid _ _ s

theorem replied_dropAnswer (cid : ℕ) (s : State) : Replied s (dropAnswer cid s) := by
  unfold dropAnswer
  split
  · exact ⟨⟨rfl, rfl, rfl, rfl, rfl, rfl, rfl, rfl⟩, fun _ => .inr rfl, fun _ _ => rfl⟩
  · exact .refl s

theorem replied_allocChannel (s : State) : Replied s (allocChannel s).2 :=
  ⟨⟨rfl, rfl, rfl, rfl, rfl, rfl, rfl, rfl⟩, fun _ => .inl rfl, fun _ _ => rfl⟩

theorem replied_dropStaleShort (cid : ℕ) (s : State) : Replied s (dropStaleShort cid s) := by
  unfold dropStaleShort
  split
  · exact replied_setShort _ _
  · exact .refl s

/-- The answers held for another channel stay. -/
theorem replied_dropStaleInit {cid : ℕ} {s : State} (hc : cid ≠ s.busyCid) :
    Replied s (dropStaleInit cid s) := by
  have hr : Replied s (dropStaleResync cid s) := by
    unfold dropStaleResync
    split
    · next h =>
      exact ⟨⟨rfl, rfl, rfl, rfl, rfl, rfl, rfl, rfl⟩, fun _ => .inl rfl,
        fun _ hb => absurd (h.2.symm.trans hb) hc⟩
    · exact .refl s
  exact hr.trans (replied_dropStaleShort cid _)

/-! ### Packets -/

/-- The words of a packet's channel. -/
theorem readBe32_lt (p : Packet) : readBe32 p < 2 ^ 32 := by
  have h (i : ℕ) : byteAt p i < 256 := (p.getD i 0).toNat_lt
  have h₀ := h 0
  have h₁ := h 1
  have h₂ := h 2
  have h₃ := h 3
  unfold readBe32
  omega

theorem readBe32_buildPacket {cid : ℕ} (hc : cid < 2 ^ 32) (cmd : UInt8) (payload : Packet) :
    readBe32 (buildPacket cid cmd payload) = cid := by
  have h (n : ℕ) : (UInt8.ofNat n).toNat = n % 256 := by simp
  simp only [readBe32, byteAt, buildPacket, writeBe32, be32, List.cons_append, List.nil_append,
    List.getD_cons_zero, List.getD_cons_succ, h]
  omega

/-- A packet that leaves the assembly of a channel as it is: one of another
channel, a refused INIT, or a first packet refused in a touch wait. -/
def Passed (cid : ℕ) (x : Seen) : Prop :=
  x.pkt.length < reportLen ∨ readBe32 x.pkt ≠ cid ∨
    (isInitPacket x.pkt ∧ cmdOf x.pkt = cmdInit ∧ initDataLen < bcntOf x.pkt) ∨
    (isInitPacket x.pkt ∧ cmdOf x.pkt ≠ cmdInit ∧ cmdOf x.pkt ≠ cmdCancel ∧ x.awaiting = true)

/-- An INIT on the channel. -/
structure IsSync (cid : ℕ) (pkt : Packet) : Prop where
  length : reportLen ≤ pkt.length
  channel : readBe32 pkt = cid
  init : isInitPacket pkt = true
  command : cmdOf pkt = cmdInit
  bcnt : bcntOf pkt = 8

/-- The first packet of a request. -/
structure IsFirst (cid : ℕ) (cmd : UInt8) (len : ℕ) (pkt : Packet) : Prop where
  length : reportLen ≤ pkt.length
  channel : readBe32 pkt = cid
  channel_ne : cid ≠ 0
  not_broadcast : cid ≠ cidBroadcast
  init : isInitPacket pkt = true
  command : cmdOf pkt = cmd
  not_init : cmd ≠ cmdInit
  not_cancel : cmd ≠ cmdCancel
  bcnt : bcntOf pkt = len
  fits : len ≤ maxPayload

/-- A CONT packet with the sequence number. -/
structure IsCont (cid : ℕ) (seq : UInt8) (pkt : Packet) : Prop where
  length : reportLen ≤ pkt.length
  channel : readBe32 pkt = cid
  cont : isInitPacket pkt = false
  number : cmdOf pkt = seq

/-- The request of the assembly is queued once it is whole. -/
def State.accept (s : State) (cid : ℕ) (a : Assembly) : State :=
  if a.reqTotal ≤ a.reqReceived then
    { s with asm := { a with state := .idle, curCid := 0 }, busyCid := cid }
  else { s with asm := { a with state := .assembling } }

/-- An error that does not tell how a request ended. -/
def TransportErr (err : UInt8) : Prop := err ≠ errInvalidCmd ∧ err ≠ errOther
  deriving Decidable

/-- The nonce of an INIT. -/
def nonceOf (pkt : Packet) : Packet := (pkt.drop 7).take 8

/-- The answer to an INIT on a channel. -/
def syncAnswer (pkt : Packet) : Packet := initAnswer (nonceOf pkt) (readBe32 pkt)

/-- What a packet does, and the answer it gets. -/
inductive Handled (pkt : Packet) (s : State) : State → Prop
  | silent {c : Bool}
      (hpass : s.asm.state = .assembling → Passed s.asm.curCid ⟨pkt, s.awaiting⟩) :
      Handled pkt s { s with cancel := c }
  | refused {cid : ℕ} {err : UInt8} (hc : cid < 2 ^ 32) (herr : TransportErr err)
      (hpass : s.asm.state = .assembling → Passed s.asm.curCid ⟨pkt, s.awaiting⟩) :
      Handled pkt s (queueError cid err s)
  | dropped {c : Bool} (hb : s.busyCid = 0) : Handled pkt s (resetAssembly { s with cancel := c })
  | broken {cid : ℕ} {err : UInt8} (hb : s.busyCid = 0) (hc : cid < 2 ^ 32)
      (herr : TransportErr err) :
      Handled pkt s (queueError cid err (resetAssembly s))
  | late {cid : ℕ} {err : UInt8} {a : Assembly} (hb : s.busyCid = 0) (hc : cid < 2 ^ 32)
      (herr : TransportErr err) :
      Handled pkt s (resetAssembly (queueError cid err { s with asm := a }))
  | allocated {cid : ℕ} (hbc : readBe32 pkt = cidBroadcast)
      (hpass : s.asm.state = .assembling → Passed s.asm.curCid ⟨pkt, s.awaiting⟩) :
      Handled pkt s (replyShort cidBroadcast (cmdInitFlag ||| cmdInit)
        (initAnswer (nonceOf pkt) cid) (allocChannel s).2)
  | acked {s₁ : State} (hc : readBe32 pkt ≠ s.busyCid) (hbc : readBe32 pkt ≠ cidBroadcast)
      (h₁ : s₁ = s ∧ (s.asm.state = .assembling → Passed s.asm.curCid ⟨pkt, s.awaiting⟩) ∨
        s₁ = resetAssembly s ∧ s.busyCid = 0)
      (hsync : IsSync (readBe32 pkt) pkt) :
      Handled pkt s (replyShort (readBe32 pkt) (cmdInitFlag ||| cmdInit) (syncAnswer pkt)
        (dropAnswer (readBe32 pkt) (dropStaleInit (readBe32 pkt) s₁)))
  | resynced (hb : s.busyCid ≠ 0) (hsync : IsSync s.busyCid pkt) :
      Handled pkt s (abandon s.busyCid (syncAnswer pkt) (dropStaleInit s.busyCid s))
  | first {cid : ℕ} (hb : s.busyCid = 0) (hwait : s.awaiting = false)
      (h : IsFirst cid (cmdOf pkt) (bcntOf pkt) pkt) :
      Handled pkt s (s.accept cid (startAssembly s.asm cid pkt))
  | next (hb : s.busyCid = 0) (hst : s.asm.state = .assembling)
      (h : IsCont s.asm.curCid s.asm.nextSeq pkt) :
      Handled pkt s (s.accept s.asm.curCid (s.asm.append pkt))

/-- The flags agree: no assembly while a request is queued or runs, no answer
waits while one runs, and the answer to a resync is held as long as its request
is abandoned. -/
structure Tidy (s : State) : Prop where
  idle : s.busyCid ≠ 0 → s.asm.state = .idle
  not_broadcast : s.busyCid ≠ cidBroadcast
  cur : s.asm.state = .assembling → s.asm.curCid ≠ 0 ∧ s.asm.curCid ≠ cidBroadcast
  cmd : s.busyCid ≠ 0 ∨ s.asm.state = .assembling → s.asm.reqCmd ≠ cmdInit
  running : s.running = true → s.busyCid ≠ 0 ∧ s.resp.pending = false
  inProgress : s.inProgress = true → s.running = true
  abandoned : s.abandoned = true →
    s.busyCid ≠ 0 ∧ s.resync.pending = true ∧ readBe32 s.resync.pkt = s.busyCid

theorem syncAssembly_cases (cid : ℕ) (s : State) :
    (s.asm.state = .assembling ∧ cid = s.asm.curCid ∧ syncAssembly cid s = resetAssembly s) ∨
      ((s.asm.state = .assembling → cid ≠ s.asm.curCid) ∧ syncAssembly cid s = s) := by
  unfold syncAssembly
  split
  · next h => exact .inl ⟨h.1, h.2, rfl⟩
  · next h => exact .inr ⟨fun hs hc => h ⟨hs, hc⟩, rfl⟩

theorem syncAssembly_of_idle {cid : ℕ} (h : s.asm.state = .idle) : syncAssembly cid s = s := by
  unfold syncAssembly
  rw [h, if_neg (by simp)]

theorem dropStaleInit_eq (cid : ℕ) (s : State) :
    ∃ short resync, dropStaleInit cid s = { s with short := short, resync := resync } := by
  have h : ∃ resync, dropStaleResync cid s = { s with resync := resync } := by
    unfold dropStaleResync
    split
    · exact ⟨_, rfl⟩
    · exact ⟨s.resync, rfl⟩
  obtain ⟨resync, h⟩ := h
  rw [dropStaleInit, h, dropStaleShort]
  split
  · exact ⟨_, _, rfl⟩
  · exact ⟨_, _, rfl⟩

section Packets

variable {pkt : Packet} (ht : Tidy s)

theorem handleInit_of_sync {cid : ℕ} {payload : Packet} (h8 : payload.length = 8)
    (hbc : cid ≠ cidBroadcast) (hsync : syncAssembly cid s = s) :
    handleInit cid payload s =
      if cid = s.busyCid then abandon cid (initAnswer payload cid) (dropStaleInit cid s)
      else replyShort cid (cmdInitFlag ||| cmdInit) (initAnswer payload cid)
        (dropAnswer cid (dropStaleInit cid s)) := by
  obtain ⟨short, resync, h⟩ := dropStaleInit_eq cid s
  have hbusy : (dropStaleInit cid s).busyCid = s.busyCid := by rw [h]
  rw [handleInit, if_neg (by simp [h8]), if_neg hbc, hsync]
  simp only [hbusy]

include ht

theorem handled_reset_busy (hst : s.asm.state = .assembling) : s.busyCid = 0 := by
  by_contra hb
  rw [ht.idle hb] at hst
  cases hst

theorem handled_initCommand (hlen : reportLen ≤ pkt.length) (hinit : isInitPacket pkt = true)
    (hcmd : cmdOf pkt = cmdInit) (h0 : readBe32 pkt ≠ 0) :
    Handled pkt s (handleInitCommand (readBe32 pkt) pkt s) := by
  unfold handleInitCommand
  split
  · next hb =>
    exact .refused (readBe32_lt pkt) (by decide) fun _ => .inr (.inr (.inl ⟨hinit, hcmd, hb⟩))
  · next hb =>
    have hbcnt : ((pkt.drop 7).take (bcntOf pkt)).length = bcntOf pkt := by
      simp only [reportLen, initDataLen] at hlen hb
      rw [List.length_take, List.length_drop]
      omega
    by_cases h8 : bcntOf pkt = 8
    · have hnonce : (pkt.drop 7).take (bcntOf pkt) = nonceOf pkt := by rw [nonceOf, h8]
      rw [hnonce, h8] at hbcnt
      rw [hnonce]
      obtain ⟨hst, hc, hs⟩ | ⟨hc, hs⟩ := syncAssembly_cases (readBe32 pkt) s
      · have hbusy := handled_reset_busy ht hst
        have hbc : readBe32 pkt ≠ cidBroadcast := hc ▸ (ht.cur hst).2
        have hne : readBe32 pkt ≠ (resetAssembly s).busyCid := hbusy ▸ h0
        have hidle : syncAssembly (readBe32 pkt) (resetAssembly s) = resetAssembly s :=
          syncAssembly_of_idle rfl
        rw [hs, handleInit_of_sync hbcnt hbc hidle, if_neg hne]
        exact .acked hne hbc (.inr ⟨rfl, hbusy⟩) ⟨hlen, rfl, hinit, hcmd, h8⟩
      · rw [hs]
        have hpass (hst : s.asm.state = .assembling) : Passed s.asm.curCid ⟨pkt, s.awaiting⟩ :=
          .inr (.inl (hc hst))
        by_cases hbc : readBe32 pkt = cidBroadcast
        · rw [handleInit, if_neg (by simp [hbcnt]), if_pos hbc, hbc]
          exact .allocated hbc hpass
        · rw [handleInit_of_sync hbcnt hbc hs]
          split
          · next hbusy =>
            rw [hbusy] at h0 ⊢
            have := Handled.resynced h0 ⟨hlen, hbusy, hinit, hcmd, h8⟩
            rwa [syncAnswer, hbusy] at this
          · next hbusy => exact .acked hbusy hbc (.inl ⟨rfl, hpass⟩) ⟨hlen, rfl, hinit, hcmd, h8⟩
    · have hne : ((pkt.drop 7).take (bcntOf pkt)).length ≠ 8 := by rwa [hbcnt]
      rw [handleInit, if_pos hne]
      obtain ⟨hst, -, hs⟩ | ⟨hc, hs⟩ := syncAssembly_cases (readBe32 pkt) s
      · rw [hs]
        exact .broken (handled_reset_busy ht hst) (readBe32_lt pkt) (by decide)
      · rw [hs]
        exact .refused (readBe32_lt pkt) (by decide) fun hst => .inr (.inl (hc hst))

theorem handled_cancel : Handled pkt s (handleCancel (readBe32 pkt) s) := by
  have hc : ∃ c, (if readBe32 pkt = s.busyCid ∧ s.running then { s with cancel := true } else s) =
      { s with cancel := c } := by
    split
    · exact ⟨true, rfl⟩
    · exact ⟨s.cancel, rfl⟩
  obtain ⟨c, hc⟩ := hc
  simp only [handleCancel, hc]
  obtain ⟨hst, -, hs⟩ | ⟨hc, hs⟩ := syncAssembly_cases (readBe32 pkt) { s with cancel := c }
  · rw [hs]
    exact .dropped (handled_reset_busy ht hst)
  · rw [hs]
    exact .silent fun hst => .inr (.inl (hc hst))

omit ht in
theorem accept_whole {cid : ℕ} {a : Assembly} (hb : s.busyCid = 0) (hw : s.awaiting = false)
    (hfull : a.reqTotal ≤ a.reqReceived) :
    completeRequest cid { s with asm := a } = s.accept cid a := by
  simp [completeRequest, State.accept, hb, hw, hfull]

theorem handled_request (hlen : reportLen ≤ pkt.length) (hinit : isInitPacket pkt = true)
    (hbc : readBe32 pkt ≠ cidBroadcast) (hcmd : cmdOf pkt ≠ cmdInit)
    (hcan : cmdOf pkt ≠ cmdCancel) (h0 : readBe32 pkt ≠ 0) :
    Handled pkt s (handleRequestPacket (readBe32 pkt) pkt s) := by
  unfold handleRequestPacket
  split
  · next hw =>
    refine .refused (readBe32_lt pkt) (by decide) fun hst =>
      .inr (.inr (.inr ⟨hinit, hcmd, hcan, ?_⟩))
    exact hw.resolve_right (by simp [handled_reset_busy ht hst])
  · next hw =>
    push Not at hw
    split
    · next hc => exact .refused (readBe32_lt pkt) (by decide) fun _ => .inr (.inl hc.2)
    · next hc =>
      have hwait : s.awaiting = false := by simpa using hw.1
      split
      · exact .broken hw.2 (readBe32_lt pkt) (by decide)
      · next hfits =>
        have hfirst : IsFirst (readBe32 pkt) (cmdOf pkt) (bcntOf pkt) pkt :=
          ⟨hlen, rfl, h0, hbc, hinit, rfl, hcmd, hcan, rfl, by omega⟩
        dsimp only
        split
        · next hfull =>
          rw [accept_whole hw.2 hwait hfull]
          exact .first hw.2 hwait hfirst
        · next hfull =>
          have : s.accept (readBe32 pkt) (startAssembly s.asm (readBe32 pkt) pkt) =
              { s with asm := { startAssembly s.asm
                (readBe32 pkt) pkt with state := .assembling } } :=
            if_neg hfull
          rw [← this]
          exact .first hw.2 hwait hfirst

theorem handled_cont (hlen : reportLen ≤ pkt.length) (hinit : isInitPacket pkt = false) :
    Handled pkt s (handleContPacket (readBe32 pkt) pkt s) := by
  unfold handleContPacket
  split
  · next h =>
    exact .silent fun hst => .inr (.inl (h.resolve_left fun hn => hn hst))
  · next h =>
    push Not at h
    obtain ⟨hst, hc⟩ := h
    have hb := handled_reset_busy ht hst
    split
    · exact .broken hb (readBe32_lt pkt) (by decide)
    · next hseq =>
      have hcont : IsCont s.asm.curCid s.asm.nextSeq pkt := ⟨hlen, hc, hinit, not_not.mp hseq⟩
      rw [hc]
      dsimp only
      split
      · next hfull =>
        by_cases hw : s.awaiting = true
        · have heq : completeRequest s.asm.curCid { s with asm := s.asm.append pkt } =
              resetAssembly (queueError s.asm.curCid errChannelBusy
                { s with asm := { s.asm.append pkt with state := .idle, curCid := 0 } }) := by
            simp [completeRequest, hb, hw]
          rw [heq]
          exact .late hb (hc ▸ readBe32_lt pkt) (by decide)
        · rw [accept_whole hb (by simpa using hw) hfull]
          exact .next hb hst hcont
      · next hfull =>
        have hsame : { s.asm.append pkt with state := FhState.assembling } = s.asm.append pkt := by
          rw [← hst]
          rfl
        have : s.accept s.asm.curCid (s.asm.append pkt) = { s with asm := s.asm.append pkt } := by
          rw [State.accept, if_neg hfull, hsame]
        rw [← this]
        exact .next hb hst hcont

/-- Every packet does one of the listed things. -/
theorem handlePacket_handled (pkt : Packet) : Handled pkt s (handlePacket pkt s) := by
  unfold handlePacket
  split
  · next hlen => exact .silent fun _ => .inl hlen
  · next hlen =>
    have hlen : reportLen ≤ pkt.length := by omega
    split
    · next h0 =>
      refine .refused (by decide) (by decide) fun hst => .inr (.inl ?_)
      exact h0 ▸ (ht.cur hst).1.symm
    · next h0 =>
      split
      · next hinit =>
        unfold handleInitPacket
        split
        · next hb =>
          refine .refused (readBe32_lt pkt) (by decide) fun hst => .inr (.inl ?_)
          exact hb.1 ▸ (ht.cur hst).2.symm
        · next hb =>
          split
          · next hcmd => exact handled_initCommand ht hlen hinit hcmd h0
          · next hcmd =>
            split
            · exact handled_cancel ht
            · next hcan =>
              exact handled_request ht hlen hinit (fun h => hb ⟨h, hcmd⟩) hcmd hcan h0
      · next hinit => exact handled_cont ht hlen (by simpa using hinit)

end Packets

theorem syncAssembly_sync (cid : ℕ) (s : State) :
    syncAssembly cid (syncAssembly cid s) = syncAssembly cid s := by
  obtain ⟨-, -, hs⟩ | ⟨-, hs⟩ := syncAssembly_cases cid s
  · rw [hs]
    exact syncAssembly_of_idle rfl
  · rw [hs, hs]

/-- An INIT on a channel. -/
theorem handlePacket_sync {pkt : Packet} (h : IsSync (readBe32 pkt) pkt) (h0 : readBe32 pkt ≠ 0)
    (hbc : readBe32 pkt ≠ cidBroadcast) (s : State) :
    handlePacket pkt s =
      if readBe32 pkt = s.busyCid then
        abandon (readBe32 pkt) (syncAnswer pkt)
          (dropStaleInit (readBe32 pkt) (syncAssembly (readBe32 pkt) s))
      else replyShort (readBe32 pkt) (cmdInitFlag ||| cmdInit) (syncAnswer pkt)
        (dropAnswer (readBe32 pkt)
          (dropStaleInit (readBe32 pkt) (syncAssembly (readBe32 pkt) s))) := by
  obtain ⟨hlen, -, hinit, hcmd, h8⟩ := h
  have hnonce : (pkt.drop 7).take (bcntOf pkt) = nonceOf pkt := by rw [nonceOf, h8]
  have hlen8 : (nonceOf pkt).length = 8 := by
    simp only [reportLen] at hlen
    rw [nonceOf, List.length_take, List.length_drop]
    omega
  have hbusy : (syncAssembly (readBe32 pkt) s).busyCid = s.busyCid := by
    unfold syncAssembly
    split <;> rfl
  rw [handlePacket, if_neg (by omega), if_neg h0, if_pos hinit, handleInitPacket,
    if_neg (fun h => h.2 hcmd), if_pos hcmd, handleInitCommand, if_neg (by rw [h8]; decide),
    hnonce, handleInit_of_sync hlen8 hbc (syncAssembly_sync _ s), hbusy, syncAnswer]

/-! ### What that means for the requests -/

/-- The request of the channel is abandoned and the answer to the INIT held. -/
structure Resynced (cid : ℕ) (s s' : State) : Prop extends
    Framed { s with abandoned := true } s' where
  resp : s'.resp = s.resp
  pending : s'.resync.pending = true
  pkt : readBe32 s'.resync.pkt = cid

/-- What a packet does to the requests. -/
inductive Effect (pkt : Packet) (s : State) : State → Prop
  | answered {s' : State} (h : Replied s s')
      (hpass : s.asm.state = .assembling → Passed s.asm.curCid ⟨pkt, s.awaiting⟩) : Effect pkt s s'
  | reset {s' : State} (hb : s.busyCid = 0) (h : Replied (resetAssembly s) s') : Effect pkt s s'
  | resynced {s' : State} (hb : s.busyCid ≠ 0) (hsync : IsSync s.busyCid pkt)
      (h : Resynced s.busyCid s s') : Effect pkt s s'
  | first {cid : ℕ} (hb : s.busyCid = 0) (hwait : s.awaiting = false)
      (h : IsFirst cid (cmdOf pkt) (bcntOf pkt) pkt) :
      Effect pkt s (s.accept cid (startAssembly s.asm cid pkt))
  | next (hb : s.busyCid = 0) (hst : s.asm.state = .assembling)
      (h : IsCont s.asm.curCid s.asm.nextSeq pkt) :
      Effect pkt s (s.accept s.asm.curCid (s.asm.append pkt))

/-- Whatever happened to the assembly, the answers are the same. -/
theorem Replied.of_asm {a : Assembly} (h : Replied { s with asm := a } s') :
    Replied (resetAssembly s) (resetAssembly s') where
  asm := rfl
  busyCid := h.busyCid
  running := h.running
  inProgress := h.inProgress
  awaiting := h.awaiting
  abandoned := h.abandoned
  seen := h.seen
  dispatched := h.dispatched
  resp := h.resp
  resync := h.resync

theorem replied_setCancel (c : Bool) (s : State) : Replied s { s with cancel := c } :=
  ⟨⟨rfl, rfl, rfl, rfl, rfl, rfl, rfl, rfl⟩, fun _ => .inl rfl, fun _ _ => rfl⟩

/-- An INIT on a channel whose request is neither queued nor runs. -/
theorem replied_acked {cid : ℕ} (hc : cid ≠ s.busyCid) (cmd : UInt8) (payload : Packet) :
    Replied s (replyShort cid cmd payload (dropAnswer cid (dropStaleInit cid s))) :=
  (replied_dropStaleInit hc).trans ((replied_dropAnswer cid _).trans (replied_replyShort _ _ _ _))

theorem Handled.effect {pkt : Packet} (h : Handled pkt s s') : Effect pkt s s' := by
  cases h with
  | silent hpass => exact .answered (replied_setCancel _ s) hpass
  | refused _ _ hpass => exact .answered (replied_queueError _ _ s) hpass
  | @dropped c hb => exact .reset hb (Replied.of_asm (a := s.asm) (replied_setCancel c s))
  | broken hb _ _ => exact .reset hb (replied_queueError _ _ _)
  | late hb _ _ => exact .reset hb (replied_queueError _ _ _).of_asm
  | allocated _ hpass =>
    exact .answered ((replied_allocChannel s).trans (replied_replyShort _ _ _ _)) hpass
  | acked hc _ h₁ _ =>
    obtain ⟨rfl, hpass⟩ | ⟨rfl, hb⟩ := h₁
    · exact .answered (replied_acked hc _ _) hpass
    · exact .reset hb (replied_acked (s := resetAssembly s) hc _ _)
  | resynced hb hsync =>
    obtain ⟨short, resync, h⟩ := dropStaleInit_eq s.busyCid s
    rw [h]
    refine .resynced hb hsync ⟨⟨rfl, rfl, rfl, rfl, rfl, rfl, rfl, rfl⟩, rfl, rfl, ?_⟩
    exact readBe32_buildPacket (hsync.channel ▸ readBe32_lt pkt) _ _
  | first hb hwait h => exact .first hb hwait h
  | next hb hst h => exact .next hb hst h

theorem handlePacket_effect (ht : Tidy s) (pkt : Packet) : Effect pkt s (handlePacket pkt s) :=
  (handlePacket_handled ht pkt).effect

end Nixtropic.Ctaphid
