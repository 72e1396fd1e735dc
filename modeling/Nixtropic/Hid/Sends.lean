import Nixtropic.Hid.Invariants

/-!
Which packets go out. `Ready G` says that everything the framing holds for
sending is of the kind `G`; then everything it sends is.
-/

namespace Nixtropic.Ctaphid

variable {s s' s'' : State} {G R : Packet → Prop}

/-- Only packets of the kind were sent. -/
def Sends (G : Packet → Prop) (s s' : State) : Prop :=
  ∃ out, s'.sent = s.sent ++ out ∧ ∀ p ∈ out, G p

theorem Sends.of_eq (h : s'.sent = s.sent) : Sends G s s' :=
  ⟨[], by rw [h, List.append_nil], by simp⟩

theorem Sends.trans (h : Sends G s s') (h' : Sends G s' s'') : Sends G s s'' := by
  obtain ⟨out, hs, hG⟩ := h
  obtain ⟨out', hs', hG'⟩ := h'
  refine ⟨out ++ out', by rw [hs', hs, List.append_assoc], ?_⟩
  intro p hp
  obtain hp | hp := List.mem_append.mp hp
  · exact hG p hp
  · exact hG' p hp

/-- Every packet of the answer is of the kind: the next one, and the CONT
packets, if there is more. -/
structure Response.Good (G : Packet → Prop) (r : Response) : Prop where
  next : G r.next.1
  more : r.next.2.sent < r.next.2.total →
    ∀ p, readBe32 p = readBe32 (writeBe32 r.cid) → isInitPacket p = false → G p

/-- What the framing holds: packets of the kind `G` in its slots, and an answer of the
kind `R`. An answer behind an abandoned request is not sent any more. -/
structure Kept (G R : Packet → Prop) (s : State) : Prop where
  short : s.short.pending = true → G s.short.pkt
  resync : s.resync.pending = true → G s.resync.pkt
  resp : s.resp.pending = true → s.abandoned = false → s.resp.Good R

/-- What the framing holds is of the kind. -/
abbrev Ready (G : Packet → Prop) (s : State) : Prop := Kept G G s

/-- Where answers of every kind are allowed, only the slots matter. -/
theorem Kept.of_slots (hshort : s.short.pending = true → G s.short.pkt)
    (hresync : s.resync.pending = true → G s.resync.pkt) : Kept G (fun _ => True) s :=
  ⟨hshort, hresync, fun _ _ => ⟨trivial, fun _ _ _ _ => trivial⟩⟩

/-- The answer of `s` is that of `s'`, or it was dropped. -/
theorem Kept.of_resp (h : Kept G R s) (hshort : s'.short = s.short) (hresync : s'.resync = s.resync)
    (hresp : s'.resp = s.resp) (ha : s'.abandoned = s.abandoned) : Kept G R s' where
  short := by
    rw [hshort]
    exact h.short
  resync := by
    rw [hresync]
    exact h.resync
  resp := by
    rw [hresp, ha]
    exact h.resp

/-! ### One-packet answers -/

theorem pushPacket_sends (pkt : Packet) (hG : G pkt) (s : State) :
    Sends G s (pushPacket pkt s).2 := by
  cases h : s.usb 0 with
  | false =>
    have hp : (pushPacket pkt s).2 = (tudHidReady s).2 := by simp [pushPacket, tudHidReady, h]
    rw [hp]
    exact .of_eq rfl
  | true =>
    have hp : (pushPacket pkt s).2 = (tudHidReport pkt (tudHidReady s).2).2 := by
      simp [pushPacket, tudHidReady, h]
    rw [hp]
    refine ⟨if (tudHidReady s).2.usb 0 then [pkt] else [], ?_, ?_⟩
    · simp only [tudHidReport]
      split
      · rfl
      · rw [List.append_nil]
        rfl
    · intro p hp
      split at hp
      · rw [List.mem_singleton.mp hp]
        exact hG
      · cases hp

theorem pushPacket_ready (h : Kept G R s) (pkt : Packet) : Kept G R (pushPacket pkt s).2 := by
  obtain ⟨usb, sent, heq⟩ := pushPacket_eq pkt s
  rw [heq]
  exact h.of_resp rfl rfl rfl rfl

theorem flushShort_sends (h : Kept G R s) : Sends G s (flushShort s) ∧ Kept G R (flushShort s) := by
  simp only [flushShort]
  split
  · next hp =>
    have hs := pushPacket_sends _ (h.short hp) s
    have hr := pushPacket_ready h s.short.pkt
    split
    · exact ⟨hs.trans (.of_eq rfl), ⟨by simp, hr.resync, hr.resp⟩⟩
    · exact ⟨hs, hr⟩
  · exact ⟨.of_eq rfl, h⟩

theorem flushResync_sends (h : Kept G R s) :
    Sends G s (flushResync s) ∧ Kept G R (flushResync s) := by
  simp only [flushResync]
  split
  · next hp =>
    simp only [Bool.and_eq_true] at hp
    have hs := pushPacket_sends _ (h.resync hp.1.2) s
    have hr := pushPacket_ready h s.resync.pkt
    split
    · exact ⟨hs.trans (.of_eq rfl), ⟨hr.short, by simp, hr.resp⟩⟩
    · exact ⟨hs, hr⟩
  · exact ⟨.of_eq rfl, h⟩

theorem flushPending_sends (h : Kept G R s) :
    Sends G s (flushPending s).2 ∧ Kept G R (flushPending s).2 := by
  obtain ⟨hs, hr⟩ := flushShort_sends h
  obtain ⟨hs', hr'⟩ := flushResync_sends hr
  exact ⟨hs.trans hs', hr'⟩

theorem keepShort_sends {pkt : Packet} (hG : G pkt) {r : Bool × State} (hs : Sends G s r.2)
    (hr : Kept G R r.2) : Sends G s (keepShort pkt r) ∧ Kept G R (keepShort pkt r) := by
  unfold keepShort
  split
  · exact ⟨hs, hr⟩
  · split
    · exact ⟨hs, hr⟩
    · exact ⟨hs.trans (.of_eq rfl), ⟨fun _ => hG, hr.resync, hr.resp⟩⟩

theorem sendNow_sends {cid : ℕ} {cmd : UInt8} {payload : Packet} (h : Kept G R s)
    (hG : G (buildPacket cid cmd payload)) :
    Sends G s (sendNow cid cmd payload s) ∧ Kept G R (sendNow cid cmd payload s) := by
  unfold sendNow
  split
  · exact ⟨.of_eq rfl, h⟩
  · obtain ⟨hs, hr⟩ := flushPending_sends h
    dsimp only
    split
    · exact keepShort_sends hG (hs.trans (pushPacket_sends _ hG _)) (pushPacket_ready hr _)
    · exact keepShort_sends hG hs hr

/-- A queued one-packet answer is the packet itself. -/
theorem queued_next {cid : ℕ} {cmd : UInt8} {payload buf : Packet} {r : Response}
    (hlen : payload.length ≤ initDataLen)
    (hr : r = ⟨cid, cmd, payload.length, 0, 0, true, patch buf 0 payload⟩) :
    r.next.1 = buildPacket cid cmd payload ∧ ¬ r.next.2.sent < r.next.2.total := by
  subst hr
  have hmin : min (payload.length - 0) initDataLen = payload.length := by omega
  constructor
  · simp only [Response.next, beq_self_eq_true, if_true, hmin, patch, List.drop_zero,
      List.take_zero, List.nil_append, buildPacket]
    rw [List.take_left]
    simp
  · simp only [Response.next, beq_self_eq_true, if_true, hmin]
    omega

theorem replyShort_sends {cid : ℕ} {cmd : UInt8} {payload : Packet} (h : Kept G R s)
    (hlen : payload.length ≤ initDataLen) (hG : G (buildPacket cid cmd payload))
    (hR : ∀ p, G p → R p) :
    Sends G s (replyShort cid cmd payload s) ∧ Kept G R (replyShort cid cmd payload s) := by
  unfold replyShort
  split
  · exact ⟨.of_eq rfl, h⟩
  · split
    · exact sendNow_sends h hG
    · have htake : payload.take maxPayload = payload := by
        simp only [initDataLen] at hlen
        exact List.take_of_length_le (by simp only [maxPayload]; omega)
      have hq : (queueResponse cid cmd payload s).resp =
          ⟨cid, cmd, payload.length, 0, 0, true, patch s.resp.buf 0 payload⟩ := by
        simp only [queueResponse, htake]
      obtain ⟨hnext, hmore⟩ := queued_next hlen hq
      exact ⟨.of_eq rfl, ⟨h.short, h.resync, fun _ _ =>
        ⟨hnext ▸ hR _ hG, fun hm => absurd hm hmore⟩⟩⟩

theorem queueError_sends {cid : ℕ} {err : UInt8} (h : Kept G R s)
    (hG : G (buildPacket cid (cmdInitFlag ||| cmdError) [err])) (hR : ∀ p, G p → R p) :
    Sends G s (queueError cid err s) ∧ Kept G R (queueError cid err s) :=
  replyShort_sends h (by simp [initDataLen]) hG hR

theorem sendKeepalive_sends (h : Kept G R s)
    (hG : G (buildPacket s.busyCid (cmdInitFlag ||| cmdKeepalive) [keepaliveStatus s])) :
    Sends G s (sendKeepalive s) ∧ Kept G R (sendKeepalive s) := by
  simp only [sendKeepalive]
  split
  · have hs := pushPacket_sends _ hG s
    have hr := pushPacket_ready h (buildPacket s.busyCid (cmdInitFlag ||| cmdKeepalive)
      [keepaliveStatus s])
    split
    · exact ⟨hs.trans (.of_eq rfl), hr.of_resp rfl rfl rfl rfl⟩
    · exact ⟨hs, hr⟩
  · exact ⟨.of_eq rfl, h⟩

theorem progressRest_sends (h : Kept G R s)
    (hG : s.abandoned = false →
      ∀ st, G (buildPacket s.busyCid (cmdInitFlag ||| cmdKeepalive) [st])) :
    Sends G s (progressRest s) ∧ Kept G R (progressRest s) := by
  obtain ⟨hs, hr⟩ := flushPending_sends h
  have hf := replied_flushPending s
  simp only [progressRest]
  split
  · next hgo =>
    simp only [Bool.and_eq_true, Bool.not_eq_true'] at hgo
    have ha : s.abandoned = false := hf.abandoned ▸ hgo.2
    obtain ⟨hs', hr'⟩ := sendKeepalive_sends hr (by rw [hf.busyCid]; exact hG ha _)
    exact ⟨hs.trans (hs'.trans (.of_eq rfl)), hr'.of_resp rfl rfl rfl rfl⟩
  · exact ⟨hs.trans (.of_eq rfl), hr.of_resp rfl rfl rfl rfl⟩

/-! ### Answers in several packets -/

theorem readBe32_append (cid : ℕ) (rest : Packet) :
    readBe32 (writeBe32 cid ++ rest) = readBe32 (writeBe32 cid) := rfl

/-- After the first packet only CONT packets of the channel follow. -/
theorem Response.next_cont (r : Response) (h : r.sent ≠ 0) :
    readBe32 r.next.1 = readBe32 (writeBe32 r.cid) ∧ isInitPacket r.next.1 = false := by
  have hne : (r.sent == 0) = false := by simpa using h
  simp only [Response.next, hne]
  constructor
  · rw [List.append_assoc, List.append_assoc]
    rfl
  · change ((r.seq &&& 0x7F) &&& 0x80 != 0) = false
    rw [UInt8.and_assoc, show (0x7F : UInt8) &&& 0x80 = 0 from rfl, UInt8.and_zero]
    rfl

theorem Response.Good.after {r : Response} (h : r.Good G) (hm : r.next.2.sent < r.next.2.total)
    (b : Bool) : Response.Good G { r.next.2 with pending := b } := by
  have hsent : r.next.2.sent ≠ 0 := by
    intro h0
    have h0' : r.sent + min (r.total - r.sent)
        (if r.sent == 0 then initDataLen else contDataLen) = 0 := h0
    have hm' : r.sent + min (r.total - r.sent)
        (if r.sent == 0 then initDataLen else contDataLen) < r.total := hm
    have hs : r.sent = 0 := by omega
    simp only [hs, beq_self_eq_true, if_true, initDataLen] at h0' hm'
    omega
  have hcont := Response.next_cont { r.next.2 with pending := b } hsent
  exact ⟨h.more hm _ hcont.1 hcont.2, fun _ => h.more hm⟩

/-- One packet of the answer goes out, or nothing but the endpoint changes. -/
theorem emitResponsePacket_cases (s : State) :
    (∃ usb, emitResponsePacket s = (false, { s with usb := usb })) ∨
      s.resp.pending = true ∧ ∃ usb, emitResponsePacket s = (true, { s with
        usb := usb
        sent := s.sent ++ [s.resp.next.1]
        resp := { s.resp.next.2 with
          pending := decide (s.resp.next.2.sent < s.resp.next.2.total) } }) := by
  cases hp : s.resp.pending with
  | false => exact .inl ⟨s.usb, by simp [emitResponsePacket, hp]⟩
  | true =>
    cases h₀ : s.usb 0 with
    | false => exact .inl ⟨_, by simp [emitResponsePacket, tudHidReady, hp, h₀]; rfl⟩
    | true =>
      cases h₁ : s.usb 1 with
      | false =>
        exact .inl ⟨_, by simp [emitResponsePacket, tudHidReady, tudHidReport, hp, h₀, h₁]; rfl⟩
      | true =>
        exact .inr ⟨rfl, _, by
          simp [emitResponsePacket, tudHidReady, tudHidReport, hp, h₀, h₁]; rfl⟩

theorem drainLoop_sends (fuel : ℕ) {s : State} (hg : s.resp.pending = true → s.resp.Good G) :
    Sends G s (drainLoop fuel s) ∧
      ((drainLoop fuel s).resp.pending = true → (drainLoop fuel s).resp.Good G) := by
  induction fuel generalizing s with
  | zero => exact ⟨.of_eq rfl, hg⟩
  | succ fuel ih =>
    simp only [drainLoop]
    obtain ⟨usb, h⟩ | ⟨hp, usb, h⟩ := emitResponsePacket_cases s
    · rw [h]
      exact ⟨.of_eq rfl, hg⟩
    · rw [h]
      have hgood := hg hp
      have hsent : Sends G s { s with
          usb := usb
          sent := s.sent ++ [s.resp.next.1]
          resp := { s.resp.next.2 with
            pending := decide (s.resp.next.2.sent < s.resp.next.2.total) } } :=
        ⟨[s.resp.next.1], rfl, by simpa using hgood.next⟩
      obtain ⟨hs, hr⟩ := @ih { s with
          usb := usb
          sent := s.sent ++ [s.resp.next.1]
          resp := { s.resp.next.2 with
            pending := decide (s.resp.next.2.sent < s.resp.next.2.total) } }
        fun hd => hgood.after (of_decide_eq_true hd) _
      exact ⟨hsent.trans hs, hr⟩

/-- The end of `fido_hid_task`. -/
theorem sendAnswers_sends (ht : s.abandoned = true → s.resync.pending = true ∧
      readBe32 s.resync.pkt = s.busyCid) (h : Ready G s) :
    Sends G s (sendAnswers s) ∧ Ready G (sendAnswers s) := by
  obtain ⟨hs, hr⟩ := flushPending_sends h
  have hf := replied_flushPending s
  simp only [sendAnswers]
  split
  · next hgo =>
    simp only [Bool.and_eq_true, Bool.not_eq_true'] at hgo
    have ha : (flushPending s).2.abandoned = false := by
      by_contra ha
      rw [hf.abandoned, Bool.not_eq_false] at ha
      obtain ⟨hp, hc⟩ := ht ha
      rw [hf.resync ha hc, hp] at hgo
      cases hgo.2
    obtain ⟨usb, sent, resp, heq⟩ := drainLoop_eq
      ((flushPending s).2.resp.total - (flushPending s).2.resp.sent + 2) (flushPending s).2
    have hd := drainLoop_sends
      ((flushPending s).2.resp.total - (flushPending s).2.resp.sent + 2) fun hp => hr.resp hp ha
    rw [drain]
    rw [heq] at hd ⊢
    exact ⟨hs.trans hd.1, ⟨hr.short, hr.resync, fun hp _ => hd.2 hp⟩⟩
  · exact ⟨hs, hr⟩

end Nixtropic.Ctaphid
