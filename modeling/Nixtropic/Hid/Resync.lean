import Nixtropic.Hid.Progress
import Nixtropic.Hid.Words

/-!
Resync. After an INIT on a channel nothing of the request it abandons goes out,
that request is never dispatched, and only the newest INIT is acknowledged. The
one exception is an error answer that waits in the short slot: `handle_init`
drops the answer in the response buffer and the answers to older INITs, but not
this one.
-/

namespace Nixtropic.Ctaphid

variable {s s' : State} {X : ℕ}

/-- A packet of the answer to a request of the channel, or a KEEPALIVE of it:
neither an answer to an INIT nor an error that tells about a packet. -/
def OfRequest (X : ℕ) (p : Packet) : Prop :=
  readBe32 p = X ∧ byte4 p ≠ cmdInitFlag ||| cmdInit ∧
    ¬ (byte4 p = cmdInitFlag ||| cmdError ∧ TransportErr (p.getD 7 0))

instance (X : ℕ) (p : Packet) : Decidable (OfRequest X p) :=
  inferInstanceAs (Decidable (_ ∧ _ ∧ ¬ (_ ∧ _)))

/-- No request of the channel was dispatched in between. -/
def NoneDispatched (X : ℕ) (s s' : State) : Prop :=
  ∃ new, s'.dispatched = new ++ s.dispatched ∧ ∀ r ∈ new, r.cid ≠ X

/-- Until a request of the channel is dispatched again, nothing of one goes
out. -/
def Silenced (X : ℕ) (s : State) : Prop :=
  ∀ post, NoneDispatched X s (system.runFrom s post) →
    Sends (fun p => ¬ OfRequest X p) s (system.runFrom s post)

/-- Nothing is dispatched until the request buffer was emptied. -/
def NeverRuns (s : State) : Prop :=
  ∀ post, (system.runFrom s post).dispatched = s.dispatched ∨
    ∃ p q, post = p ++ q ∧ (system.runFrom s p).dispatched = s.dispatched ∧
      (system.runFrom s p).asm = emptyAssembly ∧ (system.runFrom s p).busyCid = 0

instance (cid : ℕ) (pkt : Packet) : Decidable (IsSync cid pkt) :=
  decidable_of_iff (reportLen ≤ pkt.length ∧ readBe32 pkt = cid ∧ isInitPacket pkt = true ∧
      cmdOf pkt = cmdInit ∧ bcntOf pkt = 8)
    ⟨fun ⟨h₁, h₂, h₃, h₄, h₅⟩ => ⟨h₁, h₂, h₃, h₄, h₅⟩,
      fun ⟨h₁, h₂, h₃, h₄, h₅⟩ => ⟨h₁, h₂, h₃, h₄, h₅⟩⟩

/-- The nonce of the newest INIT handled on the channel. -/
def newestNonce (X : ℕ) (seen : List Seen) : Option Packet :=
  (seen.find? fun x => decide (IsSync X x.pkt)).map fun x => nonceOf x.pkt

/-- An acknowledgement on a channel carries the nonce of its newest INIT. -/
def Fresh (seen : List Seen) (p : Packet) : Prop :=
  readBe32 p ≠ 0 → readBe32 p ≠ cidBroadcast → byte4 p = cmdInitFlag ||| cmdInit →
    newestNonce (readBe32 p) seen = some (nonceOf p)

/-- From here on every acknowledgement is fresh when it goes out. -/
def AcksNewest (s : State) : Prop :=
  ∀ post a, Sends (Fresh (system.runFrom s (post ++ [a])).seen) (system.runFrom s post)
    (system.runFrom s (post ++ [a]))

/-- The short slot holds an error answer of the channel's request, and the
handling of the INIT does not send it first. -/
def Stranded (X : ℕ) (s : State) : Prop :=
  s.short.pending = true ∧ OfRequest X s.short.pkt ∧
    ¬ (X ≠ s.busyCid ∧ (s.busyCid ≠ 0 ∨ s.resp.pending = true ∧ s.resp.cid ≠ X) ∧
      s.usb 0 = true ∧ s.usb 1 = true)

/-! ### Kinds of packets -/

theorem byte4_buildPacket (cid : ℕ) (cmd : UInt8) (payload : Packet) :
    byte4 (buildPacket cid cmd payload) = cmd := rfl

theorem getD7_buildPacket (cid : ℕ) (cmd err : UInt8) :
    (buildPacket cid cmd [err]).getD 7 0 = err := rfl

theorem nonceOf_buildPacket {nonce : Packet} (h : nonce.length = 8) (cid : ℕ) (cmd : UInt8)
    (rest : Packet) : nonceOf (buildPacket cid cmd (nonce ++ rest)) = nonce := by
  have hdrop : (buildPacket cid cmd (nonce ++ rest)).drop 7 =
      nonce ++ rest ++ List.replicate (initDataLen - (nonce ++ rest).length) 0 := rfl
  rw [nonceOf, hdrop, List.append_assoc, List.take_append_of_le_length (by omega),
    List.take_of_length_le (by omega)]

theorem not_ofRequest_init (cid : ℕ) (payload : Packet) :
    ¬ OfRequest X (buildPacket cid (cmdInitFlag ||| cmdInit) payload) := by
  intro h
  exact h.2.1 (byte4_buildPacket _ _ _)

theorem not_ofRequest_transport {err : UInt8} (cid : ℕ) (h : TransportErr err) :
    ¬ OfRequest X (buildPacket cid (cmdInitFlag ||| cmdError) [err]) := by
  intro hr
  exact hr.2.2 ⟨byte4_buildPacket _ _ _, getD7_buildPacket _ _ _ ▸ h⟩

theorem not_ofRequest_other {cid : ℕ} (hc : cid < 2 ^ 32) (hne : cid ≠ X) (cmd : UInt8)
    (payload : Packet) : ¬ OfRequest X (buildPacket cid cmd payload) := by
  intro h
  exact hne (readBe32_buildPacket hc cmd payload ▸ h.1)

theorem Response.next_channel (r : Response) :
    readBe32 r.next.1 = readBe32 (writeBe32 r.cid) := by
  simp only [Response.next, List.append_assoc]
  rfl

/-- An answer on another channel. -/
theorem Response.good_other {r : Response} (hc : r.cid < 2 ^ 32) (hne : r.cid ≠ X) :
    r.Good fun p => ¬ OfRequest X p where
  next := by
    intro h
    exact hne (readBe32_writeBe32 hc ▸ r.next_channel ▸ h.1)
  more := by
    intro _ p hp _ h
    exact hne (readBe32_writeBe32 hc ▸ hp ▸ h.1)

/-! ### What the framing drops -/

variable {G R : Packet → Prop}

/-- The answers to older INITs are gone, and nothing was added. -/
theorem Kept.dropStaleInit (h : Kept G R s) (cid : ℕ) : Kept G R (dropStaleInit cid s) := by
  have hr : Kept G R (dropStaleResync cid s) := by
    unfold dropStaleResync
    split
    · exact ⟨h.short, by simp, h.resp⟩
    · exact h
  rw [Ctaphid.dropStaleInit, dropStaleShort]
  split
  · exact ⟨by simp, hr.resync, hr.resp⟩
  · exact hr

theorem Kept.dropAnswer (h : Kept G R s) (cid : ℕ) : Kept G R (dropAnswer cid s) := by
  unfold Ctaphid.dropAnswer
  split
  · exact ⟨h.short, h.resync, by simp⟩
  · exact h

theorem dropStaleInit_short {cid : ℕ} (h : (Ctaphid.dropStaleInit cid s).short.pending = true) :
    (Ctaphid.dropStaleInit cid s).short = s.short ∧
      ¬ (readBe32 s.short.pkt = cid ∧ byte4 s.short.pkt = cmdInitFlag ||| cmdInit) := by
  have hshort : (dropStaleResync cid s).short = s.short := by
    unfold dropStaleResync
    split <;> rfl
  rw [Ctaphid.dropStaleInit, dropStaleShort, hshort] at h ⊢
  split at h
  · cases h
  · next hc =>
    rw [if_neg hc]
    rw [hshort] at h
    exact ⟨hshort, fun hd => hc ⟨h, hd⟩⟩

theorem dropStaleInit_keeps {cid : ℕ} (h : byte4 s.short.pkt ≠ cmdInitFlag ||| cmdInit) :
    (Ctaphid.dropStaleInit cid s).short = s.short := by
  have hshort : (dropStaleResync cid s).short = s.short := by
    unfold dropStaleResync
    split <;> rfl
  rw [Ctaphid.dropStaleInit, dropStaleShort, hshort, if_neg (fun hc => h hc.2.2), hshort]

theorem dropStaleInit_resync {cid : ℕ}
    (h : (Ctaphid.dropStaleInit cid s).resync.pending = true) :
    (Ctaphid.dropStaleInit cid s).resync = s.resync ∧ readBe32 s.resync.pkt ≠ cid := by
  have hr : (Ctaphid.dropStaleInit cid s).resync = (dropStaleResync cid s).resync := by
    rw [Ctaphid.dropStaleInit, dropStaleShort]
    split <;> rfl
  rw [hr] at h ⊢
  unfold dropStaleResync at h ⊢
  split at h
  · cases h
  · next hc =>
    rw [if_neg hc]
    exact ⟨rfl, fun hcid => hc ⟨h, hcid⟩⟩

theorem dropAnswer_eq (cid : ℕ) (s : State) :
    ∃ resp, Ctaphid.dropAnswer cid s = { s with resp := resp } := by
  unfold Ctaphid.dropAnswer
  split
  · exact ⟨_, rfl⟩
  · exact ⟨s.resp, rfl⟩

theorem dropped_sent (cid : ℕ) (s : State) :
    (Ctaphid.dropAnswer cid (Ctaphid.dropStaleInit cid s)).sent = s.sent := by
  obtain ⟨resp, hda⟩ := dropAnswer_eq cid (Ctaphid.dropStaleInit cid s)
  obtain ⟨short, resync, hd⟩ := dropStaleInit_eq cid s
  rw [hda, hd]

theorem dropAnswer_resp {cid : ℕ} (h : (Ctaphid.dropAnswer cid s).resp.pending = true) :
    (Ctaphid.dropAnswer cid s).resp = s.resp ∧ s.resp.cid ≠ cid := by
  unfold Ctaphid.dropAnswer at h ⊢
  split at h
  · cases h
  · next hc =>
    rw [if_neg hc]
    exact ⟨rfl, fun hcid => hc ⟨h, hcid⟩⟩

/-- The answer behind an abandoned request does not outlive it. -/
theorem Kept.ended (h : Kept G R s) : Kept G R s.ended := by
  refine ⟨?_, ?_, ?_⟩
  · obtain ⟨resp, he⟩ := s.ended_eq
    rw [he]
    exact h.short
  · obtain ⟨resp, he⟩ := s.ended_eq
    rw [he]
    exact h.resync
  · simp only [State.ended, resetAssembly, dropStaleAnswer]
    split
    · simp
    · next ha => exact fun hp _ => h.resp hp (by simpa using ha)

theorem finishRequest_sends (h : Ready G s) :
    Sends G s (finishRequest s) ∧ Ready G (finishRequest s) := by
  obtain ⟨resp, he⟩ := s.ended_eq
  have ha : s.ended.abandoned = true → s.ended.resync.pending = true ∧
      readBe32 s.ended.resync.pkt = s.ended.busyCid := by
    rw [he]
    rintro ⟨⟩
  obtain ⟨hs, hr⟩ := sendAnswers_sends ha h.ended
  have hsent : s.ended.sent = s.sent := by rw [he]
  rw [finishRequest_eq]
  exact ⟨(Sends.of_eq hsent).trans hs, hr⟩

theorem Kept.started (h : Kept G R s) : Kept G R s.started :=
  h.of_resp rfl rfl rfl rfl

/-- A new answer takes the place of the old one. -/
theorem Kept.queueResponse (h : Kept G R s) (cid : ℕ) (cmd : UInt8) (payload : Packet)
    (hg : (queueResponse cid cmd payload s).resp.Good R) :
      Kept G R (queueResponse cid cmd payload s) :=
  ⟨h.short, h.resync, fun _ _ => hg⟩

theorem Kept.accept (h : Kept G R s) (cid : ℕ) (a : Assembly) : Kept G R (s.accept cid a) := by
  unfold State.accept
  split
  · exact h.of_resp rfl rfl rfl rfl
  · exact h.of_resp rfl rfl rfl rfl

theorem accept_sent (s : State) (cid : ℕ) (a : Assembly) : (s.accept cid a).sent = s.sent := by
  unfold State.accept
  split <;> rfl

theorem initAnswer_fits (pkt : Packet) (cid : ℕ) :
    (initAnswer (nonceOf pkt) cid).length ≤ initDataLen := by
  simp only [initAnswer, nonceOf, writeBe32, be32, deviceInfo, initDataLen, List.length_append,
    List.length_take, List.length_cons, List.length_nil]
  omega

/-- Every answer to a packet is of the kind, as far as errors and
acknowledgements are. -/
theorem Handled.sends {pkt : Packet} (ht : Tidy s) (hh : Handled pkt s s') (h : Kept G R s)
    (herr : ∀ cid err, cid < 2 ^ 32 → TransportErr err →
      G (buildPacket cid (cmdInitFlag ||| cmdError) [err]))
    (halloc : ∀ payload, G (buildPacket cidBroadcast (cmdInitFlag ||| cmdInit) payload))
    (hack : IsSync (readBe32 pkt) pkt → readBe32 pkt ≠ cidBroadcast →
      G (buildPacket (readBe32 pkt) (cmdInitFlag ||| cmdInit) (syncAnswer pkt)))
    (hR : ∀ p, G p → R p) :
    Sends G s s' ∧ Kept G R s' := by
  cases hh with
  | silent _ => exact ⟨.of_eq rfl, h.of_resp rfl rfl rfl rfl⟩
  | refused hc he _ => exact queueError_sends h (herr _ _ hc he) hR
  | dropped _ => exact ⟨.of_eq rfl, h.of_resp rfl rfl rfl rfl⟩
  | broken _ hc he =>
    have h' : Kept G R (resetAssembly s) := h.of_resp rfl rfl rfl rfl
    obtain ⟨hs, hr⟩ := queueError_sends h' (herr _ _ hc he) hR
    exact ⟨hs, hr⟩
  | @late cid err a _ hc he =>
    have h' : Kept G R { s with asm := a } := h.of_resp rfl rfl rfl rfl
    obtain ⟨hs, hr⟩ := queueError_sends h' (herr cid err hc he) hR
    exact ⟨hs, hr.of_resp rfl rfl rfl rfl⟩
  | @allocated cid _ _ =>
    have h' : Kept G R (allocChannel s).2 := h.of_resp rfl rfl rfl rfl
    obtain ⟨hs, hr⟩ := replyShort_sends h' (initAnswer_fits pkt cid) (halloc _) hR
    exact ⟨hs, hr⟩
  | @acked s₁ _ hbc h₁ hsync =>
    have h₁ : Kept G R s₁ ∧ s₁.sent = s.sent := by
      obtain ⟨rfl, -⟩ | ⟨rfl, -⟩ := h₁
      · exact ⟨h, rfl⟩
      · exact ⟨h.of_resp rfl rfl rfl rfl, rfl⟩
    have hready := (h₁.1.dropStaleInit (readBe32 pkt)).dropAnswer (readBe32 pkt)
    obtain ⟨hs, hr⟩ := replyShort_sends hready (initAnswer_fits pkt _) (hack hsync hbc) hR
    exact ⟨(Sends.of_eq ((dropped_sent _ s₁).trans h₁.2)).trans hs, hr⟩
  | resynced _ hsync =>
    obtain ⟨short, resync, hd⟩ := dropStaleInit_eq s.busyCid s
    have hshort := (h.dropStaleInit s.busyCid).short
    rw [hd] at hshort ⊢
    refine ⟨.of_eq rfl, hshort, fun _ => ?_, fun _ ha => by cases ha⟩
    have hc := hsync.channel
    rw [hc] at hack
    exact hack hsync ht.not_broadcast
  | first _ _ _ => exact ⟨.of_eq (accept_sent _ _ _), h.accept _ _⟩
  | next _ _ _ => exact ⟨.of_eq (accept_sent _ _ _), h.accept _ _⟩

/-! ### Silence -/

/-- Nothing of the channel's request is held, and none runs that is not
abandoned. -/
structure Clean (X : ℕ) (s : State) : Prop where
  ready : Ready (fun p => ¬ OfRequest X p) s
  running : s.busyCid = X → s.running = true → s.abandoned = true

theorem Clean.packet (ht : Tidy s) (h : Clean X s) (pkt : Packet) :
    Sends (fun p => ¬ OfRequest X p) s (step s (.packet pkt)) ∧ Clean X (step s (.packet pkt)) := by
  have ht' := ht.see pkt
  have hready : Ready (fun p => ¬ OfRequest X p) (s.see pkt) := h.ready.of_resp rfl rfl rfl rfl
  have hh := handlePacket_handled ht' pkt
  obtain ⟨hs, hr⟩ := hh.sends ht' hready (fun cid err _ he => not_ofRequest_transport cid he)
    (fun payload => not_ofRequest_init _ payload) (fun _ _ => not_ofRequest_init _ _) fun _ => id
  refine ⟨hs, hr, ?_⟩
  -- no packet starts a handler, and one that abandons a request says so
  have heff := hh.effect
  change (handlePacket pkt (s.see pkt)).busyCid = X →
    (handlePacket pkt (s.see pkt)).running = true → (handlePacket pkt (s.see pkt)).abandoned = true
  have hacc (cid : ℕ) (a : Assembly) (hb : s.busyCid = 0) :
      ((s.see pkt).accept cid a).running = false := by
    have hrun : s.running = false := by
      by_contra hr
      exact (ht.running (by simpa using hr)).1 hb
    unfold State.accept
    split <;> exact hrun
  generalize handlePacket pkt (s.see pkt) = s' at heff ⊢
  cases heff with
  | answered hf _ =>
    rw [hf.busyCid, hf.running, hf.abandoned]
    exact h.running
  | reset _ hf =>
    rw [hf.busyCid, hf.running, hf.abandoned]
    exact h.running
  | resynced _ _ hf => exact fun _ _ => hf.abandoned
  | first hb _ _ =>
    intro _ hrun
    rw [hacc _ _ hb] at hrun
    cases hrun
  | next hb _ _ =>
    intro _ hrun
    rw [hacc _ _ hb] at hrun
    cases hrun

theorem Clean.finished (h : Ready (fun p => ¬ OfRequest X p) s) :
    Sends (fun p => ¬ OfRequest X p) s (finishRequest s) ∧ Clean X (finishRequest s) := by
  obtain ⟨hs, hr⟩ := finishRequest_sends h
  refine ⟨hs, hr, fun _ hrun => ?_⟩
  rw [(finishRequest_finished s).running] at hrun
  cases hrun

theorem Clean.task (ht : Tidy s) (hw : Words s) (h : Clean X s) (hr : s.running = false)
    (hd : NoneDispatched X s (fidoHidTask s)) :
    Sends (fun p => ¬ OfRequest X p) s (fidoHidTask s) ∧ Clean X (fidoHidTask s) := by
  have hb := fidoHidTask_tasked ht
  -- a dispatched request is not of the channel
  have hne (h : (fidoHidTask s).dispatched = s.request :: s.dispatched) : s.busyCid ≠ X := by
    obtain ⟨new, hnew, hX⟩ := hd
    rw [h] at hnew
    have heq : [s.request] = new := List.append_cancel_right hnew
    exact hX s.request (heq ▸ List.mem_singleton_self _)
  generalize fidoHidTask s = s' at hb hne ⊢
  cases hb with
  | waited _ =>
    obtain ⟨hs, hr'⟩ := sendAnswers_sends (fun ha => (ht.abandoned ha).2) h.ready
    refine ⟨hs, hr', fun _ hrun => ?_⟩
    rw [(sendAnswers_framed s).running, hr] at hrun
    cases hrun
  | discarded _ _ _ =>
    obtain ⟨hs, hc⟩ := Clean.finished (s := beginRequest s) (X := X)
      (h.ready.of_resp rfl rfl rfl rfl)
    exact ⟨hs, hc⟩
  | @answered cmd payload _ _ _ _ =>
    have hne := hne (by rw [(finishRequest_finished _).dispatched]; rfl)
    obtain ⟨hs, hc⟩ := Clean.finished (h.ready.started.queueResponse s.busyCid cmd payload
      (Response.good_other hw.busyCid hne))
    exact ⟨hs, hc⟩
  | rejected _ _ _ =>
    have hne := hne (by
      rw [(finishRequest_finished _).dispatched, (replied_queueError _ _ _).dispatched]
      rfl)
    obtain ⟨hs, hr'⟩ := @queueError_sends _ _ _ s.busyCid errInvalidCmd h.ready.started
      (not_ofRequest_other hw.busyCid hne _ _) fun _ => id
    obtain ⟨hs', hc⟩ := Clean.finished hr'
    have hs : Sends (fun p => ¬ OfRequest X p) s
        (queueError s.busyCid errInvalidCmd s.started) := hs
    exact ⟨hs.trans hs', hc⟩
  | started _ _ _ _ =>
    have hne := hne rfl
    exact ⟨.of_eq rfl, h.ready.started, fun hbusy _ => absurd hbusy hne⟩

theorem Clean.progressed (ht : Tidy s) (hw : Words s) (h : Clean X s) (hp : s.inProgress = true) :
    Sends (fun p => ¬ OfRequest X p) s (progressRest s) ∧ Clean X (progressRest s) := by
  have hrun := ht.inProgress hp
  have hka (ha : s.abandoned = false) (st : UInt8) :
      ¬ OfRequest X (buildPacket s.busyCid (cmdInitFlag ||| cmdKeepalive) [st]) := by
    apply not_ofRequest_other hw.busyCid
    intro hb
    rw [h.running hb hrun] at ha
    cases ha
  obtain ⟨hs, hr⟩ := progressRest_sends h.ready hka
  obtain ⟨s₁, hf, heq⟩ := progressRest_eq s
  refine ⟨hs, hr, ?_⟩
  rw [heq]
  change s₁.busyCid = X → s₁.running = true → s₁.abandoned = true
  rw [hf.busyCid, hf.running, hf.abandoned]
  exact h.running

theorem Clean.finish (hw : Words s) (h : Clean X s) (hrun : s.running = true) (n : Option ℕ) :
    Sends (fun p => ¬ OfRequest X p) s (finishRequest (handleCborReturn s.busyCid n s)) ∧
      Clean X (finishRequest (handleCborReturn s.busyCid n s)) := by
  have hret : Sends (fun p => ¬ OfRequest X p) s (handleCborReturn s.busyCid n s) ∧
      Ready (fun p => ¬ OfRequest X p) (handleCborReturn s.busyCid n s) := by
    by_cases hb : s.busyCid = X
    · have ha := h.running hb hrun
      cases n with
      | none =>
        -- the error of an abandoned request is swallowed
        have : handleCborReturn s.busyCid none s = s := by
          rw [handleCborReturn, queueError, replyShort, if_pos ⟨ha, rfl⟩]
        rw [this]
        exact ⟨.of_eq rfl, h.ready⟩
      | some n =>
        refine ⟨.of_eq rfl, h.ready.short, h.ready.resync, fun _ ha' => ?_⟩
        exact absurd (ha.symm.trans ha') (by decide)
    · cases n with
      | none => exact queueError_sends h.ready (not_ofRequest_other hw.busyCid hb _ _) fun _ => id
      | some n =>
        exact ⟨.of_eq rfl, h.ready.short, h.ready.resync,
          fun _ _ => Response.good_other hw.busyCid hb⟩
  obtain ⟨hs, hc⟩ := Clean.finished hret.2
  exact ⟨hret.1.trans hs, hc⟩

/-- No action but one that dispatches a request of the channel sends or holds
anything of one. -/
theorem Clean.step (ht : Tidy s) (hw : Words s) (h : Clean X s) (a : Act)
    (hd : NoneDispatched X s (step s a)) :
    Sends (fun p => ¬ OfRequest X p) s (step s a) ∧ Clean X (step s a) := by
  cases a with
  | endpoint usb => exact ⟨.of_eq rfl, h.ready.of_resp rfl rfl rfl rfl, h.running⟩
  | clock now => exact ⟨.of_eq rfl, h.ready.of_resp rfl rfl rfl rfl, h.running⟩
  | wait on => exact ⟨.of_eq rfl, h.ready.of_resp rfl rfl rfl rfl, h.running⟩
  | packet pkt => exact h.packet ht pkt
  | task =>
    simp only [Ctaphid.step] at hd ⊢
    split
    · exact ⟨.of_eq rfl, h⟩
    · next hgo =>
      rw [if_neg hgo] at hd
      have hr : s.running = false := by
        simp only [Bool.or_eq_true, not_or, Bool.not_eq_true] at hgo
        exact hgo.1
      exact h.task ht hw hr hd
  | progress =>
    simp only [Ctaphid.step]
    split
    · exact ⟨.of_eq rfl, h⟩
    · exact ⟨.of_eq rfl, h.ready.of_resp rfl rfl rfl rfl, h.running⟩
  | progressed =>
    simp only [Ctaphid.step]
    split
    · next hp => exact h.progressed ht hw hp
    · exact ⟨.of_eq rfl, h⟩
  | scratch buf =>
    simp only [Ctaphid.step]
    split
    · next hgo =>
      refine ⟨.of_eq rfl, ⟨h.ready.short, h.ready.resync, fun hp => ?_⟩, h.running⟩
      rw [(ht.running hgo.1).2] at hp
      cases hp
    · exact ⟨.of_eq rfl, h⟩
  | finish n =>
    simp only [Ctaphid.step]
    split
    · next hgo => exact h.finish hw hgo.1 n
    · exact ⟨.of_eq rfl, h⟩

theorem step_dispatched (ht : Tidy s) (a : Act) :
    ∃ new, (step s a).dispatched = new ++ s.dispatched := by
  cases a with
  | packet pkt =>
    have heff := handlePacket_effect (ht.see pkt) pkt
    change ∃ new, (handlePacket pkt (s.see pkt)).dispatched = new ++ s.dispatched
    generalize handlePacket pkt (s.see pkt) = s' at heff ⊢
    have hacc (cid : ℕ) (a : Assembly) : ((s.see pkt).accept cid a).dispatched = s.dispatched := by
      unfold State.accept
      split <;> rfl
    cases heff with
    | answered hf _ => exact ⟨[], hf.dispatched⟩
    | reset _ hf => exact ⟨[], hf.dispatched⟩
    | resynced _ _ hf => exact ⟨[], hf.dispatched⟩
    | first _ _ _ => exact ⟨[], hacc _ _⟩
    | next _ _ _ => exact ⟨[], hacc _ _⟩
  | task =>
    simp only [Ctaphid.step]
    split
    · exact ⟨[], rfl⟩
    · have hb := fidoHidTask_tasked ht
      generalize fidoHidTask s = s' at hb ⊢
      cases hb with
      | waited _ => exact ⟨[], (sendAnswers_framed s).dispatched⟩
      | discarded _ _ _ => exact ⟨[], (finishRequest_finished _).dispatched⟩
      | answered _ _ _ _ => exact ⟨[s.request], (finishRequest_finished _).dispatched⟩
      | rejected _ _ _ =>
        exact ⟨[s.request], (finishRequest_finished _).dispatched.trans
          (replied_queueError _ _ _).dispatched⟩
      | started _ _ _ _ => exact ⟨[s.request], rfl⟩
  | progressed =>
    simp only [Ctaphid.step]
    split
    · obtain ⟨s₁, hf, heq⟩ := progressRest_eq s
      rw [heq]
      exact ⟨[], hf.dispatched⟩
    · exact ⟨[], rfl⟩
  | finish n =>
    simp only [Ctaphid.step]
    split
    · exact ⟨[], (finishRequest_finished _).dispatched.trans
        (handleCborReturn_framed _ _ _).dispatched⟩
    · exact ⟨[], rfl⟩
  | endpoint usb => exact ⟨[], rfl⟩
  | clock now => exact ⟨[], rfl⟩
  | wait on => exact ⟨[], rfl⟩
  | progress =>
    simp only [Ctaphid.step]
    split <;> exact ⟨[], rfl⟩
  | scratch buf =>
    simp only [Ctaphid.step]
    split <;> exact ⟨[], rfl⟩

theorem runFrom_dispatched (ht : Tidy s) (post : List Act) :
    ∃ new, (system.runFrom s post).dispatched = new ++ s.dispatched := by
  induction post generalizing s with
  | nil => exact ⟨[], rfl⟩
  | cons a post ih =>
    obtain ⟨new, h⟩ := step_dispatched ht a
    obtain ⟨new', h'⟩ := ih (ht.step a)
    refine ⟨new' ++ new, ?_⟩
    rw [List.append_assoc, ← h]
    exact h'

/-- A clean channel stays silent. -/
theorem Clean.silenced (ht : Tidy s) (hw : Words s) (h : Clean X s) : Silenced X s := by
  intro post hd
  induction post generalizing s with
  | nil => exact .of_eq rfl
  | cons a post ih =>
    obtain ⟨new, hnew, hX⟩ := hd
    obtain ⟨new₁, h₁⟩ := step_dispatched ht a
    obtain ⟨new₂, h₂⟩ := runFrom_dispatched (ht.step a) post
    have heq : new = new₂ ++ new₁ := by
      apply @List.append_cancel_right _ _ s.dispatched
      rw [← hnew, List.append_assoc, ← h₁, ← h₂]
      rfl
    subst heq
    obtain ⟨hs, hc⟩ := h.step ht hw a
      ⟨new₁, h₁, fun r hr => hX r (List.mem_append_right _ hr)⟩
    have hrest : NoneDispatched X (Ctaphid.step s a) (system.runFrom (Ctaphid.step s a) post) :=
      ⟨new₂, h₂, fun r hr => hX r (List.mem_append_left _ hr)⟩
    exact hs.trans (ih (ht.step a) (hw.step ht a) hc hrest)

/-! ### The abandoned request -/

/-- An abandoned request stays abandoned until it is over, and is not
dispatched. -/
theorem step_abandoned (ht : Tidy s) (ha : s.abandoned = true) (a : Act) :
    (step s a).dispatched = s.dispatched ∧ ((step s a).abandoned = true ∨
      (step s a).asm = emptyAssembly ∧ (step s a).busyCid = 0) := by
  have hb := (ht.abandoned ha).1
  have hframed {s' : State} (hf : Framed s s') : s'.dispatched = s.dispatched ∧
      (s'.abandoned = true ∨ s'.asm = emptyAssembly ∧ s'.busyCid = 0) :=
    ⟨hf.dispatched, .inl (hf.abandoned.trans ha)⟩
  cases a with
  | packet pkt =>
    have heff := handlePacket_effect (ht.see pkt) pkt
    change (handlePacket pkt (s.see pkt)).dispatched = s.dispatched ∧
      ((handlePacket pkt (s.see pkt)).abandoned = true ∨ _)
    generalize handlePacket pkt (s.see pkt) = s' at heff ⊢
    cases heff with
    | answered hf _ => exact ⟨hf.dispatched, .inl (hf.abandoned.trans ha)⟩
    | reset hb' _ => exact absurd hb' hb
    | resynced _ _ hf => exact ⟨hf.dispatched, .inl hf.abandoned⟩
    | first hb' _ _ => exact absurd hb' hb
    | next hb' _ _ => exact absurd hb' hb
  | task =>
    simp only [Ctaphid.step]
    split
    · exact ⟨rfl, .inl ha⟩
    · have htask := fidoHidTask_tasked ht
      generalize fidoHidTask s = s' at htask ⊢
      cases htask with
      | waited _ => exact hframed (sendAnswers_framed s)
      | discarded _ _ _ =>
        have hf := finishRequest_finished (beginRequest s)
        exact ⟨hf.dispatched, .inr ⟨hf.asm, hf.busyCid⟩⟩
      | answered _ _ ha' _ => exact absurd (ha.symm.trans ha') (by decide)
      | rejected _ _ ha' => exact absurd (ha.symm.trans ha') (by decide)
      | started _ _ ha' _ => exact absurd (ha.symm.trans ha') (by decide)
  | progressed =>
    simp only [Ctaphid.step]
    split
    · obtain ⟨s₁, hf, heq⟩ := progressRest_eq s
      rw [heq]
      exact ⟨hf.dispatched, .inl (hf.abandoned.trans ha)⟩
    · exact ⟨rfl, .inl ha⟩
  | finish n =>
    simp only [Ctaphid.step]
    split
    · have hf := finishRequest_finished (handleCborReturn s.busyCid n s)
      exact ⟨hf.dispatched.trans (handleCborReturn_framed _ _ _).dispatched,
        .inr ⟨hf.asm, hf.busyCid⟩⟩
    · exact ⟨rfl, .inl ha⟩
  | endpoint usb => exact ⟨rfl, .inl ha⟩
  | clock now => exact ⟨rfl, .inl ha⟩
  | wait on => exact ⟨rfl, .inl ha⟩
  | progress =>
    simp only [Ctaphid.step]
    split <;> exact ⟨rfl, .inl ha⟩
  | scratch buf =>
    simp only [Ctaphid.step]
    split <;> exact ⟨rfl, .inl ha⟩

theorem neverRuns_of_abandoned (ht : Tidy s) (ha : s.abandoned = true) : NeverRuns s := by
  intro post
  induction post generalizing s with
  | nil => exact .inl rfl
  | cons a post ih =>
    obtain ⟨hd, ha' | ⟨hasm, hb⟩⟩ := step_abandoned ht ha a
    · obtain hd' | ⟨p, q, rfl, hd', hp⟩ := ih (ht.step a) ha'
      · exact .inl (hd'.trans hd)
      · exact .inr ⟨a :: p, q, rfl, hd'.trans hd, hp⟩
    · exact .inr ⟨[a], post, rfl, hd, hasm, hb⟩

/-! ### Acknowledgements -/

/-- A channel INIT: `handle_init` keeps the channel. -/
structure Syncs (pkt : Packet) : Prop extends IsSync (readBe32 pkt) pkt where
  channel_ne : readBe32 pkt ≠ 0
  not_broadcast : readBe32 pkt ≠ cidBroadcast

theorem newestNonce_cons_self {pkt : Packet} {w : Bool} (h : IsSync (readBe32 pkt) pkt)
    (seen : List Seen) : newestNonce (readBe32 pkt) (⟨pkt, w⟩ :: seen) = some (nonceOf pkt) := by
  simp [newestNonce, h]

theorem newestNonce_cons_of_not {x : Seen} (h : ¬ IsSync X x.pkt) (seen : List Seen) :
    newestNonce X (x :: seen) = newestNonce X seen := by
  simp [newestNonce, h]

theorem fresh_of_byte4 {seen : List Seen} {p : Packet} (h : byte4 p ≠ cmdInitFlag ||| cmdInit) :
    Fresh seen p :=
  fun _ _ hb => absurd hb h

theorem fresh_of_cont {seen : List Seen} {p : Packet} (h : isInitPacket p = false) :
    Fresh seen p := by
  apply fresh_of_byte4
  intro hb
  rw [isInitPacket, hb] at h
  exact absurd h (by decide)

/-- A packet that is no channel INIT leaves the acknowledgements fresh. -/
theorem Fresh.see {seen : List Seen} {p : Packet} {x : Seen} (h : Fresh seen p)
    (hx : ¬ Syncs x.pkt) : Fresh (x :: seen) p := by
  intro h0 hbc hb
  rw [newestNonce_cons_of_not, h h0 hbc hb]
  intro hs
  have hc := hs.channel
  rw [← hc] at hs h0 hbc
  exact hx ⟨hs, h0, hbc⟩

/-- One of another channel does too. -/
theorem Fresh.see_other {seen : List Seen} {p : Packet} {x : Seen} (h : Fresh seen p)
    (hx : readBe32 x.pkt ≠ readBe32 p) : Fresh (x :: seen) p := by
  intro h0 hbc hb
  rw [newestNonce_cons_of_not, h h0 hbc hb]
  exact fun hs => hx hs.channel

theorem fresh_syncAnswer {pkt : Packet} {w : Bool} (h : IsSync (readBe32 pkt) pkt)
    (seen : List Seen) :
    Fresh (⟨pkt, w⟩ :: seen)
      (buildPacket (readBe32 pkt) (cmdInitFlag ||| cmdInit) (syncAnswer pkt)) := by
  intro _ _ _
  have hlen : (nonceOf pkt).length = 8 := by
    have := h.length
    simp only [reportLen] at this
    rw [nonceOf, List.length_take, List.length_drop]
    omega
  rw [readBe32_buildPacket (readBe32_lt pkt), newestNonce_cons_self h, syncAnswer, initAnswer,
    List.append_assoc, nonceOf_buildPacket hlen]

theorem Response.Good.mono {G' : Packet → Prop} {r : Response} (hG : ∀ p, G p → G' p)
    (h : r.Good G) : r.Good G' :=
  ⟨hG _ h.next, fun hm p hp hc => hG p (h.more hm p hp hc)⟩

theorem Ready.mono {G' : Packet → Prop} (hG : ∀ p, G p → G' p) (h : Ready G s) : Ready G' s :=
  ⟨fun hp => hG _ (h.short hp), fun hp => hG _ (h.resync hp), fun hp ha => (h.resp hp ha).mono hG⟩

/-- An answer that acknowledges no INIT. -/
theorem Response.good_fresh {seen : List Seen} {r : Response} (hs : r.sent = 0)
    (hcmd : r.cmd ≠ cmdInitFlag ||| cmdInit) : r.Good (Fresh seen) where
  next := by
    apply fresh_of_byte4
    have : byte4 r.next.1 = r.cmd := by
      simp only [Response.next, hs, beq_self_eq_true, if_true]
      rfl
    rw [this]
    exact hcmd
  more := fun _ _ _ hc => fresh_of_cont hc

/-- What the INIT clears of its channel: the older acknowledgements. -/
structure Cleared (X : ℕ) (s s₁ : State) : Prop where
  busyCid : s₁.busyCid = s.busyCid
  running : s₁.running = s.running
  abandoned : s₁.abandoned = s.abandoned
  usb : s₁.usb = s.usb
  sent : s₁.sent = s.sent
  short : s₁.short.pending = true → s₁.short = s.short ∧
    ¬ (readBe32 s.short.pkt = X ∧ byte4 s.short.pkt = cmdInitFlag ||| cmdInit)
  kept : byte4 s.short.pkt ≠ cmdInitFlag ||| cmdInit → s₁.short = s.short
  resync : s₁.resync.pending = true → s₁.resync = s.resync ∧ readBe32 s.resync.pkt ≠ X

/-- An INIT on a channel. -/
inductive SyncHandled (pkt : Packet) (s : State) : State → Prop
  | abandoned {s₁ : State} (hb : readBe32 pkt = s.busyCid) (h : Cleared (readBe32 pkt) s s₁) :
      SyncHandled pkt s (abandon (readBe32 pkt) (syncAnswer pkt) s₁)
  | answered {s₁ : State} (hb : readBe32 pkt ≠ s.busyCid) (h : Cleared (readBe32 pkt) s s₁)
      (hresp : s₁.resp.pending = true → s₁.resp = s.resp ∧ s.resp.cid ≠ readBe32 pkt)
      (hkept : s.resp.cid ≠ readBe32 pkt → s₁.resp = s.resp) :
      SyncHandled pkt s
        (replyShort (readBe32 pkt) (cmdInitFlag ||| cmdInit) (syncAnswer pkt) s₁)

theorem syncAssembly_eq (cid : ℕ) (s : State) :
    ∃ asm, syncAssembly cid s = { s with asm := asm } := by
  unfold syncAssembly
  split
  · exact ⟨_, rfl⟩
  · exact ⟨s.asm, rfl⟩

theorem cleared_dropStaleInit (X : ℕ) (s : State) : Cleared X s (Ctaphid.dropStaleInit X s) := by
  obtain ⟨short, resync, hd⟩ := dropStaleInit_eq X s
  refine ⟨?_, ?_, ?_, ?_, ?_, dropStaleInit_short, dropStaleInit_keeps, dropStaleInit_resync⟩
  all_goals rw [hd]

theorem step_sync {pkt : Packet} (hp : Syncs pkt) (s : State) :
    SyncHandled pkt s (step s (.packet pkt)) := by
  obtain ⟨asm, hasm⟩ := syncAssembly_eq (readBe32 pkt) (s.see pkt)
  have hc := cleared_dropStaleInit (readBe32 pkt) { s.see pkt with asm := asm }
  have hresp : (Ctaphid.dropStaleInit (readBe32 pkt) { s.see pkt with asm := asm }).resp =
      s.resp := by
    obtain ⟨short, resync, hd⟩ := dropStaleInit_eq (readBe32 pkt) { s.see pkt with asm := asm }
    rw [hd]
    rfl
  rw [Ctaphid.step, handlePacket_sync hp.toIsSync hp.channel_ne hp.not_broadcast, hasm]
  generalize Ctaphid.dropStaleInit (readBe32 pkt) { s.see pkt with asm := asm } = s₁ at hc hresp ⊢
  have hc : Cleared (readBe32 pkt) s s₁ :=
    ⟨hc.busyCid, hc.running, hc.abandoned, hc.usb, hc.sent, hc.short, hc.kept, hc.resync⟩
  split
  · next hb => exact .abandoned hb hc
  · next hb =>
    obtain ⟨resp, hda⟩ := dropAnswer_eq (readBe32 pkt) s₁
    have hb' : readBe32 pkt ≠ s.busyCid := hb
    apply SyncHandled.answered hb'
    · rw [hda]
      exact ⟨hc.busyCid, hc.running, hc.abandoned, hc.usb, hc.sent, hc.short, hc.kept, hc.resync⟩
    · intro hpend
      have h := dropAnswer_resp hpend
      rwa [hresp] at h
    · intro hne
      rw [Ctaphid.dropAnswer, if_neg (fun h => hne (hresp ▸ h.2))]
      exact hresp

theorem Cleared.fresh_short {pkt : Packet} {w : Bool} {seen : List Seen} {s₁ : State}
    (h : Cleared (readBe32 pkt) s s₁) (hf : Ready (Fresh seen) s) (hp : s₁.short.pending = true) :
    Fresh (⟨pkt, w⟩ :: seen) s₁.short.pkt := by
  obtain ⟨heq, hne⟩ := h.short hp
  rw [heq] at hp ⊢
  by_cases hc : readBe32 s.short.pkt = readBe32 pkt
  · exact fresh_of_byte4 fun hb => hne ⟨hc, hb⟩
  · exact (hf.short hp).see_other (Ne.symm hc)

/-- An INIT on a channel is acknowledged with its nonce, and nothing older is
left to acknowledge. -/
theorem fresh_syncs {pkt : Packet} (hw : Words s) (h : Ready (Fresh s.seen) s) (hp : Syncs pkt) :
    Sends (Fresh (s.see pkt).seen) s (step s (.packet pkt)) ∧
      Ready (Fresh (s.see pkt).seen) (step s (.packet pkt)) := by
  have hack : Fresh (s.see pkt).seen
      (buildPacket (readBe32 pkt) (cmdInitFlag ||| cmdInit) (syncAnswer pkt)) :=
    fresh_syncAnswer hp.toIsSync s.seen
  have hh := step_sync hp s
  generalize step s (.packet pkt) = s' at hh ⊢
  cases hh with
  | abandoned hb hc =>
    exact ⟨.of_eq hc.sent, hc.fresh_short h, fun _ => hack, fun _ ha => by cases ha⟩
  | @answered s₁ hb hc hresp _ =>
    have hready : Ready (Fresh (s.see pkt).seen) s₁ := by
      refine ⟨hc.fresh_short h, ?_, ?_⟩
      · intro hpend
        obtain ⟨heq, hne⟩ := hc.resync hpend
        rw [heq] at hpend ⊢
        exact (h.resync hpend).see_other (Ne.symm hne)
      · intro hpend ha
        obtain ⟨heq, hne⟩ := hresp hpend
        rw [heq] at hpend ⊢
        have hgood := h.resp hpend (hc.abandoned ▸ ha)
        refine ⟨hgood.next.see_other ?_, fun _ _ _ hc => fresh_of_cont hc⟩
        rw [Response.next_channel, readBe32_writeBe32 hw.resp]
        exact Ne.symm hne
    obtain ⟨hs, hr⟩ := replyShort_sends hready (initAnswer_fits pkt _) hack fun _ => id
    exact ⟨(Sends.of_eq hc.sent).trans hs, hr⟩

theorem fresh_packet (ht : Tidy s) (hw : Words s) (h : Ready (Fresh s.seen) s) (pkt : Packet) :
    Sends (Fresh (s.see pkt).seen) s (step s (.packet pkt)) ∧
      Ready (Fresh (s.see pkt).seen) (step s (.packet pkt)) := by
  by_cases hp : Syncs pkt
  · exact fresh_syncs hw h hp
  · have hready : Ready (Fresh (s.see pkt).seen) (s.see pkt) :=
      Ready.mono (fun p hf => hf.see hp) (h.of_resp rfl rfl rfl rfl)
    apply (handlePacket_handled (ht.see pkt) pkt).sends (ht.see pkt) hready
    · exact fun cid err _ _ => fresh_of_byte4 (by rw [byte4_buildPacket]; decide)
    · intro payload _ hbc
      exact absurd (readBe32_buildPacket (by decide) _ _) hbc
    · intro hs hbc h0
      rw [readBe32_buildPacket (readBe32_lt pkt)] at h0
      exact absurd ⟨hs, h0, hbc⟩ hp
    · exact fun _ => id

theorem fresh_task (ht : Tidy s) {seen : List Seen} (h : Ready (Fresh seen) s) :
    Sends (Fresh seen) s (fidoHidTask s) ∧ Ready (Fresh seen) (fidoHidTask s) := by
  have hb := fidoHidTask_tasked ht
  generalize fidoHidTask s = s' at hb ⊢
  cases hb with
  | waited _ => exact sendAnswers_sends (fun ha => (ht.abandoned ha).2) h
  | discarded _ _ _ =>
    obtain ⟨hs, hr⟩ := finishRequest_sends (s := beginRequest s) (h.of_resp rfl rfl rfl rfl)
    exact ⟨hs, hr⟩
  | @answered cmd payload _ _ _ hcmd =>
    obtain ⟨hs, hr⟩ := finishRequest_sends (h.started.queueResponse s.busyCid cmd payload
      (Response.good_fresh rfl hcmd))
    exact ⟨hs, hr⟩
  | rejected _ _ _ =>
    obtain ⟨hs, hr⟩ := @queueError_sends _ _ _ s.busyCid errInvalidCmd h.started
      (fresh_of_byte4 (by rw [byte4_buildPacket]; decide)) fun _ => id
    obtain ⟨hs', hr'⟩ := finishRequest_sends hr
    have hs : Sends (Fresh seen) s (queueError s.busyCid errInvalidCmd s.started) := hs
    exact ⟨hs.trans hs', hr'⟩
  | started _ _ _ _ => exact ⟨.of_eq rfl, h.started⟩

theorem fresh_finish {seen : List Seen} (h : Ready (Fresh seen) s) (n : Option ℕ) :
    Sends (Fresh seen) s (finishRequest (handleCborReturn s.busyCid n s)) ∧
      Ready (Fresh seen) (finishRequest (handleCborReturn s.busyCid n s)) := by
  have hret : Sends (Fresh seen) s (handleCborReturn s.busyCid n s) ∧
      Ready (Fresh seen) (handleCborReturn s.busyCid n s) := by
    cases n with
    | none =>
      exact queueError_sends h (fresh_of_byte4 (by rw [byte4_buildPacket]; decide)) fun _ => id
    | some n =>
      exact ⟨.of_eq rfl, h.short, h.resync, fun _ _ =>
        Response.good_fresh rfl (show cmdInitFlag ||| cmdCbor ≠ cmdInitFlag ||| cmdInit by decide)⟩
  obtain ⟨hs, hr⟩ := finishRequest_sends hret.2
  exact ⟨hret.1.trans hs, hr⟩

/-- The packets handled after an action. -/
def seenAfter (s : State) : Act → List Seen
  | .packet pkt => (s.see pkt).seen
  | _ => s.seen

theorem step_seen (ht : Tidy s) (a : Act) : (step s a).seen = seenAfter s a := by
  cases a with
  | packet pkt =>
    have heff := handlePacket_effect (ht.see pkt) pkt
    change (handlePacket pkt (s.see pkt)).seen = (s.see pkt).seen
    generalize handlePacket pkt (s.see pkt) = s' at heff ⊢
    have hacc (cid : ℕ) (a : Assembly) : ((s.see pkt).accept cid a).seen = (s.see pkt).seen := by
      unfold State.accept
      split <;> rfl
    cases heff with
    | answered hf _ => exact hf.seen
    | reset _ hf => exact hf.seen
    | resynced _ _ hf => exact hf.seen
    | first _ _ _ => exact hacc _ _
    | next _ _ _ => exact hacc _ _
  | task =>
    simp only [Ctaphid.step, seenAfter]
    split
    · rfl
    · have hb := fidoHidTask_tasked ht
      generalize fidoHidTask s = s' at hb ⊢
      cases hb with
      | waited _ => exact (sendAnswers_framed s).seen
      | discarded _ _ _ => exact (finishRequest_finished _).seen
      | answered _ _ _ _ => exact (finishRequest_finished _).seen
      | rejected _ _ _ =>
        exact (finishRequest_finished _).seen.trans (replied_queueError _ _ _).seen
      | started _ _ _ _ => rfl
  | progressed =>
    simp only [Ctaphid.step, seenAfter]
    split
    · obtain ⟨s₁, hf, heq⟩ := progressRest_eq s
      rw [heq]
      exact hf.seen
    · rfl
  | finish n =>
    simp only [Ctaphid.step, seenAfter]
    split
    · exact (finishRequest_finished _).seen.trans (handleCborReturn_framed _ _ _).seen
    · rfl
  | endpoint usb => rfl
  | clock now => rfl
  | wait on => rfl
  | progress =>
    simp only [Ctaphid.step, seenAfter]
    split <;> rfl
  | scratch buf =>
    simp only [Ctaphid.step, seenAfter]
    split <;> rfl

/-- Every acknowledgement that goes out, or is held, is fresh. -/
theorem fresh_step (ht : Tidy s) (hw : Words s) (h : Ready (Fresh s.seen) s) (a : Act) :
    Sends (Fresh (step s a).seen) s (step s a) ∧ Ready (Fresh (step s a).seen) (step s a) := by
  rw [step_seen ht a]
  cases a with
  | endpoint usb => exact ⟨.of_eq rfl, h.of_resp rfl rfl rfl rfl⟩
  | clock now => exact ⟨.of_eq rfl, h.of_resp rfl rfl rfl rfl⟩
  | wait on => exact ⟨.of_eq rfl, h.of_resp rfl rfl rfl rfl⟩
  | packet pkt => exact fresh_packet ht hw h pkt
  | task =>
    simp only [Ctaphid.step, seenAfter]
    split
    · exact ⟨.of_eq rfl, h⟩
    · exact fresh_task ht h
  | progress =>
    simp only [Ctaphid.step, seenAfter]
    split
    · exact ⟨.of_eq rfl, h⟩
    · exact ⟨.of_eq rfl, h.of_resp rfl rfl rfl rfl⟩
  | progressed =>
    simp only [Ctaphid.step, seenAfter]
    split
    · exact progressRest_sends h fun _ _ => fresh_of_byte4 (by rw [byte4_buildPacket]; decide)
    · exact ⟨.of_eq rfl, h⟩
  | scratch buf =>
    simp only [Ctaphid.step, seenAfter]
    split
    · next hgo =>
      refine ⟨.of_eq rfl, h.short, h.resync, fun hp => ?_⟩
      rw [(ht.running hgo.1).2] at hp
      cases hp
    · exact ⟨.of_eq rfl, h⟩
  | finish n =>
    simp only [Ctaphid.step, seenAfter]
    split
    · exact fresh_finish h n
    · exact ⟨.of_eq rfl, h⟩

/-- What the invariants say together. -/
structure Held (s : State) : Prop where
  tidy : Tidy s
  words : Words s
  fresh : Ready (Fresh s.seen) s

theorem held_run (acts : List Act) : Held (system.run acts) := by
  apply Runs.System.run_keeps (M := system) (I := Held)
  · refine ⟨tidy_fidoHidInit, words_run [], ?_, ?_, ?_⟩
    · rintro ⟨⟩
    · rintro ⟨⟩
    · rintro ⟨⟩
  · exact fun s a h => ⟨h.tidy.step a, h.words.step h.tidy a,
      (fresh_step h.tidy h.words h.fresh a).2⟩

theorem Held.acksNewest (h : Held s) : AcksNewest s := by
  intro post a
  have hpost : Held (system.runFrom s post) := by
    apply Runs.System.runFrom_keeps (M := system) (I := Held)
    · exact fun s a h =>
        ⟨h.tidy.step a, h.words.step h.tidy a, (fresh_step h.tidy h.words h.fresh a).2⟩
    · exact h
  rw [system.runFrom_append]
  exact (fresh_step hpost.tidy hpost.words hpost.fresh a).1

/-! ### A waiting error answer -/

/-- The short slot is sent first, so that it is free for the answer. -/
theorem replyShort_flushed {cid : ℕ} (cmd : UInt8) {payload : Packet}
    (hlen : payload.length ≤ initDataLen) (ha : ¬ (s.abandoned = true ∧ cid = s.busyCid))
    (hb : s.busyCid ≠ 0 ∨ s.resp.pending = true)
    {usb : ℕ → Bool} {sent : List Packet} {p : Packet}
    (hf : flushShort s = { s with usb := usb, sent := sent, short := ⟨p, false⟩ }) :
    replyShort cid cmd payload s =
      replyShort cid cmd payload { s with usb := usb, sent := sent, short := ⟨p, false⟩ } := by
  have hidle : flushShort { s with usb := usb, sent := sent, short := ⟨p, false⟩ } =
      { s with usb := usb, sent := sent, short := ⟨p, false⟩ } := rfl
  have hp : flushPending s =
      flushPending { s with usb := usb, sent := sent, short := ⟨p, false⟩ } := by
    rw [flushPending, flushPending, hf, hidle]
  unfold replyShort
  rw [if_neg ha, if_pos hb, if_neg ha, if_pos hb]
  have hfits : ¬ initDataLen < payload.length := by omega
  unfold sendNow
  rw [if_neg hfits, if_neg hfits, hp]

theorem sendAnswers_flushed {usb : ℕ → Bool} {sent : List Packet} {p : Packet}
    (hf : flushShort s = { s with usb := usb, sent := sent, short := ⟨p, false⟩ }) :
    sendAnswers s = sendAnswers { s with usb := usb, sent := sent, short := ⟨p, false⟩ } := by
  have hidle : flushShort { s with usb := usb, sent := sent, short := ⟨p, false⟩ } =
      { s with usb := usb, sent := sent, short := ⟨p, false⟩ } := rfl
  unfold sendAnswers
  rw [flushPending, flushPending, hf, hidle]

theorem flushShort_taken (hp : s.short.pending = true) (h₀ : s.usb 0 = true)
    (h₁ : s.usb 1 = true) : ∃ usb, flushShort s = { s with
      usb := usb, sent := s.sent ++ [s.short.pkt], short := ⟨s.short.pkt, false⟩ } := by
  simp only [flushShort, if_pos hp]
  simp only [pushPacket, tudHidReady, tudHidReport, h₀, h₁, if_true]
  exact ⟨_, rfl⟩

theorem flushShort_refused (hp : s.short.pending = true)
    (h : ¬ (s.usb 0 = true ∧ s.usb 1 = true)) : ∃ usb, flushShort s = { s with usb := usb } := by
  simp only [flushShort, if_pos hp]
  cases h₀ : s.usb 0 with
  | false =>
    simp only [pushPacket, tudHidReady, h₀]
    exact ⟨_, rfl⟩
  | true =>
    have h₁ : s.usb 1 = false := by simpa [h₀] using h
    simp only [pushPacket, tudHidReady, tudHidReport, h₀, h₁]
    exact ⟨_, rfl⟩

/-- A packet of channel 0 is refused. -/
theorem step_zeros (s : State) : step s (.packet (List.replicate reportLen 0)) =
    queueError 0 errInvalidChannel (s.see (List.replicate reportLen 0)) := by
  have hlen : ¬ (List.replicate reportLen (0 : UInt8)).length < reportLen := by
    rw [List.length_replicate]
    omega
  rw [Ctaphid.step, handlePacket, if_neg hlen, if_pos (by decide)]

theorem queueError_sent_short (ht : Tidy s) (hacc : s.Accepting) (hp : s.short.pending = true)
    (hb : s.busyCid ≠ 0 ∨ s.resp.pending = true) (err : UInt8) :
    ∃ out, (queueError 0 err s).sent = s.sent ++ s.short.pkt :: out := by
  obtain ⟨usb, hf⟩ := flushShort_taken hp (congrFun hacc 0) (congrFun hacc 1)
  have ha : ¬ (s.abandoned = true ∧ 0 = s.busyCid) := fun h => (ht.abandoned h.1).1 h.2.symm
  have hany : Ready (fun _ => True) { s with
      usb := usb, sent := s.sent ++ [s.short.pkt], short := ⟨s.short.pkt, false⟩ } :=
    .of_slots (fun _ => trivial) fun _ => trivial
  obtain ⟨out, hout, -⟩ : Sends (fun _ => True) _ (queueError 0 err _) :=
    (queueError_sends hany trivial fun _ => id).1
  refine ⟨out, ?_⟩
  rw [queueError, replyShort_flushed _ (by simp [initDataLen]) ha hb hf]
  exact hout.trans (by rw [List.append_assoc]; rfl)

theorem sendAnswers_sent_short (hacc : s.Accepting) (ha : s.abandoned = false)
    (hp : s.short.pending = true) :
    ∃ out, (sendAnswers s).sent = s.sent ++ s.short.pkt :: out := by
  obtain ⟨usb, hf⟩ := flushShort_taken hp (congrFun hacc 0) (congrFun hacc 1)
  obtain ⟨out, hout, -⟩ := (sendAnswers_sends (G := fun _ => True)
    (s := { s with usb := usb, sent := s.sent ++ [s.short.pkt], short := ⟨s.short.pkt, false⟩ })
    (fun h => absurd (ha.symm.trans h) (by decide))
    ⟨fun _ => trivial, fun _ => trivial, fun _ _ => ⟨trivial, fun _ _ _ _ => trivial⟩⟩).1
  refine ⟨out, ?_⟩
  rw [sendAnswers_flushed hf]
  exact hout.trans (by rw [List.append_assoc]; rfl)

/-- A held answer may still go out before anything is dispatched. -/
theorem short_goes_out (ht : Tidy s) (hp : s.short.pending = true) :
    ∃ post out, (system.runFrom s post).dispatched = s.dispatched ∧
      (system.runFrom s post).sent = s.sent ++ s.short.pkt :: out := by
  by_cases hb : s.busyCid ≠ 0 ∨ s.resp.pending = true
  · have ht₁ := (ht.step (.endpoint fun _ => true)).see (List.replicate reportLen 0)
    have hrun (a b : Act) : system.runFrom s [a, b] = step (step s a) b := rfl
    obtain ⟨out, hout⟩ := queueError_sent_short ht₁ rfl hp hb errInvalidChannel
    refine ⟨[.endpoint fun _ => true, .packet (List.replicate reportLen 0)], out, ?_, ?_⟩
    · rw [hrun, step_zeros, (replied_queueError _ _ _).dispatched]
      rfl
    · rw [hrun, step_zeros]
      exact hout
  · push Not at hb
    have hr : s.running = false := by
      by_contra hr
      exact (ht.running (by simpa using hr)).1 hb.1
    have ha : s.abandoned = false := by
      by_contra ha
      exact (ht.abandoned (by simpa using ha)).1 hb.1
    obtain ⟨s₁, hs₁⟩ : ∃ s₁, s₁ = { s with usb := fun _ => true, awaiting := false } := ⟨_, rfl⟩
    have hrun : system.runFrom s [.endpoint fun _ => true, .wait false, .task] =
        step s₁ .task := by
      rw [hs₁]
      rfl
    have htask : step s₁ .task = sendAnswers s₁ := by
      have hgo : ¬ (s₁.running || s₁.awaiting) = true := by simp [hs₁, hr]
      have hidle : ¬ (s₁.busyCid ≠ 0 ∧ !s₁.resp.pending) := fun h => h.1 (hs₁ ▸ hb.1)
      rw [Ctaphid.step, if_neg hgo, fidoHidTask, if_neg hidle]
    obtain ⟨out, hout⟩ := sendAnswers_sent_short (s := s₁) (hs₁ ▸ rfl) (hs₁ ▸ ha) (hs₁ ▸ hp)
    refine ⟨[.endpoint fun _ => true, .wait false, .task], out, ?_, ?_⟩
    · rw [hrun, htask, (sendAnswers_framed s₁).dispatched, hs₁]
    · rw [hrun, htask, hout, hs₁]

/-! ### Resync -/

/-- The flush of a `sendNow` refused by USB leaves the short slot, and the new
answer is lost. -/
theorem sendNow_refused {cid : ℕ} {cmd : UInt8} {payload : Packet} (hp : s.short.pending = true)
    (h : ¬ (s.usb 0 = true ∧ s.usb 1 = true)) : (sendNow cid cmd payload s).short = s.short := by
  obtain ⟨usb, hf⟩ := flushShort_refused hp h
  have hpend : flushPending s = (false, { s with usb := usb }) := by
    have hr : flushResync { s with usb := usb } = { s with usb := usb } := by
      simp [flushResync, hp]
    rw [flushPending, hf, hr]
    simp [hp]
  unfold sendNow
  split
  · rfl
  · rw [hpend]
    simp [keepShort, hp]

/-- What the short slot holds of the request, the INIT leaves there. -/
theorem Stranded.kept {pkt : Packet} (hp : Syncs pkt) (h : Stranded (readBe32 pkt) s) :
    (step s (.packet pkt)).short = s.short := by
  obtain ⟨hpend, hof, hfl⟩ := h
  have hh := step_sync hp s
  generalize step s (.packet pkt) = s' at hh ⊢
  cases hh with
  | abandoned hb hc => exact hc.kept hof.2.1
  | @answered s₁ hb hc hresp _ =>
    have hkeep := hc.kept hof.2.1
    unfold replyShort
    split
    · exact hkeep
    · split
      · next hq =>
        -- an answer that still waits is one of another channel
        have hq' : s.busyCid ≠ 0 ∨ s.resp.pending = true ∧ s.resp.cid ≠ readBe32 pkt := by
          refine hq.imp (fun h => hc.busyCid ▸ h) fun h => ?_
          obtain ⟨heq, hne⟩ := hresp h
          exact ⟨heq ▸ h, hne⟩
        have husb : ¬ (s₁.usb 0 = true ∧ s₁.usb 1 = true) := by
          rw [hc.usb]
          exact fun hu => hfl ⟨hb, hq', hu⟩
        exact (sendNow_refused (hkeep ▸ hpend) husb).trans hkeep
      · exact hkeep

/-- Unless an error answer is stranded, nothing of the channel's request is
left after the INIT. -/
theorem clean_of_not_stranded {pkt : Packet} (hw : Words s) (hp : Syncs pkt)
    (h : ¬ Stranded (readBe32 pkt) s) : Clean (readBe32 pkt) (step s (.packet pkt)) := by
  have hh := step_sync hp s
  generalize step s (.packet pkt) = s' at hh ⊢
  cases hh with
  | abandoned hb hc =>
    refine ⟨⟨?_, fun _ => not_ofRequest_init _ _, fun _ ha => by cases ha⟩, fun _ _ => rfl⟩
    intro hpend hof
    have heq := (hc.short hpend).1
    exact h ⟨heq ▸ hpend, heq ▸ hof, fun hn => hn.1 hb⟩
  | @answered s₁ hb hc hresp hkept =>
    have hresync (hpend : s₁.resync.pending = true) : ¬ OfRequest (readBe32 pkt) s₁.resync.pkt := by
      obtain ⟨heq, hne⟩ := hc.resync hpend
      exact fun hof => hne (heq ▸ hof.1)
    have hanswer (hpend : s₁.resp.pending = true) :
        s₁.resp.Good fun p => ¬ OfRequest (readBe32 pkt) p := by
      obtain ⟨heq, hne⟩ := hresp hpend
      exact heq ▸ Response.good_other hw.resp hne
    have hrun : (replyShort (readBe32 pkt) (cmdInitFlag ||| cmdInit) (syncAnswer pkt) s₁).busyCid =
        s.busyCid := (replied_replyShort _ _ _ _).busyCid.trans hc.busyCid
    refine ⟨?_, fun hbusy => absurd (hbusy.symm.trans hrun) hb⟩
    by_cases hof : s₁.short.pending = true ∧ OfRequest (readBe32 pkt) s₁.short.pkt
    · -- USB takes the error answer before the acknowledgement
      obtain ⟨heq, -⟩ := hc.short hof.1
      have htaken : readBe32 pkt ≠ s.busyCid ∧
          (s.busyCid ≠ 0 ∨ s.resp.pending = true ∧ s.resp.cid ≠ readBe32 pkt) ∧
          s.usb 0 = true ∧ s.usb 1 = true := by
        by_contra hn
        exact h ⟨heq ▸ hof.1, heq ▸ hof.2, hn⟩
      obtain ⟨-, hq, h₀, h₁⟩ := htaken
      rw [← hc.usb] at h₀ h₁
      obtain ⟨usb, hf⟩ := flushShort_taken hof.1 h₀ h₁
      have ha : ¬ (s₁.abandoned = true ∧ readBe32 pkt = s₁.busyCid) := by
        rw [hc.busyCid]
        exact fun ha => hb ha.2
      have hq₁ : s₁.busyCid ≠ 0 ∨ s₁.resp.pending = true :=
        hq.imp (fun hb => hc.busyCid ▸ hb) fun ⟨hr, hne⟩ => hkept hne ▸ hr
      have hfits : (syncAnswer pkt).length ≤ initDataLen := initAnswer_fits pkt _
      rw [replyShort_flushed _ hfits ha hq₁ hf]
      have hready : Ready (fun p => ¬ OfRequest (readBe32 pkt) p) { s₁ with
          usb := usb, sent := s₁.sent ++ [s₁.short.pkt], short := ⟨s₁.short.pkt, false⟩ } :=
        ⟨by rintro ⟨⟩, hresync, fun hp _ => hanswer hp⟩
      exact (replyShort_sends hready hfits (not_ofRequest_init _ _) fun _ => id).2
    · have hready : Ready (fun p => ¬ OfRequest (readBe32 pkt) p) s₁ :=
        ⟨fun hp ho => hof ⟨hp, ho⟩, hresync, fun hp _ => hanswer hp⟩
      exact (replyShort_sends hready (initAnswer_fits pkt _) (not_ofRequest_init _ _)
        fun _ => id).2

/-- A stranded error answer goes out after the INIT was handled. -/
theorem Stranded.not_silenced {pre : List Act} {pkt : Packet} (hp : Syncs pkt)
    (h : Stranded (readBe32 pkt) (system.run pre)) :
    ¬ Silenced (readBe32 pkt) (system.run (pre ++ [.packet pkt])) := by
  intro hsil
  have hkept : (system.run (pre ++ [.packet pkt])).short = (system.run pre).short :=
    system.run_concat pre _ ▸ h.kept hp
  obtain ⟨post, out, hd, hsent⟩ := short_goes_out (tidy_run _) (hkept ▸ h.1)
  obtain ⟨out', hout, hG⟩ := hsil post ⟨[], hd, by simp⟩
  have heq := List.append_cancel_left (hsent.symm.trans hout)
  apply hG (system.run pre).short.pkt _ h.2.1
  rw [← heq, hkept]
  exact List.mem_cons_self

/-- Resync is clean, unless an error answer of the request is stranded in the
short slot. -/
theorem resync_clean_iff (pre : List Act) {pkt : Packet} (hp : Syncs pkt) :
    (Silenced (readBe32 pkt) (system.run (pre ++ [.packet pkt])) ∧
      (readBe32 pkt = (system.run pre).busyCid →
        NeverRuns (system.run (pre ++ [.packet pkt]))) ∧
      AcksNewest (system.run (pre ++ [.packet pkt]))) ↔
    ¬ Stranded (readBe32 pkt) (system.run pre) := by
  have hh := held_run pre
  have hh' := held_run (pre ++ [.packet pkt])
  have hrun : system.run (pre ++ [.packet pkt]) = step (system.run pre) (.packet pkt) :=
    system.run_concat _ _
  constructor
  · rintro ⟨hsil, -⟩ hst
    exact hst.not_silenced hp hsil
  · intro hst
    have hc := clean_of_not_stranded hh.words hp hst
    rw [← hrun] at hc
    refine ⟨hc.silenced hh'.tidy hh'.words, fun hb => ?_, hh'.acksNewest⟩
    apply neverRuns_of_abandoned hh'.tidy
    have hsync := step_sync hp (system.run pre)
    rw [hrun]
    generalize step (system.run pre) (.packet pkt) = s' at hsync ⊢
    cases hsync with
    | abandoned _ _ => rfl
    | answered hb' _ _ _ => exact absurd hb hb'

def nonceDemo : Packet := [1, 2, 3, 4, 5, 6, 7, 8]

theorem syncs_demo : Syncs (initPacket 1 nonceDemo) where
  length := by decide
  channel := rfl
  init := by decide
  command := by decide
  bcnt := by decide
  channel_ne := by decide
  not_broadcast := by decide

/-- A PING of channel 1 is queued, and the channel sends an INIT. -/
theorem resync_clean_demo :
    Silenced 1 (system.run ([.packet (pingPacket 1)] ++ [.packet (initPacket 1 nonceDemo)])) ∧
      NeverRuns (system.run ([.packet (pingPacket 1)] ++ [.packet (initPacket 1 nonceDemo)])) := by
  have h := (resync_clean_iff [.packet (pingPacket 1)] syncs_demo).mpr
    (fun hst => by have := hst.1; exact absurd this (by decide))
  exact ⟨h.1, h.2.1 rfl⟩

/-- A WINK, which the device does not know. -/
def winkPacket (cid : ℕ) : Packet := writeBe32 cid ++ [0x88] ++ List.replicate 59 0

/-- The error answer to a WINK of channel 1 finds the endpoint busy. -/
def winkRun : List Act := [.packet (winkPacket 1), .task]

/-- Channel 1 then sends an INIT: the error of the abandoned request goes out
all the same, before the acknowledgement. -/
theorem resync_error_demo :
    ¬ Silenced 1 (system.run (winkRun ++ [.packet (initPacket 1 nonceDemo)])) ∧
      (system.run (winkRun ++ [.packet (initPacket 1 nonceDemo)] ++
        [.endpoint fun _ => true, .task])).sent.map (fun p => p.take 8) =
        [[0, 0, 0, 1, 0xBF, 0, 1, 1], [0, 0, 0, 1, 0x86, 0, 17, 1]] := by
  constructor
  · apply Stranded.not_silenced syncs_demo
    refine ⟨by decide +kernel, by decide +kernel, fun h => ?_⟩
    exact absurd h.2.2.1 (by decide +kernel)
  · decide +kernel

end Nixtropic.Ctaphid
