import Nixtropic.Hid.Fragments
import Nixtropic.Hid.Resync

/-!
One answer over time. The reports that the endpoint took since the answer was
queued are its frames, in their order and each once, with nothing between them
but notices of the framing.
-/

namespace Nixtropic.Ctaphid

variable {s s' : State}

/-! ### Notices -/

/-- What the framing tells in one packet: an INIT is acknowledged, a packet or a
request is refused, or the host is to wait. -/
def Notice (p : Packet) : Prop :=
  byte4 p ∈ [cmdInitFlag ||| cmdInit, cmdInitFlag ||| cmdError, cmdInitFlag ||| cmdKeepalive]

theorem notice_init (cid : ℕ) (payload : Packet) :
    Notice (buildPacket cid (cmdInitFlag ||| cmdInit) payload) := by
  rw [Notice, byte4_buildPacket]
  decide

theorem notice_error (cid : ℕ) (payload : Packet) :
    Notice (buildPacket cid (cmdInitFlag ||| cmdError) payload) := by
  rw [Notice, byte4_buildPacket]
  decide

theorem notice_keepalive (cid : ℕ) (payload : Packet) :
    Notice (buildPacket cid (cmdInitFlag ||| cmdKeepalive) payload) := by
  rw [Notice, byte4_buildPacket]
  decide

/-- The slots hold notices; the answer is any. -/
abbrev HoldsNotices (s : State) : Prop := Kept Notice (fun _ => True) s

theorem HoldsNotices.sendAnswers (h : HoldsNotices s) : HoldsNotices (sendAnswers s) := by
  have hr := (flushPending_sends h).2
  simp only [Ctaphid.sendAnswers]
  split
  · obtain ⟨usb, sent, resp, heq⟩ := drainLoop_eq
      ((flushPending s).2.resp.total - (flushPending s).2.resp.sent + 2) (flushPending s).2
    rw [drain, heq]
    exact .of_slots hr.short hr.resync
  · exact hr

theorem HoldsNotices.finishRequest (h : HoldsNotices s) : HoldsNotices (finishRequest s) := by
  rw [finishRequest_eq]
  exact HoldsNotices.sendAnswers h.ended

theorem HoldsNotices.task (ht : Tidy s) (h : HoldsNotices s) : HoldsNotices (fidoHidTask s) := by
  have hb := fidoHidTask_tasked ht
  generalize fidoHidTask s = s' at hb ⊢
  cases hb with
  | waited _ => exact HoldsNotices.sendAnswers h
  | discarded _ _ _ =>
      exact HoldsNotices.finishRequest (s := beginRequest s) (.of_slots h.short h.resync)
  | answered _ _ _ _ => exact HoldsNotices.finishRequest (.of_slots h.short h.resync)
  | rejected _ _ _ =>
      exact HoldsNotices.finishRequest
        (queueError_sends h.started (notice_error _ _) fun _ _ => trivial).2
  | started _ _ _ _ => exact h.started

/-- A packet, whatever it is, is answered with notices. -/
theorem HoldsNotices.packet (ht : Tidy s) (h : HoldsNotices s) (pkt : Packet) :
    Sends Notice s (step s (.packet pkt)) ∧ HoldsNotices (step s (.packet pkt)) := by
  have hsee : HoldsNotices (s.see pkt) := .of_slots h.short h.resync
  obtain ⟨hs, hr⟩ := (handlePacket_handled (ht.see pkt) pkt).sends (ht.see pkt) hsee
    (fun cid err _ _ => notice_error cid [err]) (notice_init _) (fun _ _ => notice_init _ _)
    fun _ _ => trivial
  exact ⟨hs, hr⟩

theorem HoldsNotices.progressed (h : HoldsNotices s) :
    Sends Notice s (progressRest s) ∧ HoldsNotices (progressRest s) :=
  progressRest_sends h fun _ st => notice_keepalive _ [st]

/-- No action puts anything but a notice in a slot. -/
theorem HoldsNotices.step (ht : Tidy s) (h : HoldsNotices s) (a : Act) :
    HoldsNotices (step s a) := by
  cases a with
  | endpoint | clock | wait => exact .of_slots h.short h.resync
  | packet pkt => exact (HoldsNotices.packet ht h pkt).2
  | task =>
      simp only [Ctaphid.step]
      split
      · exact h
      · exact HoldsNotices.task ht h
  | progress =>
      simp only [Ctaphid.step]
      split
      · exact h
      · exact .of_slots h.short h.resync
  | progressed =>
      simp only [Ctaphid.step]
      split
      · exact (HoldsNotices.progressed h).2
      · exact h
  | scratch buf =>
      simp only [Ctaphid.step]
      split
      · exact .of_slots h.short h.resync
      · exact h
  | finish n =>
      simp only [Ctaphid.step]
      split
      · have hreturn : HoldsNotices (handleCborReturn s.busyCid n s) := by
          cases n with
          | none => exact (queueError_sends h (notice_error _ _) fun _ _ => trivial).2
          | some n => exact .of_slots h.short h.resync
        exact HoldsNotices.finishRequest hreturn
      · exact h

/-- A report that the endpoint took: a packet of the answer, or a notice between them. -/
inductive Report where
  | answer (p : Packet)
  | notice (p : Packet)
  deriving DecidableEq

def Report.packet : Report → Packet
  | .answer p => p
  | .notice p => p

/-- The packets of the answer among the reports. -/
def answers (out : List Report) : List Packet :=
  out.filterMap fun
    | .answer p => some p
    | .notice _ => none

/-- What happens while an answer goes out. `emit_response_packet` sends of it what then stands in
`sent`; whatever else happens sends notices and leaves the answer alone. -/
inductive Sending : State → List Report → State → Prop
  | other {s s' : State} {ps : List Packet} (hresp : s'.resp = s.resp)
      (hsent : s'.sent = s.sent ++ ps) (hps : ∀ p ∈ ps, Notice p) :
      Sending s (ps.map .notice) s'
  | emit (s : State) :
      Sending s (((emitResponsePacket s).2.sent.drop s.sent.length).map .answer)
        (emitResponsePacket s).2
  | trans {s s' s'' : State} {out out' : List Report} (h : Sending s out s')
      (h' : Sending s' out' s'') : Sending s (out ++ out') s''

@[simp] theorem answers_append (out out' : List Report) :
    answers (out ++ out') = answers out ++ answers out' := List.filterMap_append

@[simp] theorem answers_map_answer (ps : List Packet) : answers (ps.map .answer) = ps := by
  rw [answers, List.filterMap_map]
  exact List.filterMap_some

@[simp] theorem answers_map_notice (ps : List Packet) : answers (ps.map .notice) = [] := by
  rw [answers, List.filterMap_map]
  exact List.filterMap_eq_nil_iff.mpr fun _ _ => rfl

namespace Sending

variable {out : List Report}

theorem refl (s : State) : Sending s [] s :=
  .other rfl (List.append_nil _).symm fun p hp => by cases hp

/-- Nothing goes out when there is no answer. -/
theorem idle (h : Sending s out s') (hp : s.resp.pending = false) :
    answers out = [] ∧ s'.resp = s.resp := by
  induction h with
  | other hresp _ _ => exact ⟨answers_map_notice _, hresp⟩
  | emit s =>
      have he : emitResponsePacket s = (false, s) := by simp [emitResponsePacket, hp]
      rw [he]
      exact ⟨by rw [List.drop_length]; rfl, rfl⟩
  | trans _ _ ih ih' =>
      obtain ⟨hnone, hs⟩ := ih hp
      obtain ⟨hnone', hs'⟩ := ih' (hs ▸ hp)
      exact ⟨by rw [answers_append, hnone, hnone']; rfl, hs'.trans hs⟩

/-- An answer goes on or is over, and what the endpoint took is what is no longer left. -/
theorem left (h : Sending s out s') (hp : s.resp.pending = true) (hr : s.resp.Going) :
    (s'.resp.pending = true ∧ s'.resp.Going ∧ s.resp.left = answers out ++ s'.resp.left) ∨
      (s'.resp.pending = false ∧ s.resp.left = answers out) := by
  induction h with
  | other hresp _ _ =>
      exact .inl ⟨hresp ▸ hp, hresp ▸ hr, by rw [hresp, answers_map_notice, List.nil_append]⟩
  | emit s =>
      obtain ⟨hleft, hgoing⟩ := Response.left_eq hr
      obtain ⟨usb, h⟩ | ⟨-, usb, h⟩ := emitResponsePacket_cases s
      · -- a refused packet was rolled back
        rw [h]
        refine .inl ⟨hp, hr, ?_⟩
        rw [List.drop_length, answers_map_answer, List.nil_append]
      · rw [h, answers_map_answer, List.drop_left]
        by_cases hmore : s.resp.next.2.sent < s.resp.next.2.total
        · obtain ⟨hfull, hfits, hfirst, hlater⟩ := hgoing hmore
          rw [if_pos hmore] at hleft
          exact .inl ⟨decide_eq_true hmore, ⟨hfull, hfits, hfirst, hlater⟩, hleft⟩
        · rw [if_neg hmore] at hleft
          exact .inr ⟨decide_eq_false hmore, hleft⟩
  | trans _ h' ih ih' =>
      rw [answers_append]
      obtain ⟨hp₁, hr₁, hl₁⟩ | ⟨hp₁, hl₁⟩ := ih hp hr
      · obtain ⟨hp₂, hr₂, hl₂⟩ | ⟨hp₂, hl₂⟩ := ih' hp₁ hr₁
        · exact .inl ⟨hp₂, hr₂, by rw [hl₁, hl₂, List.append_assoc]⟩
        · exact .inr ⟨hp₂, by rw [hl₁, hl₂]⟩
      · obtain ⟨hnone, hs⟩ := h'.idle hp₁
        exact .inr ⟨hs ▸ hp₁, by rw [hl₁, hnone, List.append_nil]⟩

theorem cid (h : Sending s out s') : s'.resp.cid = s.resp.cid := by
  induction h with
  | other hresp _ _ => rw [hresp]
  | emit s =>
      obtain ⟨usb, h⟩ | ⟨-, usb, h⟩ := emitResponsePacket_cases s <;> rw [h]
      rfl
  | trans _ _ ih ih' => exact ih'.trans ih

theorem drainLoop (fuel : ℕ) (s : State) : ∃ out, Sending s out (drainLoop fuel s) := by
  induction fuel generalizing s with
  | zero => exact ⟨[], .refl s⟩
  | succ fuel ih =>
      have he := Sending.emit s
      simp only [Ctaphid.drainLoop]
      split
      · obtain ⟨out, h⟩ := ih (emitResponsePacket s).2
        exact ⟨_, he.trans h⟩
      · exact ⟨_, he⟩

end Sending

/-! ### Answers in runs -/

/-- A one-packet answer does not touch the one that is going out. -/
theorem replyShort_pending (hp : s.resp.pending = true) (cid : ℕ) (cmd : UInt8) (payload : Packet) :
    (replyShort cid cmd payload s).resp = s.resp := by
  unfold replyShort
  split
  · rfl
  · rw [if_pos (.inr hp), sendNow_resp]

/-- An INIT on its channel drops the answer; no other packet touches it. -/
theorem Handled.resp {pkt : Packet} (hh : Handled pkt s s') (hp : s.resp.pending = true) :
    s'.resp = s.resp ∨ IsSync s.resp.cid pkt := by
  cases hh with
  | silent | dropped => exact .inl rfl
  | refused => exact .inl (replyShort_pending hp _ _ _)
  | broken => exact .inl (replyShort_pending (s := resetAssembly s) hp _ _ _)
  | @late cid err a => exact .inl (replyShort_pending (s := { s with asm := a }) hp _ _ _)
  | allocated => exact .inl (replyShort_pending (s := (allocChannel s).2) hp _ _ _)
  | @acked s₁ _ hbc h₁ hsync =>
      obtain ⟨short, resync, hd⟩ := dropStaleInit_eq (readBe32 pkt) s₁
      have hresp : s₁.resp = s.resp := by
        obtain ⟨rfl, -⟩ | ⟨rfl, -⟩ := h₁ <;> rfl
      by_cases hc : s.resp.cid = readBe32 pkt
      · exact .inr (hc ▸ hsync)
      · have hkeep : dropAnswer (readBe32 pkt) (dropStaleInit (readBe32 pkt) s₁) =
            dropStaleInit (readBe32 pkt) s₁ := by
          refine if_neg fun h => hc ?_
          rw [hd] at h
          exact hresp ▸ h.2
        rw [hkeep, hd]
        exact .inl ((replyShort_pending (s := { s₁ with short := short, resync := resync })
          (hresp ▸ hp) _ _ _).trans hresp)
  | resynced =>
      obtain ⟨short, resync, hd⟩ := dropStaleInit_eq s.busyCid s
      rw [hd]
      exact .inl rfl
  | first | next =>
      unfold State.accept
      split <;> exact .inl rfl

end Nixtropic.Ctaphid
