import Nixtropic.Hid.Messages
import Nixtropic.Hid.Progress

/-!
The two loops of `ctaphid.c` that cut and join: the packets that go out for a
queued answer are the frames of one message, however often the endpoint refuses
one, and the frames of a message are put together to one request again.
-/

namespace Nixtropic.Ctaphid

variable {s s' s'' : State}

/-! ### Sending -/

/-- What an answer in the buffer says. -/
def Response.payload (r : Response) : Packet := r.buf.take r.total

/-- The packets of the answer that have not gone out. -/
def Response.left (r : Response) : List Packet :=
  if r.sent = 0 then
    (writeBe32 r.cid ++ r.cmd :: (writeBe16 r.total ++ padded initDataLen r.payload)) ::
      contFrames r.cid 0 (r.payload.drop initDataLen)
  else contFrames r.cid r.seq.toNat (r.payload.drop r.sent)

/-- An answer that is going out: `seq` counts the CONT packets. -/
structure Response.Going (r : Response) : Prop where
  full : r.total ≤ r.buf.length
  fits : r.total ≤ maxPayload
  first : r.sent = 0 → r.seq = 0
  later : r.sent ≠ 0 → r.sent < r.total ∧ r.sent = initDataLen + contDataLen * r.seq.toNat

theorem Response.payload_length {r : Response} (h : r.Going) : r.payload.length = r.total := by
  rw [payload, List.length_take]
  exact Nat.min_eq_left h.full

/-- The data field of a packet, from the buffer. -/
theorem Response.chunk_eq {r : Response} (h : r.Going) (cap : ℕ) :
    (r.buf.drop r.sent).take (min (r.total - r.sent) cap) ++
        List.replicate (cap - min (r.total - r.sent) cap) 0 =
      padded cap (r.payload.drop r.sent) := by
  have hlen := payload_length h
  have hzeros : cap - min (r.total - r.sent) cap = cap - (r.payload.drop r.sent).length := by
    rw [List.length_drop, hlen]
    omega
  rw [hzeros, padded, payload, List.drop_take, List.take_take, Nat.min_comm]

theorem Response.next_first {r : Response} (h : r.Going) (h0 : r.sent = 0) :
    r.next = (writeBe32 r.cid ++ r.cmd :: (writeBe16 r.total ++ padded initDataLen r.payload),
      { r with sent := min r.total initDataLen }) := by
  have hchunk := chunk_eq h initDataLen
  rw [h0, List.drop_zero, List.drop_zero, Nat.sub_zero] at hchunk
  rw [← hchunk]
  simp [next, h0]

theorem Response.next_later {r : Response} (h : r.Going) (h0 : r.sent ≠ 0) :
    r.next = (contFrame r.cid r.seq.toNat (r.payload.drop r.sent),
      { r with sent := r.sent + min (r.total - r.sent) contDataLen, seq := r.seq + 1 }) := by
  have hne : (r.sent == 0) = false := beq_false_of_ne h0
  have hlow : r.seq.toNat < 128 := by
    obtain ⟨hlt, hsent⟩ := h.later h0
    have hfits := h.fits
    unfold maxPayload at hfits
    unfold initDataLen contDataLen at hsent
    omega
  have hseq : r.seq &&& 0x7F = UInt8.ofNat r.seq.toNat := by
    have hand := (seq_low hlow).2
    rwa [UInt8.ofNat_toNat] at hand ⊢
  rw [contFrame, ← chunk_eq h contDataLen, ← hseq]
  simp [next, hne]

/-- The packets left are the next one and those left after it. -/
theorem Response.left_eq {r : Response} (h : r.Going) :
    r.left = r.next.1 :: (if r.next.2.sent < r.next.2.total then r.next.2.left else []) ∧
      (r.next.2.sent < r.next.2.total → r.next.2.Going) := by
  have hlen := payload_length h
  by_cases h0 : r.sent = 0
  · -- the first packet: the rest starts after its 57 bytes
    rw [next_first h h0]
    dsimp only
    by_cases hmore : min r.total initDataLen < r.total
    · have hmin : min r.total initDataLen = initDataLen := by omega
      have hne : min r.total initDataLen ≠ 0 := by
        rw [hmin]
        decide
      rw [if_pos hmore]
      refine ⟨?_, fun _ => ⟨h.full, h.fits, fun hz => absurd hz hne, fun _ => ⟨hmore, ?_⟩⟩⟩
      · have hseq : r.seq.toNat = 0 := by
          rw [h.first h0]
          rfl
        rw [left, if_pos h0, left, if_neg hne]
        show _ :: contFrames r.cid 0 (r.payload.drop initDataLen) =
          _ :: contFrames r.cid r.seq.toNat (r.payload.drop (min r.total initDataLen))
        rw [hseq, hmin]
      · rw [hmin, h.first h0]
        rfl
    · have hdrop : r.payload.drop initDataLen = [] := by
        rw [List.drop_eq_nil_iff, hlen]
        omega
      rw [if_neg hmore, left, if_pos h0, hdrop, contFrames_nil]
      exact ⟨rfl, fun hm => absurd hm hmore⟩
  · obtain ⟨hlt, hsent⟩ := h.later h0
    have hfits := h.fits
    unfold maxPayload at hfits
    unfold initDataLen contDataLen at hsent
    have hrest : r.payload.drop r.sent ≠ [] := by
      rw [Ne, List.drop_eq_nil_iff, hlen]
      omega
    have hseq : (r.seq + 1).toNat = r.seq.toNat + 1 := by
      rw [UInt8.toNat_add, Nat.mod_eq_of_lt]
      · rfl
      · show r.seq.toNat + 1 < 256
        omega
    rw [next_later h h0, left, if_neg h0, contFrames_cons hrest, List.drop_drop]
    dsimp only
    by_cases hmore : r.sent + min (r.total - r.sent) contDataLen < r.total
    · have hmin : min (r.total - r.sent) contDataLen = contDataLen := by omega
      have hne : r.sent + min (r.total - r.sent) contDataLen ≠ 0 := by omega
      rw [if_pos hmore]
      refine ⟨?_, fun _ => ⟨h.full, h.fits, fun hz => absurd hz hne, fun _ => ⟨hmore, ?_⟩⟩⟩
      · rw [left, if_neg hne]
        show _ = _ :: contFrames r.cid (r.seq + 1).toNat
          (r.payload.drop (r.sent + min (r.total - r.sent) contDataLen))
        rw [hseq, hmin]
      · show r.sent + min (r.total - r.sent) contDataLen = _
        rw [hseq, hmin, hsent]
        unfold initDataLen contDataLen
        omega
    · have hdrop : r.payload.drop (r.sent + contDataLen) = [] := by
        rw [List.drop_eq_nil_iff, hlen]
        omega
      rw [if_neg hmore, hdrop, contFrames_nil]
      exact ⟨rfl, fun hm => absurd hm hmore⟩

/-- An answer of which nothing has gone out: it holds the message. -/
structure Response.Holds (r : Response) (m : Message) : Prop where
  cid : r.cid = m.cid
  cmd : r.cmd = m.cmd
  total : r.total = m.payload.length
  buf : r.buf.take m.payload.length = m.payload
  sent : r.sent = 0
  seq : r.seq = 0
  pending : r.pending = true

theorem Response.Holds.left {r : Response} {m : Message} (h : r.Holds m) :
    r.Going ∧ r.left = m.frames := by
  have hpayload : r.payload = m.payload := by rw [payload, h.total, h.buf]
  have hfull : r.total ≤ r.buf.length := by
    have hlen := congrArg List.length h.buf
    rw [List.length_take] at hlen
    rw [h.total]
    omega
  refine ⟨⟨hfull, h.total ▸ m.fits, fun _ => h.seq, fun hz => absurd h.sent hz⟩, ?_⟩
  rw [Response.left, if_pos h.sent, hpayload, h.cid, h.cmd, h.total]
  rfl

/-! ### Receiving -/

/-- The first `n` bytes of the message have been put together. -/
structure Joined (m : Message) (n : ℕ) (a : Assembly) : Prop where
  cmd : a.reqCmd = m.cmd &&& 0x7F
  total : a.reqTotal = m.payload.length
  received : a.reqReceived = n
  buf : a.reqBuf = m.payload.take n ++ List.replicate (maxPayload - n) 0

/-- A message that is put together as a request: not an INIT or a CANCEL, which are handled at
once, and on a channel that requests have. -/
structure Message.Request (m : Message) : Prop where
  not_zero : m.cid ≠ 0
  not_broadcast : m.cid ≠ cidBroadcast
  not_init : m.cmd &&& 0x7F ≠ cmdInit
  not_cancel : m.cmd &&& 0x7F ≠ cmdCancel

/-- The framing is free for a request of the channel. -/
structure State.Free (s : State) (cid : ℕ) : Prop where
  busy : s.busyCid = 0
  waiting : s.awaiting = false
  channel : s.asm.state = .assembling → cid = s.asm.curCid

theorem Message.Request.isFirst {m : Message} (hm : m.Request) :
    IsFirst m.cid (m.cmd &&& 0x7F) m.payload.length m.firstFrame where
  length := Nat.le_of_eq m.firstFrame_length.symm
  channel := m.readBe32_firstFrame
  channel_ne := hm.not_zero
  not_broadcast := hm.not_broadcast
  init := m.isInit_firstFrame
  command := rfl
  not_init := hm.not_init
  not_cancel := hm.not_cancel
  bcnt := m.bcntOf_firstFrame
  fits := m.fits

/-- The first packet brings the first 57 bytes. -/
theorem Joined.start (m : Message) (a : Assembly) :
    Joined m (min m.payload.length initDataLen) (startAssembly a m.cid m.firstFrame) := by
  have hdata : (m.firstFrame.drop 7).take (min (bcntOf m.firstFrame) initDataLen) =
      m.payload.take initDataLen := by
    rw [m.drop_firstFrame, m.bcntOf_firstFrame, padded_take rfl]
  have hlen : (m.payload.take initDataLen).length = min m.payload.length initDataLen := by
    rw [List.length_take, Nat.min_comm]
  have htake : m.payload.take (min m.payload.length initDataLen) = m.payload.take initDataLen :=
    List.take_eq_take_iff.mpr (by omega)
  refine ⟨rfl, m.bcntOf_firstFrame, ?_, ?_⟩
  · show ((m.firstFrame.drop 7).take (min (bcntOf m.firstFrame) initDataLen)).length = _
    rw [hdata, hlen]
  · show patch (List.replicate maxPayload 0) 0 ((m.firstFrame.drop 7).take
      (min (bcntOf m.firstFrame) initDataLen)) = _
    rw [hdata, patch_replicate, hlen, htake]

/-- A CONT packet brings the next 59 bytes. -/
theorem Joined.append {m : Message} {n seq : ℕ} {a : Assembly} (h : Joined m n a)
    (hn : n < m.payload.length) :
    Joined m (min m.payload.length (n + contDataLen))
      (a.append (contFrame m.cid seq (m.payload.drop n))) := by
  have hrest : (m.payload.drop n).length = m.payload.length - n := List.length_drop
  have hdata : ((contFrame m.cid seq (m.payload.drop n)).drop 5).take
      (min (a.reqTotal - a.reqReceived) contDataLen) = (m.payload.drop n).take contDataLen := by
    rw [drop_contFrame, h.total, h.received, padded_take (by rw [hrest])]
  have hlen : ((m.payload.drop n).take contDataLen).length =
      min (m.payload.length - n) contDataLen := by
    rw [List.length_take, hrest, Nat.min_comm]
  have hold : (m.payload.take n).length = n := by
    rw [List.length_take]
    omega
  have htake : m.payload.take n ++ (m.payload.drop n).take contDataLen =
      m.payload.take (min m.payload.length (n + contDataLen)) := by
    rw [← List.take_add]
    exact List.take_eq_take_iff.mpr (by omega)
  refine ⟨h.cmd, h.total, ?_, ?_⟩
  · show a.reqReceived + (((contFrame m.cid seq (m.payload.drop n)).drop 5).take
      (min (a.reqTotal - a.reqReceived) contDataLen)).length = _
    rw [hdata, hlen, h.received]
    omega
  · show patch a.reqBuf a.reqReceived (((contFrame m.cid seq (m.payload.drop n)).drop 5).take
      (min (a.reqTotal - a.reqReceived) contDataLen)) = _
    have hcopy := patch_append (m.payload.take n) ((m.payload.drop n).take contDataLen)
      (maxPayload - n)
    rw [hold, htake, hlen] at hcopy
    rw [hdata, h.buf, h.received, hcopy]
    congr 2
    omega

end Nixtropic.Ctaphid
