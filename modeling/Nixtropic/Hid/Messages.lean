import Nixtropic.Hid.Requests
import Nixtropic.Hid.Words

/-!
Messages of CTAPHID, as the protocol has them: a channel, a command and up to
2048 bytes. `Message.frames` cuts a message into 64-byte packets, and
`reassemble` is what a receiver makes of packets that follow one another.
-/

namespace Nixtropic.Ctaphid

/-- A message; its command has the init flag. -/
structure Message where
  cid : ℕ
  cmd : UInt8
  payload : Packet
  channel : cid < 2 ^ 32
  command : cmd &&& cmdInitFlag ≠ 0
  fits : payload.length ≤ maxPayload

/-! ### Fragmentation -/

/-- Data, filled up with zeros. -/
def padded (n : ℕ) (data : Packet) : Packet := data.take n ++ List.replicate (n - data.length) 0

/-- The CONT packet with the sequence number `seq`. -/
def contFrame (cid seq : ℕ) (data : Packet) : Packet :=
  writeBe32 cid ++ UInt8.ofNat seq :: padded contDataLen data

/-- The CONT packets for the rest of a payload, from the sequence number `seq` on. -/
def contFrames (cid seq : ℕ) (rest : Packet) : List Packet :=
  if rest = [] then []
  else contFrame cid seq rest :: contFrames cid (seq + 1) (rest.drop contDataLen)
termination_by rest.length
decreasing_by
  have h := List.length_pos_iff.mpr ‹_›
  simp only [List.length_drop, contDataLen]
  omega

/-- The first packet: the command and the length of the whole. -/
def Message.firstFrame (m : Message) : Packet :=
  writeBe32 m.cid ++ m.cmd :: (writeBe16 m.payload.length ++ padded initDataLen m.payload)

def Message.frames (m : Message) : List Packet :=
  m.firstFrame :: contFrames m.cid 0 (m.payload.drop initDataLen)

/-! ### Reassembly -/

/-- What a receiver has of a message: the data so far, and the length it will have. -/
structure Partial where
  cid : ℕ
  cmd : UInt8
  total : ℕ
  seq : ℕ
  data : Packet

/-- A CONT packet is taken when data is missing, on the channel of the message and with the next
sequence number. -/
def Partial.take (a : Partial) (p : Packet) : Option Partial :=
  if p.length = reportLen ∧ a.data.length < a.total ∧ readBe32 p = a.cid ∧
      isInitPacket p = false ∧ (byte4 p).toNat = a.seq then
    some { a with
      seq := a.seq + 1
      data := a.data ++ (p.drop 5).take (min (a.total - a.data.length) contDataLen) }
  else none

/-- The first packet of a message. -/
def Partial.start (p : Packet) : Option Partial :=
  if p.length = reportLen ∧ isInitPacket p then
    some ⟨readBe32 p, byte4 p, bcntOf p, 0, (p.drop 7).take (min (bcntOf p) initDataLen)⟩
  else none

theorem contFrames_nil (cid seq : ℕ) : contFrames cid seq [] = [] := by
  rw [contFrames, if_pos rfl]

theorem contFrames_cons {cid seq : ℕ} {rest : Packet} (h : rest ≠ []) :
    contFrames cid seq rest =
      contFrame cid seq rest :: contFrames cid (seq + 1) (rest.drop contDataLen) := by
  rw [contFrames, if_neg h]

@[simp] theorem padded_length (n : ℕ) (data : Packet) : (padded n data).length = n := by
  simp [padded]
  omega

/-- The data is in front of the zeros. -/
theorem padded_take {n k : ℕ} {data : Packet} (hk : k = min data.length n) :
    (padded n data).take k = data.take n := by
  have hlen : (data.take n).length = k := by rw [List.length_take, hk, Nat.min_comm]
  rw [padded, ← hlen, List.take_left]

section Frames

variable {cid seq : ℕ} {rest : Packet}

theorem drop_contFrame : (contFrame cid seq rest).drop 5 = padded contDataLen rest := rfl

/-- The numbers of CONT packets have the init flag unset. -/
theorem seq_low (h : seq < 128) : UInt8.ofNat seq &&& cmdInitFlag = 0 ∧
    UInt8.ofNat seq &&& 0x7F = UInt8.ofNat seq := by
  have hall : ∀ n : Fin 128, UInt8.ofNat n &&& cmdInitFlag = 0 ∧
      UInt8.ofNat n &&& 0x7F = UInt8.ofNat n := by decide
  exact hall ⟨seq, h⟩

namespace Message

variable (m : Message)

theorem firstFrame_length : m.firstFrame.length = reportLen := by
  simp [firstFrame, writeBe32, writeBe16, be32, be16, initDataLen, reportLen]

theorem readBe32_firstFrame : readBe32 m.firstFrame = m.cid := by
  rw [firstFrame, readBe32_append, readBe32_writeBe32 m.channel]

theorem byte4_firstFrame : byte4 m.firstFrame = m.cmd := rfl

theorem isInit_firstFrame : isInitPacket m.firstFrame = true := by
  unfold isInitPacket
  rw [byte4_firstFrame]
  exact bne_iff_ne.mpr m.command

theorem bcntOf_firstFrame : bcntOf m.firstFrame = m.payload.length := by
  have h (n : ℕ) : (UInt8.ofNat n).toNat = n % 256 := by simp
  have hfits := m.fits
  unfold maxPayload at hfits
  show (UInt8.ofNat (m.payload.length / 2 ^ 8)).toNat * 2 ^ 8 +
    (UInt8.ofNat m.payload.length).toNat = _
  rw [h, h]
  omega

theorem drop_firstFrame : m.firstFrame.drop 7 = padded initDataLen m.payload := rfl

end Message

end Frames

end Nixtropic.Ctaphid
