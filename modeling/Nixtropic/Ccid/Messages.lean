import Nixtropic.Pgp.Session

/-!
`ccid_proto.h` and the messages of `usb_ccid.c`: ten bytes of header in front of
every message, and what the reader answers.

Lengths are little-endian here; the commands inside are not looked at. A message is
answered by a program of the card, since two of the kinds reset the card and one has
a command for it.
-/

namespace Nixtropic.Ccid

open Crash Pgp

/-! ### Kinds and codes -/

def iccPowerOn : UInt8 := 0x62
def iccPowerOff : UInt8 := 0x63
def getSlotStatus : UInt8 := 0x65
def xfrBlock : UInt8 := 0x6F
def getParameters : UInt8 := 0x6C
def resetParameters : UInt8 := 0x6D
def setParameters : UInt8 := 0x61

def dataBlock : UInt8 := 0x80
def slotStatus : UInt8 := 0x81
def parameters : UInt8 := 0x82

def iccActive : UInt8 := 0x00
def iccPresentInact : UInt8 := 0x01
def cmdSuccess : UInt8 := 0x00
def cmdFailed : UInt8 := 0x40
def errorNone : UInt8 := 0x00
def errorCmdNotSupported : UInt8 := 0x00
def errorHwError : UInt8 := 0xFB

/-- `CCID_HDR_LEN` and `CCID_MAX_MSG_LEN` -/
def hdrLen : ℕ := 10
def maxMsgLen : ℕ := 4112

/-- `s_atr` and `s_t1_params` -/
def atr : Bytes := [0x3B, 0x80, 0x01, 0x81]
def t1Params : Bytes := [0x11, 0x10, 0x00, 0x4D, 0x00, 0xFE, 0x00]

/-! ### Little-endian numbers -/

def le32Load (p : Bytes) : ℕ :=
  byteAt p 0 + byteAt p 1 * 2 ^ 8 + byteAt p 2 * 2 ^ 16 + byteAt p 3 * 2 ^ 24

def le32Store (v : ℕ) : Bytes :=
  [UInt8.ofNat v, UInt8.ofNat (v / 2 ^ 8), UInt8.ofNat (v / 2 ^ 16), UInt8.ofNat (v / 2 ^ 24)]

theorem le32Load_store {v : ℕ} (hv : v < 2 ^ 32) (rest : Bytes) :
    le32Load (le32Store v ++ rest) = v := by
  simp only [le32Load, le32Store, byteAt, List.cons_append, List.getD_cons_zero,
    List.getD_cons_succ, UInt8.toNat_ofNat']
  omega

/-! ### Answers -/

/-- The ten bytes in front of a payload of `len` bytes; the slot is 0. -/
def fillBulkInHdr (msgType : UInt8) (len : ℕ) (seq status error rfu : UInt8) : Bytes :=
  msgType :: le32Store len ++ [0, seq, status, error, rfu]

def respPowerOn (seq : UInt8) : Bytes :=
  fillBulkInHdr dataBlock atr.length seq (iccActive ||| cmdSuccess) errorNone 0 ++ atr

def respSlotStatus (seq status error : UInt8) : Bytes :=
  fillBulkInHdr slotStatus 0 seq status error 0

def respParameters (seq : UInt8) : Bytes :=
  fillBulkInHdr parameters t1Params.length seq (iccActive ||| cmdSuccess) errorNone 0x01 ++ t1Params

/-- The answer to a command, once the card answered `resp`; no answer of the card is
`-1`. -/
def xfrAnswer (seq : UInt8) (resp : Option Bytes) : Bytes :=
  let failed := respSlotStatus seq (iccActive ||| cmdFailed) errorHwError
  match resp with
  | none => failed
  | some r =>
      if r.length < 2 then failed
      else if maxMsgLen < hdrLen + r.length then failed
      else fillBulkInHdr dataBlock r.length seq (iccActive ||| cmdSuccess) errorNone 0 ++ r

/-- The buffer `apdu_resp`. -/
def apduResp : Bytes := List.replicate apduMaxLen 0

section Process

variable (F : PgpPrims)

def respXfrBlock (seq : UInt8) (apdu : Bytes) : PgpM Bytes := do
  let resp ← cardApdu F apdu apduResp
  pure (xfrAnswer seq resp)

/-- `process_message`: what it leaves to be sent, nothing for a message without a
whole header. -/
def processMessage (msg : Bytes) : PgpM Bytes := do
  if msg.length < hdrLen then pure []
  else
    let msgType := msg.getD 0 0
    let payloadLen := le32Load (msg.drop 1)
    let seq := msg.getD 6 0
    -- the declared payload must be in the bytes that came
    if msg.length - hdrLen < payloadLen then
      pure (respSlotStatus seq (iccActive ||| cmdFailed) errorHwError)
    else if msgType = iccPowerOn then do
      openpgpAppletCardReset
      pure (respPowerOn seq)
    else if msgType = iccPowerOff then do
      openpgpAppletCardReset
      pure (respSlotStatus seq (iccPresentInact ||| cmdSuccess) errorNone)
    else if msgType = getSlotStatus then
      pure (respSlotStatus seq (iccActive ||| cmdSuccess) errorNone)
    else if msgType = xfrBlock then respXfrBlock F seq ((msg.drop hdrLen).take payloadLen)
    else if msgType = getParameters ∨ msgType = resetParameters ∨ msgType = setParameters then
      pure (respParameters seq)
    else pure (respSlotStatus seq (iccActive ||| cmdFailed) errorCmdNotSupported)

end Process

end Nixtropic.Ccid
