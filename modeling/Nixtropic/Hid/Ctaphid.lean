import Mathlib.Data.List.Basic
import Mathlib.Algebra.Group.Nat.Defs
import Nixtropic.Lists.Bytes
import Nixtropic.Runs.System

/-!
`ctaphid.c`: CTAPHID framing. 64-byte packets of several channels are put
together into one request, the main loop runs it, and its answer goes out in
packets again.

The functions follow the source one by one; the file's static variables are
the fields of `State`. The CBOR handler is outside this file. What it does as
far as the framing can see (a progress point, a touch wait, a write into the
response buffer, its return) are actions of the system at the end, so that a
packet may arrive at any point of it.
-/

namespace Nixtropic.Ctaphid

/-- Bytes, in particular the 64 of a packet. -/
abbrev Packet := List UInt8

def reportLen : ℕ := 64
def initDataLen : ℕ := 57
def contDataLen : ℕ := 59
def cidBroadcast : ℕ := 0xFFFFFFFF
def maxPayload : ℕ := 2048

def cmdInitFlag : UInt8 := 0x80
def cmdPing : UInt8 := 0x01
def cmdMsg : UInt8 := 0x03
def cmdInit : UInt8 := 0x06
def cmdCbor : UInt8 := 0x10
def cmdCancel : UInt8 := 0x11
def cmdKeepalive : UInt8 := 0x3B
def cmdError : UInt8 := 0x3F

def errInvalidCmd : UInt8 := 0x01
def errInvalidLen : UInt8 := 0x03
def errInvalidSeq : UInt8 := 0x04
def errChannelBusy : UInt8 := 0x06
def errInvalidChannel : UInt8 := 0x0B
def errOther : UInt8 := 0x7F

/-- `FIDO_HID_PROTOCOL_VER`, the device version and the capabilities (CBOR, no
MSG). -/
def deviceInfo : Packet := [2, 0, 4, 0, 0x04 ||| 0x08]

inductive FhState where
  | idle
  | assembling
  deriving DecidableEq

/-- The request that is put together or runs. -/
structure Assembly where
  state : FhState
  curCid : ℕ
  reqCmd : UInt8
  reqTotal : ℕ
  reqReceived : ℕ
  nextSeq : UInt8
  reqBuf : Packet

/-- The answer that goes out. -/
structure Response where
  cid : ℕ
  cmd : UInt8
  total : ℕ
  sent : ℕ
  seq : UInt8
  pending : Bool
  buf : Packet

/-- Room for one packet. -/
structure Slot where
  pkt : Packet
  pending : Bool

/-- A packet that was handled, and whether a touch wait was on. -/
structure Seen where
  pkt : Packet
  awaiting : Bool

/-- A request given to its handler. -/
structure Request where
  cid : ℕ
  cmd : UInt8
  buf : Packet
  len : ℕ

/-- The static variables of the file, the flags of `user_presence.c`, the
clock, the endpoint's coming answers, and what has happened: the packets sent
in order, the packets handled and the requests dispatched, both newest
first. -/
structure State where
  asm : Assembly
  resp : Response
  nextCid : ℕ
  busyCid : ℕ
  running : Bool
  inProgress : Bool
  kaStatus : UInt8
  kaLast : ℕ
  short : Slot
  abandoned : Bool
  resync : Slot
  awaiting : Bool
  cancel : Bool
  now : ℕ
  usb : ℕ → Bool
  sent : List Packet
  seen : List Seen
  dispatched : List Request

/-! ### Helpers -/

def readBe32 (p : Packet) : ℕ :=
  byteAt p 0 * 2 ^ 24 + byteAt p 1 * 2 ^ 16 + byteAt p 2 * 2 ^ 8 + byteAt p 3

def writeBe32 (v : ℕ) : Packet := be32 v

def writeBe16 (v : ℕ) : Packet := be16 v

/-- `pkt[4]` -/
def byte4 (pkt : Packet) : UInt8 := pkt.getD 4 0

def cmdOf (pkt : Packet) : UInt8 := byte4 pkt &&& 0x7F

def bcntOf (pkt : Packet) : ℕ := byteAt pkt 5 * 2 ^ 8 + byteAt pkt 6

def isInitPacket (pkt : Packet) : Bool := byte4 pkt &&& cmdInitFlag != 0

def emptyAssembly : Assembly := ⟨.idle, 0, 0, 0, 0, 0, List.replicate maxPayload 0⟩

def resetAssembly (s : State) : State := { s with asm := emptyAssembly }

/-! ### The IN endpoint -/

/-- `tud_hid_n_ready` -/
def tudHidReady (s : State) : Bool × State :=
  (s.usb 0, { s with usb := fun i => s.usb (i + 1) })

/-- `tud_hid_n_report` -/
def tudHidReport (pkt : Packet) (s : State) : Bool × State :=
  (s.usb 0, { s with
    usb := fun i => s.usb (i + 1)
    sent := if s.usb 0 then s.sent ++ [pkt] else s.sent })

/-! ### Answers -/

def buildPacket (cid : ℕ) (cmd : UInt8) (payload : Packet) : Packet :=
  writeBe32 cid ++ [cmd] ++ writeBe16 payload.length ++ payload ++
    List.replicate (initDataLen - payload.length) 0

def pushPacket (pkt : Packet) (s : State) : Bool × State :=
  let r := tudHidReady s
  if r.1 then tudHidReport pkt r.2 else r

/-- The short slot. -/
def flushShort (s : State) : State :=
  if s.short.pending then
    let r := pushPacket s.short.pkt s
    if r.1 then { r.2 with short := ⟨s.short.pkt, false⟩ } else r.2
  else s

/-- A held resync answer, once its abandoned request is over. -/
def flushResync (s : State) : State :=
  if !s.short.pending && s.resync.pending && !s.abandoned then
    let r := pushPacket s.resync.pkt s
    if r.1 then { r.2 with resync := ⟨s.resync.pkt, false⟩ } else r.2
  else s

def flushPending (s : State) : Bool × State :=
  let s := flushResync (flushShort s)
  (!s.short.pending, s)

/-- A packet that USB did not take goes to the short slot, if it is free. -/
def keepShort (pkt : Packet) (r : Bool × State) : State :=
  if r.1 then r.2
  else if r.2.short.pending then r.2
  else { r.2 with short := ⟨pkt, true⟩ }

def sendNow (cid : ℕ) (cmd : UInt8) (payload : Packet) (s : State) : State :=
  if initDataLen < payload.length then s
  else
    let pkt := buildPacket cid cmd payload
    let r := flushPending s
    keepShort pkt (if r.1 then pushPacket pkt r.2 else r)

def queueResponse (cid : ℕ) (cmd : UInt8) (payload : Packet) (s : State) : State :=
  let payload := payload.take maxPayload
  { s with resp := ⟨cid, cmd, payload.length, 0, 0, true, patch s.resp.buf 0 payload⟩ }

def replyShort (cid : ℕ) (cmd : UInt8) (payload : Packet) (s : State) : State :=
  if s.abandoned ∧ cid = s.busyCid then s
  else if s.busyCid ≠ 0 ∨ s.resp.pending then sendNow cid cmd payload s
  else queueResponse cid cmd payload s

def queueError (cid : ℕ) (err : UInt8) (s : State) : State :=
  replyShort cid (cmdInitFlag ||| cmdError) [err] s

/-- The next packet of an answer and the answer after it. -/
def Response.next (r : Response) : Packet × Response :=
  let isFirst := r.sent == 0
  let head := if isFirst then r.cmd :: writeBe16 r.total else [r.seq &&& 0x7F]
  let cap := if isFirst then initDataLen else contDataLen
  let chunk := min (r.total - r.sent) cap
  (writeBe32 r.cid ++ head ++ (r.buf.drop r.sent).take chunk ++ List.replicate (cap - chunk) 0,
    { r with sent := r.sent + chunk, seq := if isFirst then r.seq else r.seq + 1 })

def emitResponsePacket (s : State) : Bool × State :=
  if !s.resp.pending then (false, s)
  else
    let r := tudHidReady s
    if !r.1 then r
    else
      let n := s.resp.next
      let r := tudHidReport n.1 { r.2 with resp := n.2 }
      -- a refused packet is rolled back and tried again later
      if !r.1 then (false, { r.2 with resp := s.resp })
      else (true, { r.2 with
        resp := { n.2 with pending := decide (n.2.sent < n.2.total) } })

/-- `while (emit_response_packet())` -/
def drainLoop : ℕ → State → State
  | 0, s => s
  | fuel + 1, s =>
    let r := emitResponsePacket s
    if r.1 then drainLoop fuel r.2 else r.2

/-- Every packet but the last carries a byte of the answer. -/
def drain (s : State) : State := drainLoop (s.resp.total - s.resp.sent + 2) s

/-! ### Command handlers -/

def allocChannel (s : State) : ℕ × State :=
  let n := (s.nextCid + 1) % 2 ^ 32
  let n := if n = 0 then 1 else n
  let n := if n = cidBroadcast then 1 else n
  (s.nextCid, { s with nextCid := n })

def dropStaleResync (cid : ℕ) (s : State) : State :=
  if s.resync.pending ∧ readBe32 s.resync.pkt = cid
  then { s with resync := ⟨s.resync.pkt, false⟩ } else s

def dropStaleShort (cid : ℕ) (s : State) : State :=
  if s.short.pending ∧ readBe32 s.short.pkt = cid ∧ byte4 s.short.pkt = cmdInitFlag ||| cmdInit
  then { s with short := ⟨s.short.pkt, false⟩ } else s

/-- The held INIT answers of the channel, superseded by a newer INIT. -/
def dropStaleInit (cid : ℕ) (s : State) : State := dropStaleShort cid (dropStaleResync cid s)

/-- Resync of the queued or running request's channel: the request is
abandoned, its touch wait ends, the answer is held. -/
def abandon (cid : ℕ) (resp : Packet) (s : State) : State :=
  { s with
    abandoned := true
    cancel := s.cancel || s.running
    resync := ⟨buildPacket cid (cmdInitFlag ||| cmdInit) resp, true⟩ }

/-- The rest of an answer the host has left. -/
def dropAnswer (cid : ℕ) (s : State) : State :=
  if s.resp.pending ∧ s.resp.cid = cid then { s with resp := { s.resp with pending := false } }
  else s

def initAnswer (nonce : Packet) (cid : ℕ) : Packet := nonce ++ writeBe32 cid ++ deviceInfo

/-- The channel sync form resets what the channel has in flight. -/
def syncAssembly (cid : ℕ) (s : State) : State :=
  if s.asm.state = .assembling ∧ cid = s.asm.curCid then resetAssembly s else s

def handleInit (reqCid : ℕ) (payload : Packet) (s : State) : State :=
  if payload.length ≠ 8 then queueError reqCid errInvalidLen s
  else if reqCid = cidBroadcast then
    let r := allocChannel s
    replyShort reqCid (cmdInitFlag ||| cmdInit) (initAnswer payload r.1) r.2
  else
    let s := dropStaleInit reqCid (syncAssembly reqCid s)
    if reqCid = s.busyCid then abandon reqCid (initAnswer payload reqCid) s
    else replyShort reqCid (cmdInitFlag ||| cmdInit) (initAnswer payload reqCid)
      (dropAnswer reqCid s)

def handlePing (cid : ℕ) (payload : Packet) (s : State) : State :=
  queueResponse cid (cmdInitFlag ||| cmdPing) payload s

def handleMsg (cid : ℕ) (s : State) : State :=
  queueResponse cid (cmdInitFlag ||| cmdMsg) [0x6E, 0x00] s

/-- `handle_cbor` from the return of `fido_hid_cbor_dispatch` on; `none` is a
negative return value. -/
def handleCborReturn (cid : ℕ) (n : Option ℕ) (s : State) : State :=
  match n with
  | none => queueError cid errOther s
  | some n =>
    { s with resp := { s.resp with
        cid := cid, cmd := cmdInitFlag ||| cmdCbor, total := n, sent := 0, seq := 0,
        pending := true } }

/-! ### Packets -/

def completeRequest (cid : ℕ) (s : State) : State :=
  let s := { s with asm := { s.asm with state := .idle, curCid := 0 } }
  if s.busyCid ≠ 0 then queueError cid errChannelBusy s
  else if s.awaiting then resetAssembly (queueError cid errChannelBusy s)
  else { s with busyCid := cid }

/-- `CTAPHID_INIT` -/
def handleInitCommand (cid : ℕ) (pkt : Packet) (s : State) : State :=
  if initDataLen < bcntOf pkt then queueError cid errInvalidLen s
  else handleInit cid ((pkt.drop 7).take (bcntOf pkt)) (syncAssembly cid s)

/-- `CTAPHID_CANCEL` -/
def handleCancel (cid : ℕ) (s : State) : State :=
  let s := if cid = s.busyCid ∧ s.running then { s with cancel := true } else s
  syncAssembly cid s

/-- The first packet of a request, with its data. -/
def startAssembly (a : Assembly) (cid : ℕ) (pkt : Packet) : Assembly :=
  let data := (pkt.drop 7).take (min (bcntOf pkt) initDataLen)
  { state := a.state, curCid := cid, reqCmd := cmdOf pkt, reqTotal := bcntOf pkt,
    reqReceived := data.length, nextSeq := 0,
    reqBuf := patch (List.replicate maxPayload 0) 0 data }

def handleRequestPacket (cid : ℕ) (pkt : Packet) (s : State) : State :=
  if s.awaiting ∨ s.busyCid ≠ 0 then queueError cid errChannelBusy s
  else if s.asm.state = .assembling ∧ cid ≠ s.asm.curCid then queueError cid errChannelBusy s
  else if maxPayload < bcntOf pkt then queueError cid errInvalidLen (resetAssembly s)
  else
    let s := { s with asm := startAssembly s.asm cid pkt }
    if s.asm.reqTotal ≤ s.asm.reqReceived then completeRequest cid s
    else { s with asm := { s.asm with state := .assembling } }

def handleInitPacket (cid : ℕ) (pkt : Packet) (s : State) : State :=
  if cid = cidBroadcast ∧ cmdOf pkt ≠ cmdInit then queueError cid errInvalidChannel s
  else if cmdOf pkt = cmdInit then handleInitCommand cid pkt s
  else if cmdOf pkt = cmdCancel then handleCancel cid s
  else handleRequestPacket cid pkt s

/-- The data of a CONT packet joins the request. -/
def Assembly.append (a : Assembly) (pkt : Packet) : Assembly :=
  let data := (pkt.drop 5).take (min (a.reqTotal - a.reqReceived) contDataLen)
  { a with
    nextSeq := a.nextSeq + 1
    reqReceived := a.reqReceived + data.length
    reqBuf := patch a.reqBuf a.reqReceived data }

def handleContPacket (cid : ℕ) (pkt : Packet) (s : State) : State :=
  if s.asm.state ≠ .assembling ∨ cid ≠ s.asm.curCid then s
  else if cmdOf pkt ≠ s.asm.nextSeq then queueError cid errInvalidSeq (resetAssembly s)
  else
    let s := { s with asm := s.asm.append pkt }
    if s.asm.reqTotal ≤ s.asm.reqReceived then completeRequest cid s else s

def handlePacket (pkt : Packet) (s : State) : State :=
  if pkt.length < reportLen then s
  else if readBe32 pkt = 0 then queueError 0 errInvalidChannel s
  else if isInitPacket pkt then handleInitPacket (readBe32 pkt) pkt s
  else handleContPacket (readBe32 pkt) pkt s

/-! ### The main loop and the progress points -/

def noteDispatch (cid : ℕ) (s : State) : State := { s with
  dispatched := ⟨cid, s.asm.reqCmd, s.asm.reqBuf, s.asm.reqReceived⟩ :: s.dispatched }

/-- `dispatch_request`, and whether it is over. A CBOR request is not: its
handler starts. -/
def dispatchRequest (cid : ℕ) (s : State) : Bool × State :=
  let cmd := s.asm.reqCmd
  let req := s.asm.reqBuf.take s.asm.reqReceived
  let s := noteDispatch cid s
  if cmd = cmdInit then (true, handleInit cid req s)
  else if cmd = cmdPing then (true, handlePing cid req s)
  else if cmd = cmdMsg then (true, handleMsg cid s)
  else if cmd = cmdCbor then (false, s)
  else (true, queueError cid errInvalidCmd s)

/-- The end of `fido_hid_task`: nothing overtakes a held one-packet answer. -/
def sendAnswers (s : State) : State :=
  let r := flushPending s
  if r.1 && !r.2.resync.pending then drain r.2 else r.2

/-- The stale answer of an abandoned request never goes out. -/
def dropStaleAnswer (s : State) : State :=
  if s.abandoned then { s with resp := { s.resp with pending := false } } else s

/-- `fido_hid_task` from the return of the request on. -/
def finishRequest (s : State) : State :=
  let s := dropStaleAnswer { s with running := false }
  sendAnswers { resetAssembly { s with cancel := false } with busyCid := 0, abandoned := false }

/-- The cancel latch belongs to the request that begins. -/
def beginRequest (s : State) : State := { s with
  kaStatus := 0, kaLast := s.now, cancel := false, running := true }

/-- `fido_hid_task`, up to the start of a CBOR request or to its end. -/
def fidoHidTask (s : State) : State :=
  if s.busyCid ≠ 0 ∧ !s.resp.pending then
    if s.abandoned then finishRequest (beginRequest s)
    else
      let r := dispatchRequest s.busyCid (beginRequest s)
      if r.1 then finishRequest r.2 else r.2
  else sendAnswers s

def kaInterval : ℕ := 50

/-- `KA_UPNEEDED` in a touch wait, else `KA_PROCESSING`. -/
def keepaliveStatus (s : State) : UInt8 := if s.awaiting then 2 else 1

def sendKeepalive (s : State) : State :=
  let status := keepaliveStatus s
  if status ≠ s.kaStatus ∨ kaInterval ≤ (s.now + 2 ^ 32 - s.kaLast) % 2 ^ 32 then
    let r := pushPacket (buildPacket s.busyCid (cmdInitFlag ||| cmdKeepalive) [status]) s
    if r.1 then { r.2 with kaStatus := status, kaLast := s.now } else r.2
  else s

/-- `fido_hid_progress` after its `tud_task`. -/
def progressRest (s : State) : State :=
  let r := flushPending s
  let s := if r.1 && !r.2.abandoned then sendKeepalive r.2 else r.2
  { s with inProgress := false }

/-! ### The system -/

/-- What happens next, at any point between two atomic pieces of the code. -/
inductive Act where
  /-- the endpoint's coming answers change -/
  | endpoint (usb : ℕ → Bool)
  | clock (now : ℕ)
  /-- a touch wait begins or ends, of the running request or of an OpenPGP one -/
  | wait (on : Bool)
  /-- `tud_task` delivers a packet -/
  | packet (pkt : Packet)
  /-- the main loop calls `fido_hid_task` -/
  | task
  /-- the running handler calls `fido_hid_progress`, which calls `tud_task` -/
  | progress
  /-- that `tud_task` has returned -/
  | progressed
  /-- the running handler writes into the response buffer -/
  | scratch (buf : Packet)
  /-- the running handler returns -/
  | finish (n : Option ℕ)

def State.see (s : State) (pkt : Packet) : State :=
  { s with seen := ⟨pkt, s.awaiting⟩ :: s.seen }

/-- The handler keeps to the `FIDO_HID_MAX_PAYLOAD` bytes it was given, and it
is not in a progress point or a touch wait when it returns. The main loop does
not run inside a touch wait. -/
def step (s : State) : Act → State
  | .endpoint usb => { s with usb := usb }
  | .clock now => { s with now := now % 2 ^ 32 }
  | .wait on => { s with awaiting := on }
  | .packet pkt => handlePacket pkt (s.see pkt)
  | .task => if s.running || s.awaiting then s else fidoHidTask s
  | .progress => if !s.running || s.inProgress then s else { s with inProgress := true }
  | .progressed => if s.inProgress then progressRest s else s
  | .scratch buf =>
    if s.running ∧ buf.length = maxPayload then { s with resp := { s.resp with buf := buf } }
    else s
  | .finish n =>
    if s.running ∧ !s.inProgress ∧ !s.awaiting ∧ ∀ m ∈ n, m ≤ maxPayload then
      finishRequest (handleCborReturn s.busyCid n s)
    else s

/-- The state `fido_hid_init` leaves. -/
def fidoHidInit : State where
  asm := emptyAssembly
  resp := ⟨0, 0, 0, 0, 0, false, List.replicate maxPayload 0⟩
  nextCid := 1
  busyCid := 0
  running := false
  inProgress := false
  kaStatus := 0
  kaLast := 0
  short := ⟨List.replicate reportLen 0, false⟩
  abandoned := false
  resync := ⟨List.replicate reportLen 0, false⟩
  awaiting := false
  cancel := false
  now := 0
  usb := fun _ => false
  sent := []
  seen := []
  dispatched := []

/-- The framing from `fido_hid_init` on. -/
def system : Runs.System State Act := ⟨fidoHidInit, step⟩

end Nixtropic.Ctaphid
