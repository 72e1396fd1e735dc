import Nixtropic.Ccid.Messages

/-!
`usb_ccid.c`: the reader between the USB stack and the card.

The callbacks of the USB stack run in the main loop, and also inside a command that
waits for touch. What the stack itself does is modelled as far as the driver sees it:
a transfer that is posted on an endpoint of an open interface ends once, and a bus
reset drops what is posted. One command is in the works at a time; while it is, the
message stays in the receive buffer.
-/

namespace Nixtropic.Ccid

open Crash Pgp Runs

/-- What the host, the bus and the card see of the reader. -/
inductive Event where
  | received (msg : Bytes)
  /-- The bus was reset, or the power came back. -/
  | reset
  | began (msg : Bytes)
  | posted (ans : Bytes)
  | delivered (ans : Bytes)
  deriving DecidableEq, Repr

structure Reader where
  card : Card
  /-- `s_itf_num` is not 0xFF. -/
  claimed : Bool
  rxBuf : Bytes
  rxPending : Bool
  /-- The answer in `s_tx_buf`; its length is `s_tx_len`. -/
  tx : Bytes
  processing : Bool
  epoch : ℕ
  opened : Bool
  /-- The transfers that are posted on bulk-OUT, all of them into `s_rx_buf`. -/
  outPosted : ℕ
  inPosted : Option Bytes
  /-- Newest first. -/
  log : List Event

namespace Reader

/-! ### Callbacks of the USB stack -/

def note (d : Reader) (e : Event) : Reader := { d with log := e :: d.log }

/-- `usbd_edpt_xfer` on bulk-OUT; nothing is posted on an interface that is closed. -/
def armOut (d : Reader) : Reader :=
  if d.opened then { d with outPosted := d.outPosted + 1 } else d

/-- `apdu_dispatch_card_reset` outside a program of the card. -/
def cardReset (d : Reader) : Reader :=
  { d with card := ⟨d.card.ram.map (·.dropAuth .all), d.card.board.jot .cardReset⟩ }

def ccidInit (d : Reader) : Reader :=
  { d with
    epoch := (d.epoch + 1) % 2 ^ 32
    rxBuf := if d.processing then d.rxBuf else []
    tx := []
    rxPending := false
    claimed := false }

/-- `ccid_reset`, behind the reset of the stack. -/
def ccidReset (d : Reader) : Reader :=
  (({ d with opened := false, outPosted := 0, inPosted := none }.cardReset).ccidInit).note .reset

/-- `ccid_open` for the interface of the reader; `ok` is whether the stack opens the
endpoints. -/
def ccidOpen (d : Reader) (ok : Bool) : Reader :=
  let d := { d with claimed := true }
  if ok then
    let d := { d with opened := true }
    if d.processing then d else d.armOut
  else d

/-- `ccid_xfer_cb` of bulk-OUT: `data` came, or nothing. -/
def outDone (d : Reader) (data : Bytes) : Reader :=
  let d := { d with outPosted := d.outPosted - 1 }
  if data ≠ [] then { d with rxBuf := data, rxPending := true }.note (.received data)
  else d.armOut

def inDone (d : Reader) (ans : Bytes) : Reader :=
  { d with inPosted := none, tx := [] }.note (.delivered ans)

end Reader

/-- What the bus does; `outDone []` is a transfer that failed or was empty. -/
inductive Bus where
  | outDone (data : Bytes)
  | inDone
  | busReset
  | openItf (ok : Bool)
  deriving DecidableEq, Repr

/-- Only what is posted ends, and only a closed interface is opened. -/
def Reader.bus (d : Reader) : Bus → Reader
  | .outDone data => if 0 < d.outPosted ∧ data.length ≤ maxMsgLen then d.outDone data else d
  | .inDone =>
      match d.inPosted with
      | some ans => d.inDone ans
      | none => d
  | .busReset => d.ccidReset
  | .openItf ok => if d.opened then d else d.ccidOpen ok

/-! ### The task -/

namespace Reader

/-- `usb_ccid_task` does something: a message waits, nobody waits for touch, and the
last answer was read. -/
def Ready (d : Reader) (awaiting : Bool) : Prop :=
  d.rxPending = true ∧ awaiting = false ∧ d.inPosted = none

instance (d : Reader) (awaiting : Bool) : Decidable (d.Ready awaiting) :=
  inferInstanceAs (Decidable (_ ∧ _))

def begin (d : Reader) : Reader :=
  { d with rxPending := false, processing := true }.note (.began d.rxBuf)

/-- Behind it: `ans` is what it left to be sent, `epoch` the one from before, and
`taken` is whether the stack takes the transfer. -/
def finish (d : Reader) (epoch : ℕ) (ans : Bytes) (taken : Bool) : Reader :=
  let d := { d with tx := ans, processing := false, rxBuf := [] }
  if epoch ≠ d.epoch then
    let d := { d.cardReset with tx := [] }
    if d.claimed then d.armOut else d
  else if ans = [] ∨ taken = false then { d with tx := [] }.armOut
  else { d with inPosted := some ans }.note (.posted ans) |>.armOut

end Reader

def hasReset (nested : List Bus) : Bool := nested.contains .busReset

section Device

variable (F : PgpPrims)

/-- What happens to the reader. A task that is not ready does nothing. `nested` are the
callbacks inside the command, and `fs` the fates of its calls of the chip. A bus reset
among the callbacks changes the variables of the card under the command: what the
command then leaves, and answers, is anything, here `left` and `ans`. -/
inductive Action where
  | powerUp
  | bus (e : Bus)
  | task (awaiting taken : Bool) (nested : List Bus) (fs : List BoardFate) (left : Card)
      (ans : Bytes)

/-- The card and the answer when the command is over; no answer of a card that was cut
off. -/
def Reader.result (d : Reader) (fs : List BoardFate) : Card × Option Bytes :=
  match d.card.ram with
  | none => (d.card, none)
  | some u =>
      match run (pgpBoard F) ((processMessage F d.rxBuf).run u) fs d.card.board with
      | .done (ans, u') b => (⟨some u', b⟩, some ans)
      | .cut b => (⟨none, b⟩, none)

def Reader.off (d : Reader) (c : Card) : Reader :=
  { d with
    card := c, claimed := false, rxBuf := [], rxPending := false, tx := [], processing := false,
    epoch := 0, opened := false, outPosted := 0, inPosted := none }

def Reader.step (d : Reader) : Action → Reader
  | .powerUp => ((d.off (d.card.step F .powerUp)).ccidInit).note .reset
  | .bus e => if d.card.ram.isSome then d.bus e else d
  | .task awaiting taken nested fs left ans =>
      if d.card.ram.isSome ∧ d.Ready awaiting then
        let d₁ := nested.foldl Reader.bus d.begin
        if hasReset nested then { d₁ with card := left }.finish d.epoch ans taken
        else
          match d.result F fs with
          | (c, some ans) => { d₁ with card := c }.finish d.epoch ans taken
          | (c, none) => d₁.off c
      else d

def reader (b : Board Note) : System Reader Action :=
  ⟨{ card := (card F b).init, claimed := false, rxBuf := [], rxPending := false, tx := [],
     processing := false, epoch := 0, opened := false, outPosted := 0, inPosted := none,
     log := [] }, Reader.step F⟩

end Device

end Nixtropic.Ccid
