import Nixtropic.Crash.Lift
import Nixtropic.Tropic.Chip

/-!
The board around the chip: the ECC key slots and the monotonic counter of the
TROPIC01, the millisecond tick and the touch button.

A call is a chip call of `Chip`, or one of the calls below. The fate of a call
of the board says what happens to it on the chip, how much time has gone by,
and how a touch wait ends. The time of the board is the true time since
power-up; only its remainder is ever read.

A program can leave a note. Notes are not in the source: they record which
function was called and with what, for the statements about whole runs. A note
keeps the time and the chip memories it was left at.
-/

namespace Nixtropic

open Crash

/-- A key in an ECC slot: its curve, its number among all keys generated, and
how many notes there were when it was generated. -/
structure EccKey where
  curve : ℕ
  serial : ℕ
  born : ℕ
  deriving DecidableEq, Repr

/-- `up_result_t` -/
inductive UpResult where
  | ok
  | fail
  | cancel
  deriving DecidableEq, Repr

inductive BoardOp (N : Type) where
  | session
  | eccGenerate (slot curve : ℕ)
  | eccPubkeyRead (slot : ℕ)
  | eccErase (slot : ℕ)
  | eddsaSign (slot : ℕ) (msg : Bytes)
  | ecdsaSign (slot : ℕ) (msg : Bytes)
  | mcounterInit (value : ℕ)
  | mcounterUpdate
  | mcounterGet
  | tick
  | touch (timeout : ℕ)
  | note (n : N)

abbrev BoardRet {N : Type} : BoardOp N → Type
  | .session => Reply Unit
  | .eccGenerate _ _ => Reply Unit
  | .eccPubkeyRead _ => Reply Bytes
  | .eccErase _ => Reply Unit
  | .eddsaSign _ _ => Reply Bytes
  | .ecdsaSign _ _ => Reply Bytes
  | .mcounterInit _ => Reply Unit
  | .mcounterUpdate => Reply Unit
  | .mcounterGet => Reply ℕ
  | .tick => ℕ
  | .touch _ => UpResult
  | .note _ => Unit

/-- A note, with the time and the chip memories it was left at. -/
structure Entry (N : Type) where
  note : N
  time : ℕ
  rmem : ℕ → RSlot
  ecc : ℕ → Option EccKey

structure Board (N : Type) where
  chip : World
  ecc : ℕ → Option EccKey
  /-- How many keys were generated so far. -/
  serials : ℕ
  /-- Monotonic counter 0; nothing before it is initialised. -/
  counter : Option ℕ
  /-- The true time since power-up, in milliseconds. -/
  now : ℕ
  /-- The notes left so far, newest first. -/
  notes : List (Entry N)

/-- What the chip makes of its keys. -/
structure KeyPrims where
  pub : EccKey → Bytes
  sign : EccKey → Bytes → Bytes
  pub_length : ∀ k, (pub k).length = if k.curve = 0 then 32 else 64
  sign_length : ∀ k msg, (sign k msg).length = 64

/-- What happens to a call: on the chip, to the time, and to a touch wait. -/
structure BoardFate where
  chip : Fate
  delay : ℕ
  up : UpResult
  deriving DecidableEq, Repr

/-- The fate of a call to which nothing happens. -/
def BoardFate.quiet : BoardFate := ⟨.none, 0, .ok⟩

namespace Board

variable {N : Type}

def setChip (b : Board N) (w : World) : Board N := { b with chip := w }

def setEcc (b : Board N) (slot : ℕ) (k : Option EccKey) : Board N :=
  { b with ecc := Function.update b.ecc slot k }

def wait (b : Board N) (delay : ℕ) : Board N := { b with now := b.now + delay }

def jot (b : Board N) (n : N) : Board N :=
  { b with notes := ⟨n, b.now, b.chip.rmem, b.ecc⟩ :: b.notes }

/-- A new key in a slot. -/
def keygen (b : Board N) (slot curve : ℕ) : Board N :=
  { b with
    ecc := Function.update b.ecc slot (some ⟨curve, b.serials, b.notes.length⟩)
    serials := b.serials + 1 }

def setCounter (b : Board N) (c : Option ℕ) : Board N := { b with counter := c }

@[simp] theorem setChip_chip (b : Board N) (w : World) : (b.setChip w).chip = w := rfl
@[simp] theorem setChip_ecc (b : Board N) (w : World) : (b.setChip w).ecc = b.ecc := rfl
@[simp] theorem setChip_now (b : Board N) (w : World) : (b.setChip w).now = b.now := rfl
@[simp] theorem setChip_notes (b : Board N) (w : World) : (b.setChip w).notes = b.notes := rfl
@[simp] theorem setChip_counter (b : Board N) (w : World) :
    (b.setChip w).counter = b.counter := rfl
@[simp] theorem setEcc_chip (b : Board N) (s : ℕ) (k : Option EccKey) :
    (b.setEcc s k).chip = b.chip := rfl
@[simp] theorem setEcc_ecc (b : Board N) (s : ℕ) (k : Option EccKey) :
    (b.setEcc s k).ecc = Function.update b.ecc s k := rfl
@[simp] theorem setEcc_now (b : Board N) (s : ℕ) (k : Option EccKey) :
    (b.setEcc s k).now = b.now := rfl
@[simp] theorem setEcc_notes (b : Board N) (s : ℕ) (k : Option EccKey) :
    (b.setEcc s k).notes = b.notes := rfl
@[simp] theorem setEcc_counter (b : Board N) (s : ℕ) (k : Option EccKey) :
    (b.setEcc s k).counter = b.counter := rfl
@[simp] theorem wait_chip (b : Board N) (d : ℕ) : (b.wait d).chip = b.chip := rfl
@[simp] theorem wait_ecc (b : Board N) (d : ℕ) : (b.wait d).ecc = b.ecc := rfl
@[simp] theorem wait_now (b : Board N) (d : ℕ) : (b.wait d).now = b.now + d := rfl
@[simp] theorem wait_notes (b : Board N) (d : ℕ) : (b.wait d).notes = b.notes := rfl
@[simp] theorem wait_counter (b : Board N) (d : ℕ) : (b.wait d).counter = b.counter := rfl
@[simp] theorem jot_chip (b : Board N) (n : N) : (b.jot n).chip = b.chip := rfl
@[simp] theorem jot_ecc (b : Board N) (n : N) : (b.jot n).ecc = b.ecc := rfl
@[simp] theorem jot_now (b : Board N) (n : N) : (b.jot n).now = b.now := rfl
@[simp] theorem jot_counter (b : Board N) (n : N) : (b.jot n).counter = b.counter := rfl
@[simp] theorem jot_notes (b : Board N) (n : N) :
    (b.jot n).notes = ⟨n, b.now, b.chip.rmem, b.ecc⟩ :: b.notes := rfl
@[simp] theorem keygen_chip (b : Board N) (s c : ℕ) : (b.keygen s c).chip = b.chip := rfl
@[simp] theorem keygen_now (b : Board N) (s c : ℕ) : (b.keygen s c).now = b.now := rfl
@[simp] theorem keygen_notes (b : Board N) (s c : ℕ) : (b.keygen s c).notes = b.notes := rfl
@[simp] theorem keygen_counter (b : Board N) (s c : ℕ) :
    (b.keygen s c).counter = b.counter := rfl
@[simp] theorem keygen_ecc (b : Board N) (s c : ℕ) :
    (b.keygen s c).ecc = Function.update b.ecc s (some ⟨c, b.serials, b.notes.length⟩) := rfl
@[simp] theorem setCounter_chip (b : Board N) (c : Option ℕ) :
    (b.setCounter c).chip = b.chip := rfl
@[simp] theorem setCounter_ecc (b : Board N) (c : Option ℕ) : (b.setCounter c).ecc = b.ecc := rfl
@[simp] theorem setCounter_now (b : Board N) (c : Option ℕ) : (b.setCounter c).now = b.now := rfl
@[simp] theorem setCounter_notes (b : Board N) (c : Option ℕ) :
    (b.setCounter c).notes = b.notes := rfl
@[simp] theorem setCounter_counter (b : Board N) (c : Option ℕ) :
    (b.setCounter c).counter = c := rfl

end Board

section Machine

variable {N : Type}

/-- The largest message an EdDSA call takes. -/
def eddsaMsgMax : ℕ := 4096

/-- A call the board carries out. A slot that holds a key takes no other one
before it is erased. -/
def boardExec (K : KeyPrims) : (o : BoardOp N) → Board N → BoardRet o × Board N
  | .session, b => (.ok (), b)
  | .eccGenerate slot curve, b =>
      if (b.ecc slot).isSome then (.error .other, b) else (.ok (), b.keygen slot curve)
  | .eccPubkeyRead slot, b =>
      match b.ecc slot with
      | some k => (.ok (K.pub k), b)
      | none => (.error .other, b)
  | .eccErase slot, b => (.ok (), b.setEcc slot none)
  | .eddsaSign slot msg, b =>
      match b.ecc slot with
      | some k =>
          if k.curve = 0 ∧ msg.length ≤ eddsaMsgMax then (.ok (K.sign k msg), b)
          else (.error .other, b)
      | none => (.error .other, b)
  | .ecdsaSign slot msg, b =>
      match b.ecc slot with
      | some k => if k.curve = 1 then (.ok (K.sign k msg), b) else (.error .other, b)
      | none => (.error .other, b)
  | .mcounterInit value, b => (.ok (), b.setCounter (some value))
  | .mcounterUpdate, b =>
      match b.counter with
      | some (n + 1) => (.ok (), b.setCounter (some n))
      | _ => (.error .other, b)
  | .mcounterGet, b =>
      match b.counter with
      | some n => (.ok n, b)
      | none => (.error .other, b)
  | .tick, b => (b.now % 2 ^ 32, b)
  | .touch _, b => (.ok, b)
  | .note n, b => ((), b.jot n)

/-- The reply of a call that failed on the chip. The other calls cannot. -/
def boardFailed : (o : BoardOp N) → Option (BoardRet o)
  | .session => some (.error .other)
  | .eccGenerate _ _ => some (.error .other)
  | .eccPubkeyRead _ => some (.error .other)
  | .eccErase _ => some (.error .other)
  | .eddsaSign _ _ => some (.error .other)
  | .ecdsaSign _ _ => some (.error .other)
  | .mcounterInit _ => some (.error .other)
  | .mcounterUpdate => some (.error .other)
  | .mcounterGet => some (.error .other)
  | .tick => none
  | .touch _ => none
  | .note _ => none

/-- One call under a fate. The power can also go during a touch wait. -/
def boardAct (K : KeyPrims) (f : BoardFate) (o : BoardOp N) (b : Board N) :
    Option (BoardRet o) × Board N :=
  match o with
  | .tick => (some ((b.now + f.delay) % 2 ^ 32), b.wait f.delay)
  | .note n => (some (), b.jot n)
  | .touch _ =>
      match f.chip with
      | .cutBefore => (none, b)
      | _ => (some f.up, b.wait f.delay)
  | o =>
      match f.chip with
      | .none => (some (boardExec K o b).1, (boardExec K o b).2)
      | .fail => (boardFailed o, b)
      | .lost => (boardFailed o, (boardExec K o b).2)
      | .torn _ _ => (boardFailed o, b)
      | .cutBefore => (none, b)
      | .cutAfter => (none, (boardExec K o b).2)
      | .cutTorn _ => (none, b)

/-- The chip and the board. -/
def boardMachine (P : Prims) (K : KeyPrims) :
    Machine (Op ⊕ BoardOp N) (Both Ret BoardRet) (Board N) BoardFate where
  act f o b :=
    match o with
    | .inl o => ((act P f.chip o b.chip).1, b.setChip (act P f.chip o b.chip).2)
    | .inr o => boardAct K f o b
  quiet := .quiet

/-- The chip is a part of the board. -/
def onBoard (P : Prims) (K : KeyPrims) : Extends (chip P) (boardMachine (N := N) P K) where
  fate := BoardFate.chip
  part := Board.chip
  put := Board.setChip
  act_eq _ _ _ := rfl
  part_put _ _ := rfl
  put_put _ _ _ := rfl
  put_part _ := rfl

end Machine

/-- Firmware code on the board, with the volatile memory `ρ`. -/
abbrev Bw (N ρ α : Type) := StProg (Op ⊕ BoardOp N) (Both Ret BoardRet) ρ α

section Calls

variable {N ρ α : Type}

/-- The whole memory as a cell of itself. -/
def wholeCell (ρ : Type) : Cell ρ ρ := ⟨id, fun _ v => v⟩

/-- A chip call made by code on the board. -/
def onChip (m : Fw ρ α) : Bw N ρ α := zoom (wholeCell ρ) m

def onPair (c : Cell ρ Bool) (m : Fw Bool α) : Bw N ρ α := zoom c m

def callBoard (o : BoardOp N) : Bw N ρ (BoardRet o) :=
  StProg.perform (Sum.inr o)

def tropicSessionEnsure : Bw N ρ (Reply Unit) := callBoard .session
def tropicEccGenerate (slot curve : ℕ) : Bw N ρ (Reply Unit) := callBoard (.eccGenerate slot curve)
def tropicEccPubkeyRead (slot : ℕ) : Bw N ρ (Reply Bytes) := callBoard (.eccPubkeyRead slot)
def tropicEccErase (slot : ℕ) : Bw N ρ (Reply Unit) := callBoard (.eccErase slot)
def tropicEddsaSign (slot : ℕ) (msg : Bytes) : Bw N ρ (Reply Bytes) :=
  callBoard (.eddsaSign slot msg)
def tropicEcdsaSign (slot : ℕ) (msg : Bytes) : Bw N ρ (Reply Bytes) :=
  callBoard (.ecdsaSign slot msg)
def tropicMcounterInit (value : ℕ) : Bw N ρ (Reply Unit) := callBoard (.mcounterInit value)
def tropicMcounterUpdate : Bw N ρ (Reply Unit) := callBoard .mcounterUpdate
def tropicMcounterGet : Bw N ρ (Reply ℕ) := callBoard .mcounterGet
def halGetTick : Bw N ρ ℕ := callBoard .tick
def userPresenceCheck (timeout : ℕ) : Bw N ρ UpResult := callBoard (.touch timeout)
def leave (n : N) : Bw N ρ Unit := callBoard (.note n)

end Calls

end Nixtropic
