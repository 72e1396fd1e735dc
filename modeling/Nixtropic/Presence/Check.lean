import Nixtropic.Device.Board
import Nixtropic.Presence.Debounce
import Nixtropic.Runs.System

/-!
`user_presence_check`, which waits for a press of the button.

The samples come from an interrupt, at any point of the code. A check is
therefore taken apart at the points where it reads what others write: the
test of the loop with the clock, the pump, the test of the cancel latch, the
test of the button, and the return. Its first tests are one piece, whose
moment is the one at which the button is read; the interrupt writes nothing
else that they read. `HAL_Delay` only lets samples come.
-/

namespace Nixtropic.Presence

inductive Owner where
  | fido
  | openpgp
  deriving DecidableEq, Repr

/-- Where a waiting check is: before the test of the loop, in the pump, before
the two tests that follow it, or after the loop with `ok_a && ok_b`. -/
inductive Pc where
  | loop
  | pump
  | testCancel
  | testPressed
  | leave (ok : Bool)
  deriving DecidableEq, Repr

/-- The check that waits: its caller and arguments, `start`, and how many
samples there were when it began. -/
structure Wait where
  owner : Owner
  timeoutMs : ℕ
  start : ℕ
  began : ℕ
  pc : Pc
  deriving DecidableEq, Repr

/-- A check that has returned, with the number of samples at its start and at
its return. -/
structure Result where
  owner : Owner
  value : UpResult
  began : ℕ
  ended : ℕ
  deriving DecidableEq, Repr

/-- The static variables of the file, the clock, the waiting check, and what
has happened: the samples and the results, both newest first. -/
structure State where
  button : Button
  awaiting : Bool
  cancel : Bool
  now : ℕ
  wait : Option Wait
  samples : List Bool
  results : List Result
  deriving DecidableEq, Repr

def State.init : State := ⟨.init, false, false, 0, none, [], []⟩

/-- `SysTick_Handler`: the clock, then the debouncer. -/
def sysTick (raw : Bool) (s : State) : State :=
  { s with
    now := (s.now + 1) % 2 ^ 32
    button := systickTick raw s.button
    samples := raw :: s.samples }

def State.note (s : State) (owner : Owner) (value : UpResult) (began : ℕ) : State :=
  { s with results := ⟨owner, value, began, s.samples.length⟩ :: s.results }

/-- `user_presence_check` up to its loop, or to a return before it. -/
def userPresenceCheck (owner : Owner) (timeoutMs : ℕ) (s : State) : State :=
  if s.awaiting then s.note owner .fail s.samples.length
  else if s.cancel then s.note owner .cancel s.samples.length
  else if s.button.pressed then s.note owner .fail s.samples.length
  else { s with
    awaiting := true
    wait := some ⟨owner, timeoutMs, s.now, s.samples.length, .loop⟩ }

def outcome (ok cancel : Bool) : UpResult :=
  if ok then .ok else if cancel then .cancel else .fail

def advance (w : Wait) (s : State) : State :=
  match w.pc with
  | .loop =>
    if (s.now + 2 ^ 32 - w.start) % 2 ^ 32 < w.timeoutMs then
      { s with wait := some { w with pc := .pump } }
    else { s with wait := some { w with pc := .leave false } }
  | .pump => { s with wait := some { w with pc := .testCancel } }
  | .testCancel =>
    { s with wait := some { w with pc := if s.cancel then .leave false else .testPressed } }
  | .testPressed =>
    { s with wait := some { w with pc := if s.button.pressed then .leave true else .loop } }
  | .leave ok =>
    State.note { s with awaiting := false, wait := none } w.owner (outcome ok s.cancel) w.began

inductive Act where
  /-- the interrupt, with the sample it takes -/
  | sample (raw : Bool)
  | cancel
  | clearCancel
  | call (owner : Owner) (timeoutMs : ℕ)
  | go
  deriving DecidableEq, Repr

def step (s : State) : Act → State
  | .sample raw => sysTick raw s
  | .cancel => { s with cancel := true }
  | .clearCancel => { s with cancel := false }
  | .call owner timeoutMs => userPresenceCheck owner timeoutMs s
  | .go =>
    match s.wait with
    | none => s
    | some w => advance w s

/-- Samples, checks and cancels in any order, from power-up on. -/
def system : Runs.System State Act := ⟨.init, step⟩

end Nixtropic.Presence
