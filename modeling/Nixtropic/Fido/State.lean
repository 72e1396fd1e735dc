import Nixtropic.Fido.Slots

/-!
`pin_md.c` and `fido_state.c`: the FIDO PIN, and what is done with the
persistent state at boot and at a reset.

The PIN binding is the object O2; that one was committed is also written to
O1, so that a binding that is gone is not taken for one that never was.
-/

namespace Nixtropic.Fido

open Crash

/-- `s_o2` -/
def o2 : RecPair := ⟨41, 42, 2, 1, by decide⟩

/-- `FIDO_LAYOUT` -/
def fidoLayout : Layout where
  record := o2
  base0 := 0
  base1 := 8
  ranges := 2
  rounds := 8
  matLen := 16

/-- `FIDO_MCOUNTER_MAX` -/
def fidoMcounterMax : ℕ := 0xfffffffe

/-- `fido_pin_state_t` -/
inductive FpinState where
  | notSet
  | set
  | blocked
  | error
  deriving DecidableEq, Repr

variable (F : FidoPrims)

/-- `fido_pin_state`, with the attempts left. -/
def fidoPinState : FidoM (FpinState × ℕ) := do
  match (← get).pinBound? with
  | none => pure (.error, 0)
  | some bound =>
      let st ← onPair o2Cell (pinMdKernelStatus F.chip fidoLayout)
      match st.state with
      | .absent => pure (if bound then .error else .notSet, 0)
      | .active => pure (.set, st.attempts)
      | .blocked => pure (.blocked, 0)
      | .error => pure (.error, 0)

def fidoPinSet (mat : Bytes) (pinLen : UInt8) : FidoM Bool := do
  let (st, _) ← fidoPinState F
  if st ≠ .notSet then pure false
  else
    let r ← onPair o2Cell (pinMdKernelSetup F.chip fidoLayout mat pinLen)
    if r.rc ≠ .ok then pure false
    else slotsSetPinBound F true true

/-- The return code of `map_rc` with the `correct` output. -/
inductive PinRc where
  | ok (correct : Bool)
  | error
  | blocked
  deriving DecidableEq, Repr

def mapRc (r : PmdReply) : PinRc :=
  match r.rc with
  | .ok => .ok r.correct
  | .blocked => .blocked
  | _ => .error

def fidoPinVerify (mat : Bytes) : FidoM PinRc := do
  let r ← onPair o2Cell (pinMdKernelVerify F.chip fidoLayout mat)
  leave (.pinVerify mat r)
  pure (mapRc r)

def fidoPinChange (oldMat newMat : Bytes) (newPinLen : UInt8) : FidoM PinRc := do
  let r ← onPair o2Cell (pinMdKernelChange F.chip fidoLayout oldMat newMat newPinLen)
  pure (mapRc r)

/-- `fido_pin_usable`, on the variables. -/
def FidoRam.pinUsable (u : FidoRam) : Bool := !u.o2Uncertain

def fidoPinClear : FidoM Bool := do
  modify fun u => { u with o2Uncertain := false }
  let rc ← onPair o2Cell (pinMdKernelClear fidoLayout)
  pure (decide (rc = .ok))

def fidoPinBoot : FidoM Bool := do
  match (← get).pinBound? with
  | none => pure false
  | some bound =>
      let st ← onPair o2Cell (pinMdKernelStatus F.chip fidoLayout)
      if st.state = .error then pure false
      else if st.state = .absent then pure (!bound)
      -- committed, but the guard is missing: finish the first setPin
      else if bound then pure true
      else slotsSetPinBound F true true

/-- Erase every FIDO key. -/
def eraseKeys : FidoM Bool := do
  let r ← StProg.loop fidoSlotsMax (fun i (_ : Unit) => do
    match ← tropicEccErase i with
    | .error _ => pure none
    | .ok () => pure (some ())) ()
  pure r.isSome

/-- `fido_state_wipe`: 0, or the number of the step that failed. -/
def fidoStateWipe : FidoM Int := do
  if ← eraseKeys then
    if ← slotsWipeMeta then
      leave .wiped
      if ← fidoPinClear then
        if ← slotsInitFresh F then
          match ← tropicMcounterInit fidoMcounterMax with
          | .ok () => pure 0
          | .error _ => pure (-5)
        else pure (-4)
      else pure (-3)
    else pure (-2)
  else pure (-1)

def fidoStateBoot : FidoM Int := do
  match ← slotsInit F with
  | .absent => fidoStateWipe F
  | .error => pure (-10)
  | .ok =>
      if ← fidoPinBoot F then
        -- a counter that cannot be read is never initialised here
        match ← tropicMcounterGet with
        | .error _ => pure (-12)
        | .ok v => pure (if fidoMcounterMax < v then -12 else 0)
      else pure (-11)

end Nixtropic.Fido
