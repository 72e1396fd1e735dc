import Nixtropic.Pgp.State

/-!
`pgp_pin.c`: PW1, PW3 and the Resetting Code on the MAC-and-Destroy kernel.

A PIN is one binding of the kernel and nothing else. The Resetting Code has one
range only, so that setting it is a clear and then a setup, and `rc_set` in O3
says whether the binding in O6 counts.
-/

namespace Nixtropic.Pgp

open Crash

def pinRounds : ℕ := 3
def pw1MinLen : ℕ := 6
def pw3MinLen : ℕ := 8
def rcMinLen : ℕ := 8
def pinMaxLen : ℕ := 64
/-- `MAT_LEN` -/
def pinMatLen : ℕ := 32

/-- `s_o4`, `s_o5` and `s_o6` -/
def o4 : RecPair := ⟨50, 53, 4, 1, by decide⟩
def o5 : RecPair := ⟨51, 54, 5, 1, by decide⟩
def o6 : RecPair := ⟨52, 55, 6, 1, by decide⟩

/-- `LAYOUT` -/
def layoutOf : Which → Layout
  | .pw1 => ⟨o4, 16, 19, 2, pinRounds, pinMatLen⟩
  | .pw3 => ⟨o5, 22, 25, 2, pinRounds, pinMatLen⟩
  | .rc => ⟨o6, 28, 0, 1, pinRounds, pinMatLen⟩

/-- `"123456"` and `"12345678"` -/
def factoryPw1 : Bytes := [0x31, 0x32, 0x33, 0x34, 0x35, 0x36]
def factoryPw3 : Bytes := [0x31, 0x32, 0x33, 0x34, 0x35, 0x36, 0x37, 0x38]

def minLen : Which → ℕ
  | .pw1 => pw1MinLen
  | .pw3 => pw3MinLen
  | .rc => rcMinLen

def lenOk (which : Which) (pin : Bytes) : Bool :=
  minLen which ≤ pin.length ∧ pin.length ≤ pinMaxLen

/-- `pgp_pin_state_t` -/
inductive PinState where
  | active
  | blocked
  | notSet
  | error
  deriving DecidableEq, Repr

/-- `PGP_PIN_OK` and the error codes. -/
inductive PinRc where
  | ok
  | wrong
  | blk
  | unset
  | badLen
  | err
  deriving DecidableEq, Repr

/-- `pgp_pin_status` with its two outputs. -/
structure PinStatus where
  state : PinState
  attempts : ℕ
  pinLen : UInt8
  deriving DecidableEq, Repr

/-- The outputs are there for a binding that could be read. -/
def PinStatus.bare (st : PinState) : PinStatus := ⟨st, 0, 0⟩

/-- What the kernel answered, under the guard of O3: without a binding only a
terminated card has no PW1 and no PW3. -/
def PinStatus.guarded (which : Which) (lc : Lifecycle) (st : PmdStatus) : PinStatus :=
  match st.state with
  | .active => ⟨.active, st.attempts, st.pinLen⟩
  | .blocked => ⟨.blocked, st.attempts, st.pinLen⟩
  | .absent => .bare (if which ≠ .rc ∧ lc = .terminated then .notSet else .error)
  | .error => .bare .error

/-- `map_rc` -/
def mapRc (rc : PmdRc) (correct : Bool) : PinRc :=
  match rc with
  | .ok => if correct then .ok else .wrong
  | .blocked => .blk
  | _ => .err

section Pins

variable (F : PgpPrims)

/-- `material` -/
def pinMaterial (pin : Bytes) : Bytes := F.chip.sha256 pin

def pgpPinStatus (which : Which) : PgpM PinStatus := do
  let u ← get
  if which = .rc ∧ u.o3.lifecycle ≠ .operational then pure (.bare .error)
  else if which = .rc ∧ u.o3.rcSet = 0 then pure (.bare .notSet)
  else do
    let st ← onPair (pinCell which) (pinMdKernelStatus F.chip (layoutOf which))
    pure (.guarded which u.o3.lifecycle st)

/-- The return code, and `k` on success; it is zero otherwise. -/
def pgpPinVerify (which : Which) (pin : Bytes) : PgpM (PinRc × Bytes) := do
  let u ← get
  if lenOk which pin = false then pure (.badLen, zeros)
  else if which = .rc ∧ u.o3.lifecycle ≠ .operational then pure (.err, zeros)
  else if which = .rc ∧ u.o3.rcSet = 0 then pure (.unset, zeros)
  else do
    let r ← onPair (pinCell which) (pinMdKernelVerify F.chip (layoutOf which) (pinMaterial F pin))
    pure (mapRc r.rc r.correct, r.k)

def pgpPinChange (which : Which) (old new : Bytes) : PgpM PinRc := do
  if which = .rc then pure .err
  else if lenOk which old = false ∨ lenOk which new = false then pure .badLen
  else do
    let r ← onPair (pinCell which) (pinMdKernelChange F.chip (layoutOf which) (pinMaterial F old)
      (pinMaterial F new) (UInt8.ofNat new.length))
    pure (mapRc r.rc r.correct)

/-- `bind` -/
def bindPin (which : Which) (pin : Bytes) : PgpM Bool := do
  let r ← onPair (pinCell which)
    (pinMdKernelSetup F.chip (layoutOf which) (pinMaterial F pin) (UInt8.ofNat pin.length))
  pure (decide (r.rc = .ok))

def pgpPinResetPw1Check (pin : Bytes) : PgpM PinRc := do
  let u ← get
  if lenOk .pw1 pin = false then pure .badLen
  else if u.o3.lifecycle ≠ .operational then pure .err
  else do
    let st ← pgpPinStatus F .pw1
    pure (if st.state = .error then .err else .ok)

def pgpPinResetPw1 (pin : Bytes) : PgpM PinRc := do
  let u ← get
  if lenOk .pw1 pin = false then pure .badLen
  else if u.o3.lifecycle ≠ .operational then pure .err
  else
    if ← bindPin F .pw1 pin then pure .ok else pure .err

/-- The checked retirement and erase of one PIN, whatever its record holds. -/
def clearPin (which : Which) : PgpM Bool := do
  modify fun u => (pinCell which).put u false
  match ← onPair (pinCell which) (pinMdKernelClear (layoutOf which)) with
  | .ok => pure true
  | _ => pure false

/-- The last step of `pgp_pin_set_rc`, with O6 clear and `rc_set` 0. -/
def bindRc (rc : Bytes) : PgpM PinRc := do
  if ← bindPin F .rc rc then
    if ← openpgpStateSetRcSet F 1 then pure .ok else pure .err
  else pure .err

/-- Clear O6, clear the guard, set O6 up, set the guard; an empty code stops in
the middle. -/
def pgpPinSetRc (rc : Bytes) : PgpM PinRc := do
  let u ← get
  if rc.length ≠ 0 ∧ lenOk .rc rc = false then pure .badLen
  else if u.o3.lifecycle ≠ .operational then pure .err
  else if ← clearPin .rc then do
    let u ← get
    let dropped ← if u.o3.rcSet ≠ 0 then openpgpStateSetRcSet F 0 else pure true
    if dropped then
      if rc.length = 0 then pure .ok else bindRc F rc
    else pure .err
  else pure .err

def pgpPinBindFactory : PgpM Bool := do
  if ← bindPin F .pw1 factoryPw1 then bindPin F .pw3 factoryPw3 else pure false

def pgpPinClearAll : PgpM Bool := do
  if ← clearPin .pw1 then
    if ← clearPin .pw3 then clearPin .rc else pure false
  else pure false

end Pins

end Nixtropic.Pgp
