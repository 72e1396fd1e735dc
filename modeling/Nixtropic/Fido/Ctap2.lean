import Nixtropic.Fido.Management
import Nixtropic.Runs.System

/-!
`ctap2.c`: the dispatcher, and the FIDO side of the device as a system.

The device is booted, answers requests one after another, and loses its
variables with the power. A call may be cut at any chip call, and the power
may go between two requests.
-/

namespace Nixtropic.Fido

open Crash Runs

def resetWindowMs : ℕ := 10000

variable (F : FidoPrims)

/-- `build_get_info` -/
def getInfo : FidoM Answer := do
  let alwaysUv := (← get).forceUvGet
  let clientPin ← pinIsSet F
  pure (Answer.info alwaysUv clientPin).fitted

/-- authenticatorReset: within its window after power-up, and after a touch. -/
def ctap2Reset : FidoM Answer := do
  let now ← halGetTick
  leave .resetCheck
  if resetWindowMs < now then pure (.status .notAllowed)
  else do
    leave .resetTouch
    let up ← userPresenceCheck 10000
    if up ≠ .ok then pure (.status (touchStatus up))
    else do
      let ok ← credstoreFactoryReset F
      pinResetRam F
      pure (.status (if ok then .ok else .other))

/-- The `switch` of the dispatcher. -/
def serve (c : Command) : FidoM Answer := do
  match c with
  | .empty => pure (.status .invalidLength)
  | .getInfo => getInfo F
  | .makeCredential q => ctap2MakeCredential F q
  | .getAssertion q => ctap2GetAssertion F q
  | .getNextAssertion => ctap2GetNextAssertion F
  | .clientPin c => pinHandleCbor F c
  | .reset => ctap2Reset F
  | .credentialMgmt q => credmgmtHandleCbor F q
  | .config q => ctap2Config F q
  | .unknown => pure (.status .invalidCommand)

def Command.isCredentialMgmt : Command → Bool
  | .credentialMgmt _ => true
  | _ => false

def Command.isAssertion : Command → Bool
  | .getAssertion _ => true
  | .getNextAssertion => true
  | _ => false

/-- GetInfo and Reset are served whatever the state. -/
def Command.isOpen : Command → Bool
  | .getInfo => true
  | .reset => true
  | _ => false

def Command.isEmpty : Command → Bool
  | .empty => true
  | _ => false

/-- Any other command ends an enumeration of the credential management. -/
def endEnumeration (c : Command) : FidoM Unit :=
  if c.isCredentialMgmt then pure () else credmgmtResetIterator

/-- Any other command ends an iteration of the assertions. -/
def endIteration (c : Command) : FidoM Unit :=
  if c.isAssertion then pure () else ctap2AssertionReset

/-- The checks of the dispatcher before its `switch`. -/
def serveChecked (r : Request) : FidoM Answer := do
  if r.cborValid = false then pure (.status .invalidCbor)
  else if r.command.isOpen = false ∧ (← get).ready = false then pure (.status .notAllowed)
  else serve F r.command

/-- `fido_hid_cbor_dispatch` -/
def dispatch (r : Request) : FidoM Answer := do
  if r.command.isEmpty then pure (.status .invalidLength)
  else do
    endEnumeration r.command
    endIteration r.command
    serveChecked F r

/-- One request and its answer. -/
def fidoHidCborDispatch (r : Request) : FidoM Answer := do
  leave (.request r)
  let a ← dispatch F r
  leave (.answer r a)
  pure a

/-- The part of `main` that brings the FIDO side up. -/
def bringUp : FidoM Unit := do
  leave .powerUp
  let _ ← credstoreInit F
  if ← pinInit F then do
    let _ ← pinIsSet F
    pure ()
  else pure ()

/-! ### The device -/

/-- The device between two actions; no variables while it is off. -/
structure Device where
  ram : Option FidoRam
  board : Board Note

/-- The power comes, or a request arrives; the fates are those of the calls
that follow. -/
inductive Action where
  | powerUp (fs : List BoardFate)
  | request (r : Request) (fs : List BoardFate)

/-- Where a run leaves the device. -/
def Device.settle {α : Type} : Outcome (α × FidoRam) (Board Note) → Device
  | .done (_, u) b => ⟨some u, b⟩
  | .cut b => ⟨none, b⟩

/-- At power-up the variables are new and the clock starts again. -/
def Device.step (d : Device) : Action → Device
  | .powerUp fs =>
      .settle (run (fidoBoard F) ((bringUp F).run .boot) fs { d.board with now := 0 })
  | .request r fs =>
      match d.ram with
      | some u => .settle (run (fidoBoard F) ((fidoHidCborDispatch F r).run u) fs d.board)
      | none => d

/-- The device, found switched off with a board; no notes are left yet. -/
def device (b : Board Note) : System Device Action :=
  ⟨⟨none, { b with notes := [] }⟩, Device.step F⟩

/-- Primitives to run the model with. -/
def mixFido : FidoPrims where
  chip := mixPrims
  key := {
    pub := fun k => (mix 5 [UInt8.ofNat k.serial]) ++ if k.curve = 0 then [] else mix 6 []
    sign := fun k msg => mix 7 (UInt8.ofNat k.serial :: msg) ++ mix 8 []
    pub_length := fun k => by split <;> simp [mix, *]
    sign_length := fun k msg => by simp [mix] }
  p256Pub k := some (0x04 :: k ++ k)
  p256Ecdh k p := some (0x04 :: mix 9 (k ++ p))
  aesCbcDec _ c := some c
  aesCbcEnc _ c := some c

/-- A board with a blank chip. -/
def blankBoard : Board Note where
  chip := .blank
  ecc _ := none
  serials := 0
  counter := none
  now := 0
  notes := []

/-! ### Requests to run the model with -/

/-- A passkey for a user of an RP. -/
def demoMake (rp user : UInt8) : Request where
  command := .makeCredential (.ok {
    clientHash := zeros
    rpId := [rp]
    userId := [user]
    alg := .es256
    exclude := []
    wantCredProps := false
    opt := ⟨some true, none, none⟩
    pinUv := ⟨none, none⟩
    clientHash_length := length_zeros
    userId_length := by simp [userIdMax] })
  cborValid := true

def demoMade : List Action := [.powerUp [], .request (demoMake 1 1) []]

/-- The id of that passkey, as the answer has it. -/
def demoMadeId : Bytes :=
  match ((device mixFido blankBoard).run demoMade).board.notes with
  | ⟨.answer _ (.attestation authData), _, _, _⟩ :: _ => (authData.drop 55).take slotsCredIdLen
  | _ => []

def demoPin : Bytes := ascii "1234"

/-- The key that a platform with an empty public key shares with the device. -/
def Device.demoKey (d : Device) : Bytes :=
  match d.ram with
  | none => []
  | some u => mixFido.chip.sha256 (mix 9 (u.pin.ephPriv ++ [0x04]))

def Device.demoSetPin (d : Device) : Request where
  command := .clientPin (.setPin (.ok {
    keyAgreement := some []
    pinAuth := some ((mixFido.chip.hmac d.demoKey demoPin).take 16)
    newPinEnc := some demoPin
    pinHashEnc := none
    perms := none
    rpId := none }))
  cborValid := true

def demoGetToken (perms : UInt8) (rpId : Option Bytes) : Request where
  command := .clientPin (.getPinTokenPerms (.ok {
    keyAgreement := some []
    pinAuth := none
    newPinEnc := none
    pinHashEnc := some ((mixFido.chip.sha256 demoPin).take pinHashLen)
    perms := some perms.toNat
    rpId := rpId }))
  cborValid := true

/-- The token that the device holds. -/
def Device.demoToken (d : Device) : Bytes :=
  match d.ram with
  | none => []
  | some u => u.token.token

end Nixtropic.Fido
