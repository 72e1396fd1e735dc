import Nixtropic.Fido.Credstore

/-!
`pin.c`: authenticatorClientPIN, PIN protocol 1.

The platform and the device agree on a key over P-256; the PIN and the token
travel under it. The PIN itself is checked by the M&D binding of `pin_md.c`.
-/

namespace Nixtropic.Fido

open Crash

def pinHashLen : ℕ := 16
def pinMinBytes : ℕ := 4
def pinMaxBytes : ℕ := 63
def pinAuthBlockedConsec : ℕ := 3

/-- `PUAT_PERM_BE | PUAT_PERM_LBW` -/
def puatPermsRefused : ℕ := 0x18

def setPinRam (f : PinRam → PinRam) : FidoM Unit := modify fun u => { u with pin := f u.pin }

variable (F : FidoPrims)

/-- The turns of the loop in `regen_eph`: a random scalar below `2^255`, until
it is one with a public key. -/
def regenEphFrom : ℕ → FidoM Bool
  | 0 => pure false
  | n + 1 => do
      match ← onChip (tropicRandom 32) with
      | .error _ => pure false
      | .ok rnd => do
          let priv := (rnd.headD 0 &&& 0x7f) :: rnd.tail
          setPinRam fun p => { p with ephPriv := priv }
          if priv.all (· = 0) then regenEphFrom n
          else
            match F.p256Pub priv with
            | none => regenEphFrom n
            | some pub => do
                setPinRam fun p => { p with ephPub := pub }
                pure true

def regenEph : FidoM Bool := regenEphFrom F 16

def pinInit : FidoM Bool := do
  if ← regenEph F then do
    puatReset
    setPinRam fun p => { p with consecFails := 0, authBlocked := false, initted := true }
    pure true
  else pure false

/-- `if (!s_initted && pin_init() != 0)`, the other way round. -/
def pinReady : FidoM Bool := do
  if (← get).pin.initted then pure true else pinInit F

def pinResetRam : FidoM Unit := do
  puatReset
  setPinRam fun p => { p with consecFails := 0, authBlocked := false }
  let _ ← regenEph F
  pure ()

/-- An unreadable PIN state counts as a PIN that is set. -/
def pinIsSet : FidoM Bool := do
  let (st, _) ← fidoPinState F
  pure (decide (st ≠ .notSet))

/-- SHA-256 of the X coordinate of the shared point. -/
def computeSharedKey (peerXy : Bytes) : FidoM (Option Bytes) := do
  match F.p256Ecdh (← get).pin.ephPriv (0x04 :: peerXy) with
  | none => pure none
  | some shared => pure (some (F.chip.sha256 ((shared.drop 1).take 32)))

def pinAuthCompute (key msg : Bytes) : FidoM Bytes := do
  let full ← onChip (hmacSha256 key msg)
  pure (full.take 16)

/-- The PIN without its padding. -/
def unpadPin (padded : Bytes) : Bytes := (padded.reverse.dropWhile (· = 0)).reverse

/-- What `new_pin_hash` makes of `newPinEnc`. -/
inductive NewPin where
  | ok (hash : Bytes) (len : ℕ)
  | policy
  | other
  deriving DecidableEq, Repr

def newPinHash (key newPinEnc : Bytes) : NewPin :=
  match F.aesCbcDec key newPinEnc with
  | none => .other
  | some padded =>
      let pin := unpadPin padded
      if pin.length < pinMinBytes ∨ pinMaxBytes < pin.length then .policy
      else .ok (F.chip.sha256 pin) pin.length

def handleGetRetries : FidoM Answer := do
  let (st, att) ← fidoPinState F
  match st with
  | .notSet => pure (.retries fidoLayout.rounds)
  | .set => pure (.retries att)
  | .blocked => pure (.retries 0)
  | .error => pure (.status .other)

def handleGetKeyAgreement : FidoM Answer := do
  if ← pinReady F then pure (.keyAgreement (← get).pin.ephPub) else pure (.status .other)

/-- The bookkeeping after a wrong PIN. -/
def pinMismatchStatus : FidoM Status := do
  let (st, _) ← fidoPinState F
  setPinRam fun p => { p with
    consecFails := (p.consecFails + 1) % 256
    authBlocked := p.authBlocked ||
      decide (pinAuthBlockedConsec ≤ (p.consecFails + 1) % 256) }
  let _ ← regenEph F
  match st with
  | .blocked => pure .pinBlocked
  | .set => pure (if (← get).pin.authBlocked then .pinAuthBlocked else .pinInvalid)
  | _ => pure .other

/-! ### setPin and changePin -/

/-- Every token dies before the binding is touched. -/
def setPinWithKey (key newPinEnc pinAuth : Bytes) : FidoM Status := do
  let expected ← pinAuthCompute key newPinEnc
  if expected ≠ pinAuth then pure .pinAuthInvalid
  else
    match newPinHash F key newPinEnc with
    | .other => pure .other
    | .policy => pure .pinPolicyViolation
    | .ok hash len => do
        puatReset
        if ← fidoPinSet F (hash.take pinHashLen) (UInt8.ofNat len) then do
          let _ ← regenEph F
          puatReset
          setPinRam fun p => { p with consecFails := 0, authBlocked := false }
          pure .ok
        else pure .other

def handleSetPin (q : Except Status PinReq) : FidoM Status := do
  let (st, _) ← fidoPinState F
  match st with
  | .notSet =>
      match q with
      | .error s => pure s
      | .ok q =>
          match q.keyAgreement, q.pinAuth, q.newPinEnc with
          | some ka, some pa, some npe =>
              if ← pinReady F then
                match ← computeSharedKey F ka with
                | none => pure .invalidParameter
                | some key => setPinWithKey F key npe pa
              else pure .other
          | _, _, _ => pure .missingParameter
  | .error => pure .other
  | _ => pure .pinAuthInvalid

/-- What follows the kernel call of `change_pin_with_key`; `policy` is the
status of the new PIN. -/
def changeOutcome (rc : PinRc) (policy : Status) : FidoM Status := do
  match rc with
  | .blocked => do
      let _ ← regenEph F
      pure .pinBlocked
  | .error => pure .other
  | .ok false => pinMismatchStatus F
  | .ok true => do
      setPinRam fun p => { p with consecFails := 0 }
      if policy = .ok then do
        let _ ← regenEph F
        pure .ok
      else pure policy

def changePinWithKey (key newPinEnc pinHashEnc pinAuth : Bytes) : FidoM Status := do
  let expected ← pinAuthCompute key (newPinEnc ++ pinHashEnc)
  if expected ≠ pinAuth then pure .pinAuthInvalid
  else
    match F.aesCbcDec key pinHashEnc, newPinHash F key newPinEnc with
    | none, _ => pure .other
    | _, .other => pure .other
    | some oldHash, .ok hash len => do
        puatReset
        let rc ← fidoPinChange F oldHash (hash.take pinHashLen) (UInt8.ofNat len)
        changeOutcome F rc .ok
    | some oldHash, .policy => do
        puatReset
        let rc ← fidoPinVerify F oldHash
        changeOutcome F rc .pinPolicyViolation

/-- The gate that changePin and getPinToken share: the status to answer when
no PIN can be checked. -/
def pinGate : FidoM (Option Status) := do
  let (st, _) ← fidoPinState F
  match st with
  | .set => pure (if (← get).pin.authBlocked then some .pinAuthBlocked else none)
  | .notSet => pure (some .pinNotSet)
  | .blocked => pure (some .pinBlocked)
  | .error => pure (some .other)

def handleChangePin (q : Except Status PinReq) : FidoM Status := do
  match ← pinGate F with
  | some s => pure s
  | none =>
      match q with
      | .error s => pure s
      | .ok q =>
          match q.keyAgreement, q.pinAuth, q.newPinEnc, q.pinHashEnc with
          | some ka, some pa, some npe, some phe =>
              if ← pinReady F then
                match ← computeSharedKey F ka with
                | none => pure .invalidParameter
                | some key => changePinWithKey F key npe phe pa
              else pure .other
          | _, _, _, _ => pure .missingParameter

/-! ### Tokens -/

/-- The parameter checks of getPinToken: the platform key, the encrypted hash
and the permissions. -/
def checkTokenReq (q : PinReq) (withPerms : Bool) : Except Status (Bytes × Bytes × UInt8) :=
  match q.keyAgreement, q.pinHashEnc with
  | some ka, some phe =>
      if withPerms then
        match q.perms with
        | none => .error .missingParameter
        | some perms =>
            if perms = 0 then .error .invalidParameter
            else if perms &&& puatPermsRefused ≠ 0 then .error .unauthorizedPermission
            else .ok (ka, phe, UInt8.ofNat perms &&& puatPermsKnown)
      -- the older command has no permissions and no RP
      else if q.perms.isSome ∨ q.rpId.isSome then .error .invalidParameter
      else .ok (ka, phe, puatPermMc ||| puatPermGa)
  | _, _ => .error .missingParameter

def verifyPinHashEnc (sharedKey pinHashEnc : Bytes) : FidoM Status := do
  match F.aesCbcDec sharedKey pinHashEnc with
  | none => pure .other
  | some submitted =>
      match ← fidoPinVerify F submitted with
      | .blocked => do
          let _ ← regenEph F
          pure .pinBlocked
      | .error => pure .other
      | .ok false => pinMismatchStatus F
      | .ok true => do
          setPinRam fun p => { p with consecFails := 0 }
          pure .ok

/-- The end of `issue_token`: begin with the new token and send it. -/
def sendToken (sharedKey : Bytes) (perms : UInt8) (rpHash : Option Bytes) (token : Bytes) :
    FidoM Answer := do
  let now ← halGetTick
  puatBegin token perms rpHash now
  match F.aesCbcEnc sharedKey token with
  | none => do
      puatReset
      pure (.status .other)
  | some enc =>
      if respMax - 1 < (Answer.pinToken enc).body.length then do
        puatReset
        pure (.status .other)
      else pure (.pinToken enc)

/-- Every older token dies first. -/
def issueToken (sharedKey : Bytes) (perms : UInt8) (rpId : Option Bytes) : FidoM Answer := do
  puatReset
  match ← onChip (tropicRandom 32) with
  | .error _ => pure (.status .other)
  | .ok token => sendToken F sharedKey perms (rpId.map F.chip.sha256) token

def handleGetPinToken (q : Except Status PinReq) (withPerms : Bool) : FidoM Answer := do
  match q with
  | .error s => pure (.status s)
  | .ok q =>
      match checkTokenReq q withPerms with
      | .error s => pure (.status s)
      | .ok (ka, phe, perms) =>
          match ← pinGate F with
          | some s => pure (.status s)
          | none =>
              match ← computeSharedKey F ka with
              | none => pure (.status .invalidParameter)
              | some key => do
                  let rc ← verifyPinHashEnc F key phe
                  if rc = .ok then issueToken F key perms q.rpId
                  else pure (.status rc)

def pinHandleCbor (c : PinCommand) : FidoM Answer := do
  if ← pinReady F then
    match c with
    | .malformed s => pure (.status s)
    | .getRetries => handleGetRetries F
    | .getKeyAgreement => handleGetKeyAgreement F
    | .setPin q => do pure (.status (← handleSetPin F q))
    | .changePin q => do pure (.status (← handleChangePin F q))
    | .getPinToken q => handleGetPinToken F q false
    | .getPinTokenPerms q => handleGetPinToken F q true
  else pure (.status .other)

end Nixtropic.Fido
