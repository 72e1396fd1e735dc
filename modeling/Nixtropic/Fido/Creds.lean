import Nixtropic.Fido.ClientPin

/-!
`ctap2_creds.c`: authenticatorMakeCredential, authenticatorGetAssertion and
authenticatorGetNextAssertion.
-/

namespace Nixtropic.Fido

open Crash

def upTimeoutMs : ℕ := 30000
def getNextTimeoutMs : ℕ := 30000
def authDataMax : ℕ := 256

variable (F : FidoPrims)

/-! ### Steps that both commands share -/

def touchStatus : UpResult → Status
  | .ok => .ok
  | .cancel => .keepaliveCancel
  | .fail => .operationDenied

/-- `user_presence_check`, with a note of the prompt and of how the wait ended. -/
def askTouch (prompt : Prompt) : FidoM UpResult := do
  let up ← userPresenceCheck upTimeoutMs
  leave (.touched prompt up)
  pure up

def waitTouch (prompt : Prompt) : FidoM Status := do
  pure (touchStatus (← askTouch prompt))

/-- A zero-length pinUvAuthParam asks for a touch only. -/
def pinProbe : FidoM Status := do
  let up ← waitTouch .probe
  if up ≠ .ok then pure up
  else if ← pinIsSet F then pure .pinInvalid
  else pure .pinNotSet

def checkPinUvProtocol (pu : PinUv) : Status :=
  if pu.param.isNone then .ok
  else
    match pu.protocol with
    | none => .missingParameter
    | some v => if v = 1 then .ok else .invalidParameter

/-- The token must verify over the hash, still carry userVerified and the
permission, and be bound to this RP or to none; then it is bound now. -/
def checkToken (pu : PinUv) (clientHash : Bytes) (perm : UInt8) (rpHash : Bytes) :
    FidoM Status := do
  let now ← halGetTick
  let ok ← puatVerify pu.param clientHash now
  let t := (← get).token
  if ok && t.userVerified && t.hasPerm perm && t.rpMatches rpHash then do
    puatBindRp rpHash
    leave (.tokenAccepted perm rpHash (pu.param.getD []) clientHash)
    pure .ok
  else pure .pinAuthInvalid

/-- The token part of a policy: with a PIN and a param, a token that passes
gives the UV flag. -/
def tokenUv (pinSet : Bool) (pu : PinUv) (clientHash : Bytes) (perm : UInt8) (rpHash : Bytes) :
    FidoM (Except Status UInt8) := do
  if pinSet && pu.param.isSome then
    let rc ← checkToken pu clientHash perm rpHash
    pure (if rc = .ok then .ok flagUv else .error rc)
  else pure (.ok 0)

/-! ### MakeCredential -/

def mcUvPolicy (q : McReq) (rk : Bool) (rpHash : Bytes) : FidoM (Except Status UInt8) := do
  let pinSet ← pinIsSet F
  if (← get).forceUvGet then
    if !pinSet || q.pinUv.param.isNone then pure (.error .puatRequired)
    else tokenUv pinSet q.pinUv q.clientHash puatPermMc rpHash
  else if pinSet && q.pinUv.param.isNone && rk then pure (.error .puatRequired)
  else tokenUv pinSet q.pinUv q.clientHash puatPermMc rpHash

/-- A listed credential of this RP lives here: touch, then say so. -/
def mcExcluded (rpHash : Bytes) : List Bytes → FidoM Status
  | [] => pure .ok
  | id :: rest => do
      match ← credstoreFind F id rpHash with
      | some _ => do
          let up ← askTouch .excluded
          pure (if up = .cancel then .keepaliveCancel else .credentialExcluded)
      | none => mcExcluded rpHash rest

/-- The test of `mc_scan` for a credential that the new one replaces. -/
def sameAccount (m : SlotMeta) (rpHash userId : Bytes) : Bool :=
  m.resident && decide (m.rpIdHash = rpHash) && decide (m.userHandle = userId)

/-- The largest sequence number and the bitmap of the credentials to replace;
nothing if an allocated credential cannot be read. -/
def mcScan (q : McReq) (rpHash : Bytes) (rk : Bool) : FidoM (Option (ℕ × BitVec 32)) := do
  let bitmap := (← get).bitmap
  let r ← StProg.loop fidoSlotsMax (fun i (acc : ℕ × BitVec 32) => do
    if bitmap.getLsbD i then
      match ← slotsReadMeta i with
      | .ok m => pure (some (max acc.1 m.created,
          if rk && sameAccount m rpHash q.userId then acc.2 ||| BitVec.twoPow 32 i else acc.2))
      | _ => pure none
    else pure (some acc)) (0, 0)
  match r with
  | none => pure none
  | some (last, mask) => pure (if last = uint32Max then none else some (last + 1, mask))

/-- The attestation object, format "none". -/
def mcRespond (q : McReq) (rpHash : Bytes) (flags : UInt8) (rk : Bool) (sc : ℕ)
    (pubkey credId : Bytes) : Answer :=
  match coseWritePubkey q.alg pubkey with
  | none => .status .other
  | some cosePub =>
      let flags := if q.wantCredProps then flags ||| flagEd else flags
      match buildAuthdata rpHash flags sc credId cosePub authDataMax with
      | none => .status .other
      | some ad =>
          let ext := if q.wantCredProps then credPropsOutput rk else []
          if authDataMax < ad.length + ext.length then .status .other
          else (Answer.attestation (ad ++ ext)).fitted

/-- Erase the keys and metadata of the credentials that were replaced. -/
def eraseReplaced (mask : BitVec 32) : FidoM Unit := do
  let _ ← StProg.loop fidoSlotsMax (fun i (_ : Unit) => do
    if mask.getLsbD i then
      let _ ← credstoreEraseSlot F i
      pure (some ())
    else pure (some ())) ()
  pure ()

/-- From the touch on. -/
def mcCommit (q : McReq) (rpHash : Bytes) (rk : Bool) (uvFlag : UInt8) (sc created : ℕ)
    (mask : BitVec 32) : FidoM Answer := do
  let up ← waitTouch .use
  if up ≠ .ok then pure (.status up)
  else do
    puatConsume
    match ← credstoreMake F rpHash q.alg (if rk then slotsFlagResident else 0) q.userId created
        mask with
    | .full => pure (.status .keyStoreFull)
    | .error => pure (.status .other)
    | .ok pubkey credId _ => do
        eraseReplaced F mask
        pure (mcRespond q rpHash (flagUp ||| uvFlag ||| flagAt) rk sc pubkey credId)

/-- What the new credential needs, read before the touch. -/
def mcPrepare (q : McReq) (rpHash : Bytes) (rk : Bool) (uvFlag : UInt8) : FidoM Answer := do
  if (← get).mutating then pure (.status .notAllowed)
  else
    let ex ← mcExcluded F rpHash q.exclude
    if ex ≠ .ok then pure (.status ex)
    else
      match ← credstoreSigncountPeek F with
      | none => pure (.status .other)
      | some sc =>
          match ← mcScan q rpHash rk with
          | none => pure (.status .other)
          | some (created, mask) => mcCommit F q rpHash rk uvFlag sc created mask

def ctap2MakeCredential (q : Except Status McReq) : FidoM Answer := do
  match q with
  | .error s => pure (.status s)
  | .ok q =>
      if q.pinUv.param = some [] then do pure (.status (← pinProbe F))
      else if checkPinUvProtocol q.pinUv ≠ .ok then pure (.status (checkPinUvProtocol q.pinUv))
      else if q.opt.uv = some true ∨ q.opt.up = some false then pure (.status .invalidOption)
      else
        let rk := decide (q.opt.rk = some true)
        let rpHash := F.chip.sha256 q.rpId
        match ← mcUvPolicy F q rk rpHash with
        | .error s => pure (.status s)
        | .ok uvFlag => mcPrepare F q rpHash rk uvFlag

/-! ### GetAssertion -/

def setGa (f : GaState → GaState) : FidoM Unit := modify fun u => { u with ga := f u.ga }

/-- `ctap2_assertion_reset` -/
def ctap2AssertionReset : FidoM Unit := setGa fun _ => .zero

def gaUvPolicy (q : GaReq) (up : Bool) (rpHash : Bytes) : FidoM (Except Status UInt8) := do
  let pinSet ← pinIsSet F
  if (← get).forceUvGet && up then
    if !pinSet || q.pinUv.param.isNone then pure (.error .puatRequired)
    else tokenUv pinSet q.pinUv q.clientHash puatPermGa rpHash
  else tokenUv pinSet q.pinUv q.clientHash puatPermGa rpHash

/-- The first listed credential that lives here and was made for this RP. -/
def gaFromAllowList (rpHash : Bytes) : List Bytes → FidoM (List ℕ)
  | [] => pure []
  | id :: rest => do
      match ← credstoreFind F id rpHash with
      | some slot => pure [slot]
      | none => gaFromAllowList rpHash rest

/-- One turn of the insertion in `ga_discover`, on the array read backwards:
the entries with a smaller sequence number move up. -/
def insertNewest (x : ℕ × ℕ) : List (ℕ × ℕ) → List (ℕ × ℕ)
  | [] => [x]
  | y :: ys => if y.1 < x.1 then y :: insertNewest x ys else x :: y :: ys

/-- The discoverable credentials of the RP, newest first. -/
def gaDiscover (rpHash : Bytes) : FidoM (List ℕ) := do
  let bitmap := (← get).bitmap
  let r ← StProg.loop fidoSlotsMax (fun i (acc : List (ℕ × ℕ)) => do
    if bitmap.getLsbD i then
      match ← slotsReadMeta i with
      | .ok m =>
          if m.resident && decide (m.rpIdHash = rpHash) then
            pure (some (insertNewest (m.created, i) acc))
          else pure (some acc)
      | _ => pure (some acc)
    else pure (some acc)) []
  pure ((r.getD []).reverse.map Prod.snd)

/-- What is answered, once the signature is there. -/
def gaAnswer (slot : ℕ) (m : SlotMeta) (authData sig : Bytes) (numberOfCreds : ℕ) : Answer :=
  (Answer.assertion (makeCredId slot m.nonce) authData sig
    (if m.resident && decide (m.userHandle ≠ []) then some m.userHandle else none)
    (if 1 < numberOfCreds then some numberOfCreds else none)).fitted

/-- Reserve a signCount, sign, answer. -/
def gaSignRespond (slot : ℕ) (rpHash : Bytes) (flags : UInt8) (clientHash : Bytes)
    (numberOfCreds : ℕ) : FidoM Answer := do
  match ← slotsReadMeta slot with
  | .ok m =>
      -- never sign for an RP the credential was not made for
      if m.rpIdHash ≠ rpHash then pure (.status .noCredentials)
      else if algOfStored m.alg = none then pure (.status .other)
      else
        match ← credstoreSigncountNext F with
        | none => pure (.status .other)
        | some sc =>
            match buildAuthdata rpHash flags sc [] [] 69 with
            | none => pure (.status .other)
            | some ad =>
                match ← credstoreSign slot m.alg (ad ++ clientHash) with
                | none => pure (.status .other)
                | some sig => pure (gaAnswer slot m ad sig numberOfCreds)
  | _ => pure (.status .other)

/-- The end of `ctap2_get_assertion`: answer for the first slot and remember
the others. -/
def gaFinish (q : GaReq) (rpHash : Bytes) (flags : UInt8) (slots : List ℕ) : FidoM Answer := do
  let a ← gaSignRespond F (slots.headD 0) rpHash flags q.clientHash
    (if q.allow.isSome then 0 else slots.length)
  if a.code = Status.ok.code ∧ 1 < slots.length then do
    setGa fun g => { g with
      active := true, count := slots.length, pos := 1, clientHash := q.clientHash
      rpHash := rpHash, flags := flags }
    let now ← halGetTick
    setGa fun g => { g with lastMs := now }
    leave .gaStamp
    pure a
  else pure a

/-- From the choice of the credentials on. -/
def gaCommit (q : GaReq) (up : Bool) (rpHash : Bytes) (uvFlag : UInt8) : FidoM Answer := do
  if (← get).mutating then pure (.status .notAllowed)
  else
    let slots ← match q.allow with
      | some ids => gaFromAllowList F rpHash ids
      | none => gaDiscover rpHash
    setGa fun g => { g with slots := slots }
    if slots = [] then pure (.status .noCredentials)
    else if up then do
      let touch ← waitTouch .use
      if touch ≠ .ok then pure (.status touch)
      else do
        puatConsume
        gaFinish F q rpHash (flagUp ||| uvFlag) slots
    else gaFinish F q rpHash uvFlag slots

def ctap2GetAssertion (q : Except Status GaReq) : FidoM Answer := do
  ctap2AssertionReset
  match q with
  | .error s => pure (.status s)
  | .ok q =>
      if q.pinUv.param = some [] then do pure (.status (← pinProbe F))
      else if checkPinUvProtocol q.pinUv ≠ .ok then pure (.status (checkPinUvProtocol q.pinUv))
      else if q.opt.uv = some true then pure (.status .invalidOption)
      else if q.opt.rk.isSome then pure (.status .unsupportedOption)
      else
        let up := decide (q.opt.up ≠ some false)
        let rpHash := F.chip.sha256 q.rpId
        match ← gaUvPolicy F q up rpHash with
        | .error s => pure (.status s)
        | .ok uvFlag => gaCommit F q up rpHash uvFlag

def ctap2GetNextAssertion : FidoM Answer := do
  let g := (← get).ga
  if g.active = false ∨ g.count ≤ g.pos then pure (.status .notAllowed)
  else
    let now ← halGetTick
    leave .gaCheck
    if getNextTimeoutMs < tickDiff now g.lastMs then do
      ctap2AssertionReset
      pure (.status .notAllowed)
    else do
      leave .gaNext
      setGa fun g => { g with pos := g.pos + 1 }
      let now ← halGetTick
      setGa fun g => { g with lastMs := now }
      leave .gaStamp
      gaSignRespond F (g.slots.getD g.pos 0) g.rpHash g.flags g.clientHash 0

end Nixtropic.Fido
