import Nixtropic.Fido.Creds

/-!
`credmgmt.c` and `ctap2_config.c`: authenticatorCredentialManagement and
authenticatorConfig.

An enumeration is a snapshot of slot numbers taken at its beginning. The
commands that continue it carry no pinUvAuthParam; they go on only while the
token that opened it lives.
-/

namespace Nixtropic.Fido

open Crash

def ctap2CmdConfig : UInt8 := 0x0d
def cfgParamsMax : ℕ := 64
def cfgSubToggleAlwaysUv : ℕ := 0x02

/-- The room for the parameters in the HMAC input of `check_cm_token`. -/
def cmParamsMax : ℕ := 512

def subGetCredsMetadata : ℕ := 1
def subEnumRpsBegin : ℕ := 2
def subEnumRpsGetNext : ℕ := 3
def subEnumCredsBegin : ℕ := 4
def subEnumCredsGetNext : ℕ := 5
def subDeleteCredential : ℕ := 6

def setIter (f : IterState → IterState) : FidoM Unit := modify fun u => { u with iter := f u.iter }

/-- `credmgmt_reset_iterator`; the generation and the snapshots stay. -/
def IterState.reset (i : IterState) : IterState :=
  { i with
    kind := .none, rpSlots := [], rpPos := 0, credRpHash := zeros, credSlots := [], credPos := 0 }

def credmgmtResetIterator : FidoM Unit := setIter IterState.reset

variable (F : FidoPrims)

/-! ### Enumerations -/

/-- The first slot of each RP. -/
def buildRpList : FidoM (List ℕ) := do
  let bitmap := (← get).bitmap
  let r ← StProg.loop fidoSlotsMax (fun i (acc : List ℕ × List Bytes) => do
    if bitmap.getLsbD i then
      match ← slotsReadMeta i with
      | .ok m =>
          pure (some (if m.rpIdHash ∈ acc.2 then acc else (acc.1 ++ [i], acc.2 ++ [m.rpIdHash])))
      | _ => pure (some acc)
    else pure (some acc)) ([], [])
  pure (r.getD ([], [])).1

/-- The slots of one RP. -/
def buildCredListForRp (rpHash : Bytes) : FidoM (List ℕ) := do
  let bitmap := (← get).bitmap
  let r ← StProg.loop fidoSlotsMax (fun i (acc : List ℕ) => do
    if bitmap.getLsbD i then
      match ← slotsReadMeta i with
      | .ok m => pure (some (if m.rpIdHash = rpHash then acc ++ [i] else acc))
      | _ => pure (some acc)
    else pure (some acc)) []
  pure (r.getD [])

def doGetCredsMetadata : FidoM Answer := do
  let u ← get
  if u.token.rpBound then pure (.status .pinAuthInvalid)
  else pure (Answer.credsMetadata u.countUsed (fidoSlotsMax - u.countUsed)).fitted

def writeRpEntry (slot total : ℕ) : FidoM Answer := do
  match ← slotsReadMeta slot with
  | .ok m => pure (Answer.rpEntry m.rpIdHash total).fitted
  | _ => pure (.status .other)

def doEnumRpsBegin : FidoM Answer := do
  if (← get).token.rpBound then pure (.status .pinAuthInvalid)
  else do
    let slots ← buildRpList
    setIter fun i => { i with rpSlots := slots, rpPos := 0, kind := .rps }
    if slots.length = 0 then pure (.status .noCredentials)
    else do
      let a ← writeRpEntry (slots.headD 0) slots.length
      setIter fun i => { i with rpPos := i.rpPos + 1 }
      pure a

def doEnumRpsNext : FidoM Answer := do
  let i := (← get).iter
  if i.kind ≠ .rps ∨ i.rpSlots.length ≤ i.rpPos then pure (.status .notAllowed)
  else do
    let a ← writeRpEntry (i.rpSlots.getD i.rpPos 0) 0
    setIter fun i => { i with rpPos := i.rpPos + 1 }
    pure a

/-- A credential without a user handle is shown with its own id. -/
def writeCredEntry (slot total : ℕ) : FidoM Answer := do
  match ← slotsReadMeta slot with
  | .ok m =>
      match ← credstoreGetPubkey slot m.alg with
      | none => pure (.status .other)
      | some pub =>
          match (algOfStored m.alg).bind fun a => coseWritePubkey a pub with
          | none => pure (.status .other)
          | some cose =>
              pure (Answer.credEntry
                (if m.userHandle ≠ [] then m.userHandle else makeCredId slot m.nonce)
                (makeCredId slot m.nonce) cose total).fitted
  | _ => pure (.status .other)

def doEnumCredsBegin (rpHash : Except Status Bytes) : FidoM Answer := do
  match rpHash with
  | .error s => pure (.status s)
  | .ok rpHash =>
      if (← get).token.rpMatches rpHash then do
        setIter fun i => { i with credRpHash := rpHash }
        let slots ← buildCredListForRp rpHash
        setIter fun i => { i with credSlots := slots, credPos := 0, kind := .creds }
        if slots.length = 0 then pure (.status .noCredentials)
        else do
          let a ← writeCredEntry (slots.headD 0) slots.length
          setIter fun i => { i with credPos := i.credPos + 1 }
          pure a
      else pure (.status .pinAuthInvalid)

def doEnumCredsNext : FidoM Answer := do
  let i := (← get).iter
  if i.kind ≠ .creds ∨ i.credSlots.length ≤ i.credPos then pure (.status .notAllowed)
  else do
    let a ← writeCredEntry (i.credSlots.getD i.credPos 0) 0
    setIter fun i => { i with credPos := i.credPos + 1 }
    pure a

def doDeleteCredential (credId : Except Status Bytes) : FidoM Answer := do
  match credId with
  | .error s => pure (.status s)
  | .ok credId =>
      match ← credstoreLookup F credId with
      | none => pure (.status .noCredentials)
      | some slot =>
          match ← slotsReadMeta slot with
          | .ok m =>
              if (← get).token.rpMatches m.rpIdHash then
                if ← credstoreEraseSlot F slot then pure (.status .ok)
                else pure (.status .other)
              else pure (.status .pinAuthInvalid)
          | _ => pure (.status .other)

/-! ### credentialManagement -/

def checkCmToken (q : CmReq) (sub : ℕ) : FidoM Status := do
  match q.pinAuth, q.protocol with
  | none, _ => pure .puatRequired
  | some _, none => pure .missingParameter
  | some auth, some proto =>
      if proto ≠ 1 then pure .invalidParameter
      else if cmParamsMax < q.params.length then pure .requestTooLarge
      else
        let now ← halGetTick
        let ok ← puatVerify (some auth) (UInt8.ofNat sub :: q.params) now
        if ok && (← get).token.hasPerm puatPermCm then pure .ok else pure .pinAuthInvalid

/-- The sub-command, once it is authorised. -/
def cmRun (q : CmReq) (sub : ℕ) : FidoM Answer := do
  setIter fun i => if sub ≠ subEnumRpsGetNext ∧ i.kind = .rps then i.reset else i
  setIter fun i => if sub ≠ subEnumCredsGetNext ∧ i.kind = .creds then i.reset else i
  if sub = subGetCredsMetadata then doGetCredsMetadata
  else if sub = subEnumRpsBegin then doEnumRpsBegin
  else if sub = subEnumRpsGetNext then doEnumRpsNext
  else if sub = subEnumCredsBegin then doEnumCredsBegin q.rpHash
  else if sub = subEnumCredsGetNext then doEnumCredsNext
  else if sub = subDeleteCredential then doDeleteCredential F q.credId
  else pure (.status .invalidCommand)

/-- The token behind the Begin must not have expired or been replaced or
spent. -/
def cmContinues : FidoM Bool := do
  let now ← halGetTick
  let ok ← puatInUse now
  let u ← get
  pure (ok && decide (u.iter.gen = u.token.generation) && u.token.hasPerm puatPermCm)

def credmgmtHandleCbor (q : Except Status CmReq) : FidoM Answer := do
  match q with
  | .error s => pure (.status s)
  | .ok q =>
      match q.sub with
      | none => pure (.status .missingParameter)
      | some sub =>
          if sub ≠ subEnumRpsGetNext ∧ sub ≠ subEnumCredsGetNext then do
            let rc ← checkCmToken q sub
            if rc ≠ .ok then pure (.status rc)
            else do
              let gen := (← get).token.generation
              setIter fun i => { i with gen := gen }
              cmRun F q sub
          else if ← cmContinues then cmRun F q sub
          else do
            credmgmtResetIterator
            pure (.status .notAllowed)

/-! ### authenticatorConfig -/

def checkAcfgToken (c : CfgReq) (sub : ℕ) : FidoM Status := do
  match c.auth, c.protocol with
  | none, _ => pure .puatRequired
  | some _, none => pure .missingParameter
  | some auth, some proto =>
      if proto ≠ 1 then pure .invalidParameter
      else if cfgParamsMax < c.params.length then pure .requestTooLarge
      else
        let now ← halGetTick
        let ok ← puatVerify (some auth)
          (List.replicate 32 0xff ++ [ctap2CmdConfig, UInt8.ofNat sub] ++ c.params) now
        if ok && (← get).token.hasPerm puatPermAcfg then pure .ok else pure .pinAuthInvalid

def ctap2Config (c : Except Status CfgReq) : FidoM Answer := do
  match c with
  | .error s => pure (.status s)
  | .ok c =>
      match c.sub with
      | none => pure (.status .missingParameter)
      | some sub =>
          if sub ≠ cfgSubToggleAlwaysUv then pure (.status .invalidParameter)
          else
            let rc ← if ← pinIsSet F then checkAcfgToken c sub else pure .ok
            if rc ≠ .ok then pure (.status rc)
            else if ← slotsForceUvSet F (!(← get).forceUvGet) then pure (.status .ok)
            else pure (.status .other)

end Nixtropic.Fido
