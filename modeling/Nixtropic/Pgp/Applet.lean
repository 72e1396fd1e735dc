import Nixtropic.Pgp.Response
import Nixtropic.Pgp.PsoDec

/-!
The command handlers of `openpgp_applet.c`, its dispatcher, and the dispatcher of
`ccid/apdu_dispatch.c` in front of it.

A handler gets the parameter bytes and the data field, empty where the source has
no body, and leaves its data and a status word. The access status is the flags of
the session and the key that opens the decryption key; only `auth_grant` and
`auth_drop` change it.
-/

namespace Nixtropic.Pgp

open Crash

/-! ### Access status -/

/-- `auth_flag`, for the references 81, 82 and 83. -/
inductive Flag where
  | f81
  | f82
  | f83
  deriving DecidableEq, Repr

def Auth.none : Auth := ⟨false, false, false⟩
def Auth.pw1 : Auth := ⟨true, true, false⟩
def Auth.all : Auth := ⟨true, true, true⟩

def Flag.mask : Flag → Auth
  | .f81 => ⟨true, false, false⟩
  | .f82 => ⟨false, true, false⟩
  | .f83 => ⟨false, false, true⟩

/-- `s_auth & flag` -/
def Auth.has (a : Auth) : Flag → Bool
  | .f81 => a.a81
  | .f82 => a.a82
  | .f83 => a.a83

/-- `s_auth & AUTH_PW1` -/
def Auth.hasPw1 (a : Auth) : Bool := a.a81 || a.a82

def Auth.without (a mask : Auth) : Auth :=
  ⟨a.a81 && !mask.a81, a.a82 && !mask.a82, a.a83 && !mask.a83⟩

def Auth.with (a mask : Auth) : Auth := ⟨a.a81 || mask.a81, a.a82 || mask.a82, a.a83 || mask.a83⟩

/-- The variables after `auth_drop`. -/
def PgpRam.dropAuth (u : PgpRam) (mask : Auth) : PgpRam :=
  let auth := u.auth.without mask
  { u with auth := auth, kek := if auth.hasPw1 then u.kek else zeros }

def authDrop (mask : Auth) : PgpM Unit := modify fun u => u.dropAuth mask

/-- `k` is read only for a flag of PW1. -/
def authGrant (flag : Flag) (k : Bytes) : PgpM Unit := do
  if flag ≠ .f83 then do
    let kek ← pgpDecKek k
    modify fun u => { u with kek := kek, auth := u.auth.with flag.mask }
  else modify fun u => { u with auth := u.auth.with flag.mask }

def openpgpAppletCardReset : PgpM Unit := do
  leave .cardReset
  authDrop .all

def authFlag (p2 : UInt8) : Option Flag :=
  if p2 = 0x81 then some .f81
  else if p2 = 0x82 then some .f82
  else if p2 = 0x83 then some .f83
  else none

def pinOf : Flag → Which
  | .f83 => .pw3
  | _ => .pw1

def flagsOf : Which → Auth
  | .pw1 => .pw1
  | .pw3 => ⟨false, false, true⟩
  | .rc => .none

section Handlers

variable (F : PgpPrims)

def retriesSw (which : Which) : PgpM ℕ := do
  let attempts ← pinAttempts F which
  pure (0x63C0 + attempts % 16)

/-- A wrong PIN answers with the attempts left. -/
def pinSw (rc : PinRc) (which : Which) : PgpM ℕ :=
  match rc with
  | .ok => pure swOk
  | .wrong => retriesSw F which
  | .blk => pure swAuthBlocked
  | .unset => pure swConditionsNotSatisfied
  | .badLen => pure swWrongLength
  | .err => pure swUnknownError

/-- The answer to a `pgp_pin_*` result. -/
def answerPin (rc : PinRc) (which : Which) : PgpM Resp := do
  let sw ← pinSw F rc which
  pure (.bare sw)

/-! ### PINs -/

def handleVerify (p1 p2 : UInt8) (body : Bytes) : PgpM Resp := do
  match authFlag p2 with
  | none => pure (.bare swIncorrectP1P2)
  | some flag =>
      if p1 ≠ 0x00 ∧ p1 ≠ 0xFF then pure (.bare swIncorrectP1P2)
      else if p1 = 0xFF then
        if body.length ≠ 0 then pure (.bare swWrongLength)
        else do
          authDrop flag.mask
          pure (.bare swOk)
      else if body.length = 0 then do
        let u ← get
        if u.auth.has flag then pure (.bare swOk)
        else do
          let sw ← retriesSw F (pinOf flag)
          pure (.bare sw)
      else do
        let (rc, k) ← pgpPinVerify F (pinOf flag) body
        if rc = .ok then authGrant flag k
        else authDrop (flagsOf (pinOf flag))
        answerPin F rc (pinOf flag)

/-- The body is the old PIN and the new one; the length of the old one is in its
binding. -/
def handleChangeRef (p1 p2 : UInt8) (body : Bytes) : PgpM Resp := do
  if p1 ≠ 0x00 ∨ (authFlag p2 ≠ some .f81 ∧ authFlag p2 ≠ some .f83) then
    pure (.bare swIncorrectP1P2)
  else do
    let which := if authFlag p2 = some .f83 then Which.pw3 else Which.pw1
    let st ← pgpPinStatus F which
    if st.state = .blocked then pure (.bare swAuthBlocked)
    else if st.state ≠ .active then pure (.bare swUnknownError)
    else if body.length ≤ st.pinLen.toNat then pure (.bare swWrongLength)
    else do
      authDrop (flagsOf which)
      let rc ← pgpPinChange F which (body.take st.pinLen.toNat) (body.drop st.pinLen.toNat)
      answerPin F rc which

/-- The end of RESET RETRY COUNTER: the decryption key goes first, since no new
PW1 could open it. -/
def resetPw1 (pw1 : Bytes) : PgpM Resp := do
  authDrop .pw1
  if ← openpgpStateDecDestroy F then do
    let rc ← pgpPinResetPw1 F pw1
    answerPin F rc .pw1
  else pure (.bare swUnknownError)

def handleResetRc (p1 p2 : UInt8) (body : Bytes) : PgpM Resp := do
  if p2 ≠ 0x81 ∨ (p1 ≠ 0x00 ∧ p1 ≠ 0x02) then pure (.bare swIncorrectP1P2)
  else if p1 = 0x00 then do
    -- Resetting Code and new PW1
    let st ← pgpPinStatus F .rc
    let n := st.pinLen.toNat
    if st.state = .notSet then pure (.bare swConditionsNotSatisfied)
    else if st.state = .blocked then pure (.bare swAuthBlocked)
    else if st.state ≠ .active then pure (.bare swUnknownError)
    else if body.length < n + pw1MinLen ∨ pinMaxLen < body.length - n then
      pure (.bare swWrongLength)
    else do
      let check ← pgpPinResetPw1Check F (body.drop n)
      if check ≠ .ok then answerPin F check .pw1
      else do
        let (rc, _) ← pgpPinVerify F .rc (body.take n)
        if rc ≠ .ok then answerPin F rc .rc else resetPw1 F (body.drop n)
  else do
    let u ← get
    if u.auth.a83 = false then pure (.bare swSecurityNotSatisfied)
    else do
      let check ← pgpPinResetPw1Check F body
      if check ≠ .ok then answerPin F check .pw1 else resetPw1 F body

/-! ### Data objects -/

/-- The answer to a setter of O3. -/
def answerSet (m : PgpM Bool) : PgpM Resp := do
  if ← m then pure (.bare swOk) else pure (.bare swUnknownError)

/-- One flag for the three keys. -/
def putUif (body : Bytes) : PgpM Resp := do
  if body.length < 1 then pure (.bare swWrongLength)
  else if 2 < byteAt body 0 then pure (.bare swIncorrectData)
  else
    match ← openpgpStateSetUif F (body.getD 0 0) with
    | .permanent => pure (.bare swConditionsNotSatisfied)
    | .ok => pure (.bare swOk)
    | .failed => pure (.bare swUnknownError)

/-- Fingerprints and generation times: a fixed length, then the setter. -/
def putFixed (len : ℕ) (body : Bytes) (set : Bytes → PgpM Bool) : PgpM Resp :=
  if body.length ≠ len then pure (.bare swWrongLength) else answerSet (set body)

def handlePutData (tag : ℕ) (body : Bytes) : PgpM Resp := do
  let u ← get
  if u.auth.a83 = false then pure (.bare swSecurityNotSatisfied)
  else
    match tag with
    | 0x005B =>
        if nameMax < body.length then pure (.bare swWrongLength)
        else answerSet (openpgpStateSetName F body)
    | 0x5F2D => putFixed langLen body (openpgpStateSetLang F)
    | 0x5F35 =>
        if body.length ≠ 1 then pure (.bare swWrongLength)
        else if sexOk (body.getD 0 0) = false then pure (.bare swIncorrectData)
        else answerSet (openpgpStateSetSex F (body.getD 0 0))
    | 0x00C4 =>
        if body.length < 1 then pure (.bare swWrongLength)
        else if 1 < byteAt body 0 then pure (.bare swIncorrectData)
        else answerSet (openpgpStateSetC4Multi F (body.getD 0 0))
    | 0x00D3 => do
        let rc ← pgpPinSetRc F body
        answerPin F rc .rc
    | 0x00D6 => putUif F body
    | 0x00D7 => putUif F body
    | 0x00D8 => putUif F body
    | 0x00C7 => putFixed fprLen body (openpgpStateSetFingerprint F 0)
    | 0x00C8 => putFixed fprLen body (openpgpStateSetFingerprint F 1)
    | 0x00C9 => putFixed fprLen body (openpgpStateSetFingerprint F 2)
    | 0x00CE => putFixed gentimeLen body (openpgpStateSetGentime F 0)
    | 0x00CF => putFixed gentimeLen body (openpgpStateSetGentime F 1)
    | 0x00D0 => putFixed gentimeLen body (openpgpStateSetGentime F 2)
    | _ => pure (.bare swRefDataNotFound)

/-! ### Keys -/

/-- `build_pubkey_response`: the key in `7F49 { 86 … }`. -/
def pubkeyResponse (max : ℕ) (pub : Bytes) : Resp :=
  if max < 37 then .bare swWrongLength
  else ⟨[0x7F, 0x49, 0x22, 0x86, UInt8.ofNat pubkeyLen] ++ pub, swOk⟩

/-- The answer to a key that was generated or read. -/
def answerPubkey (max : ℕ) (r : KeyResult) : Resp :=
  match r with
  | .ok pub => pubkeyResponse max pub
  | .noKey => .bare swRefDataNotFound
  | _ => .bare swUnknownError

/-- A failure of any kind ends the session of PW1. -/
def generateDec : PgpM KeyResult := do
  let u ← get
  let r ← pgpDecGenerate F u.kek
  match r with
  | .ok pub => pure (.ok pub)
  | r => do
      authDrop .pw1
      pure r

def handleGenerate (p1 p2 : UInt8) (body : Bytes) (max : ℕ) : PgpM Resp := do
  if p2 ≠ 0x00 then pure (.bare swIncorrectP1P2)
  else if p1 ≠ 0x80 ∧ p1 ≠ 0x81 then pure (.bare swIncorrectP1P2)
  else if body.length < 2 then pure (.bare swWrongLength)
  else do
    let u ← get
    let generate := p1 = 0x80
    if generate ∧ u.auth.a83 = false then pure (.bare swSecurityNotSatisfied)
    else if body.getD 0 0 = 0xB6 then do
      let r ← if generate then pgpKeysGenerateSig else pgpKeysReadSigPubkey
      pure (answerPubkey max r)
    else if body.getD 0 0 = 0xB8 then
      if ¬generate then do
        let r ← pgpDecReadPubkey
        pure (answerPubkey max r)
      else if u.auth.hasPw1 = false then pure (.bare swSecurityNotSatisfied)
      else do
        let r ← generateDec F
        pure (answerPubkey max r)
    else if body.getD 0 0 = 0xA4 then do
      let r ← if generate then pgpKeysGenerateAut else pgpKeysReadAutPubkey
      pure (answerPubkey max r)
    else pure (.bare swRefDataNotFound)

def openpgpTouchTimeoutMs : ℕ := 15000

/-- A touch of its own for every use of a key, unless the flag is off. -/
def requireTouchIfEnabled : PgpM Bool := do
  let u ← get
  if u.o3.uif = 0 then pure true
  else do
    let r ← userPresenceCheck openpgpTouchTimeoutMs
    leave (.touch r)
    pure (decide (r = .ok))

/-- The answer of a signature. -/
def answerSig (max : ℕ) (r : KeyResult) : Resp :=
  match r with
  | .ok sig => if max < sigLen + 2 then .bare swWrongLength else ⟨sig, swOk⟩
  | .noKey => .bare swRefDataNotFound
  | _ => .bare swUnknownError

/-- PSO:DEC -/
def psoDec (body : Bytes) (max : ℕ) : PgpM Resp := do
  let u ← get
  if u.auth.a82 = false then pure (.bare swSecurityNotSatisfied)
  else if ← requireTouchIfEnabled then
    match parsePsoDecBody body with
    | .error _ => pure (.bare swWrongLength)
    | .ok peer => do
        let u ← get
        match ← pgpDecEcdh F u.kek peer with
        | .noKey => pure (.bare swRefDataNotFound)
        | .ok shared =>
            pure (if max < pubkeyLen + 2 then .bare swWrongLength else ⟨shared, swOk⟩)
        | _ => do
            -- nothing usable: the session of PW1 ends with it
            authDrop .pw1
            pure (.bare swUnknownError)
  else pure (.bare swSecurityNotSatisfied)

/-- PSO:CDS. The access flag is used up first, then the touch, the count and the
signature follow. -/
def psoCds (body : Bytes) (max : ℕ) : PgpM Resp := do
  let u ← get
  if u.auth.a81 = false then pure (.bare swSecurityNotSatisfied)
  else do
    if u.o3.c4Multi = 0 then authDrop ⟨true, false, false⟩ else pure ()
    if ← requireTouchIfEnabled then
      if body.length = 0 then pure (.bare swWrongLength)
      else if ← openpgpStateSigCounterIncrement F then do
        let r ← pgpKeysSignWithSig body
        pure (answerSig max r)
      else pure (.bare swUnknownError)
    else pure (.bare swSecurityNotSatisfied)

def handlePso (p1 p2 : UInt8) (body : Bytes) (max : ℕ) : PgpM Resp :=
  if p1 = 0x80 ∧ p2 = 0x86 then psoDec F body max
  else if p1 ≠ 0x9E ∨ p2 ≠ 0x9A then pure (.bare swIncorrectP1P2)
  else psoCds F body max

def handleInternalAuth (p1 p2 : UInt8) (body : Bytes) (max : ℕ) : PgpM Resp := do
  let u ← get
  if p1 ≠ 0x00 ∨ p2 ≠ 0x00 then pure (.bare swIncorrectP1P2)
  else if u.auth.a82 = false then pure (.bare swSecurityNotSatisfied)
  else if ← requireTouchIfEnabled then
    if body.length = 0 then pure (.bare swWrongLength)
    else do
      let r ← pgpKeysSignWithAut body
      pure (answerSig max r)
  else pure (.bare swSecurityNotSatisfied)

/-! ### Life cycle -/

/-- Without PW3 only where PW3 itself is of no use any more. -/
def handleTerminateDf (p1 p2 : UInt8) : PgpM Resp := do
  if p1 ≠ 0x00 ∨ p2 ≠ 0x00 then pure (.bare swIncorrectP1P2)
  else do
    let pw3 ← pgpPinStatus F .pw3
    let u ← get
    if u.auth.a83 = false ∧ pw3.state ≠ .blocked ∧ pw3.state ≠ .error then
      pure (.bare swSecurityNotSatisfied)
    else do
      authDrop .all
      answerSet (pgpLifecycleTerminate F)

def handleActivateFile (p1 p2 : UInt8) : PgpM Resp := do
  let u ← get
  if p1 ≠ 0x00 ∨ p2 ≠ 0x00 then pure (.bare swIncorrectP1P2)
  else if u.o3.lifecycle = .operational then pure (.bare swOk)
  else do
    authDrop .all
    match ← pgpLifecycleActivate F with
    | .ok => pure (.bare swOk)
    | .refused => pure (.bare swConditionsNotSatisfied)
    | .failed => pure (.bare swUnknownError)

def handleSelect (p1 p2 : UInt8) (aid : Bytes) : PgpM Resp := do
  if p1 ≠ 0x04 ∨ p2 ≠ 0x00 then pure (.bare swIncorrectP1P2)
  else if aid = openpgpAid ∨
      (openpgpAidPrefix.length ≤ aid.length ∧ aid.take openpgpAidPrefix.length =
        openpgpAidPrefix) then
    pure (.bare swOk)
  else do
    -- another application
    authDrop .all
    pure (.bare swFileNotFound)

/-! ### Dispatch -/

def insSelect : UInt8 := 0xA4
def insGetData : UInt8 := 0xCA
def insVerify : UInt8 := 0x20
def insChangeRef : UInt8 := 0x24
def insResetRc : UInt8 := 0x2C
def insPutData : UInt8 := 0xDA
def insTerminateDf : UInt8 := 0xE6
def insActivateFile : UInt8 := 0x44
def insGenerate : UInt8 := 0x47
def insPso : UInt8 := 0x2A
def insInternalAut : UInt8 := 0x88

/-- The tag in the parameter bytes. -/
def tagOf (p1 p2 : UInt8) : ℕ := p1.toNat * 256 + p2.toNat

/-- A command as its handler sees it. -/
structure Apdu where
  ins : UInt8
  p1 : UInt8
  p2 : UInt8
  body : Bytes
  deriving DecidableEq, Repr

/-- The parse of Lc and the data field; `none` is answered with 6700. -/
def apduBody (inp : Bytes) : Option Bytes :=
  if 4 < inp.length then
    let lc := byteAt inp 4
    if inp.length < 5 + lc then
      -- too short for a body, unless the fifth byte is Le
      if inp.length = 5 then some [] else none
    else if lc = 0 ∧ 5 < inp.length then none
    else some ((inp.drop 5).take lc)
  else some []

/-- What the dispatcher reads a byte string as: a status word, or a command. -/
def frame (inp : Bytes) : Except ℕ Apdu :=
  if inp.length < 4 then .error swWrongLength
  else if inp.getD 0 0 ≠ 0x00 ∧ inp.getD 0 0 ≠ 0x10 then .error swClaNotSupported
  else
    match apduBody inp with
    | none => .error swWrongLength
    | some body => .ok ⟨inp.getD 1 0, inp.getD 2 0, inp.getD 3 0, body⟩

/-- The commands that a card which is not operational refuses, and with what. -/
def gate (lc : Lifecycle) (a : Apdu) : Option ℕ :=
  match lc with
  | .operational => none
  | .terminated =>
      if a.ins ≠ insSelect ∧ a.ins ≠ insActivateFile then some swTerminated else none
  | .error =>
      if a.ins ≠ insSelect ∧ a.ins ≠ insTerminateDf ∧ ¬(a.ins = insVerify ∧ a.p2 = 0x83) then
        some swUnknownError
      else none

/-- The switch over the instruction. -/
def handle (a : Apdu) (out : Bytes) : PgpM Resp :=
  if a.ins = insSelect then handleSelect a.p1 a.p2 a.body
  else if a.ins = insGetData then handleGetData F (tagOf a.p1 a.p2) out
  else if a.ins = insVerify then handleVerify F a.p1 a.p2 a.body
  else if a.ins = insChangeRef then handleChangeRef F a.p1 a.p2 a.body
  else if a.ins = insResetRc then handleResetRc F a.p1 a.p2 a.body
  else if a.ins = insPutData then handlePutData F (tagOf a.p1 a.p2) a.body
  else if a.ins = insTerminateDf then handleTerminateDf F a.p1 a.p2
  else if a.ins = insActivateFile then handleActivateFile F a.p1 a.p2
  else if a.ins = insGenerate then handleGenerate F a.p1 a.p2 a.body out.length
  else if a.ins = insPso then handlePso F a.p1 a.p2 a.body out.length
  else if a.ins = insInternalAut then handleInternalAuth a.p1 a.p2 a.body out.length
  else pure (.bare swInsNotSupported)

/-- The state is read once in a power cycle, then the card decides what it still
does, then the handler runs. -/
def serve (a : Apdu) (out : Bytes) : PgpM Resp := do
  pgpLifecycleEnsure F
  let u ← get
  match gate u.o3.lifecycle a with
  | some sw => pure (.bare sw)
  | none => handle F a out

/-- `openpgp_applet_dispatch`, with the caller's buffer `out`; no answer is `-1`. -/
def openpgpAppletDispatch (inp out : Bytes) : PgpM (Option Bytes) := do
  match frame inp with
  | .error sw => pure (emitSw out.length (.bare sw))
  | .ok a => do
      let r ← serve F a out
      pure (emitSw out.length r)

def apduMaxLen : ℕ := 4106

def apduDispatchProcess (inp out : Bytes) : PgpM (Option Bytes) := do
  if inp.length < 4 ∨ apduMaxLen < inp.length then pure (emitSw out.length (.bare swWrongLength))
  else openpgpAppletDispatch F inp out

end Handlers

end Nixtropic.Pgp
