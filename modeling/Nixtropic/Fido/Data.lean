import Nixtropic.Device.Board
import Nixtropic.Tropic.PinKernel
import Nixtropic.Fido.Cbor

/-!
The data of the FIDO side: statuses, parsed requests, answers, and the
variables that the files under `fido_hid` keep between two commands.

Requests are taken as the parsers hand them over: either the status that the
parser answers, or the record it fills. A pointer that may be null and a field
that may be absent are options, and the list of a request is the list of the
credential ids that a walk over it yields.
-/

namespace Nixtropic.Fido

open Crash

inductive Status where
  | ok
  | invalidCommand
  | invalidParameter
  | invalidLength
  | cborUnexpectedType
  | invalidCbor
  | missingParameter
  | credentialExcluded
  | unsupportedAlgorithm
  | operationDenied
  | keyStoreFull
  | unsupportedOption
  | invalidOption
  | keepaliveCancel
  | noCredentials
  | notAllowed
  | pinInvalid
  | pinBlocked
  | pinAuthInvalid
  | pinAuthBlocked
  | pinNotSet
  | puatRequired
  | pinPolicyViolation
  | requestTooLarge
  | unauthorizedPermission
  | other
  deriving DecidableEq, Repr

def Status.code : Status → UInt8
  | .ok => 0x00
  | .invalidCommand => 0x01
  | .invalidParameter => 0x02
  | .invalidLength => 0x03
  | .cborUnexpectedType => 0x11
  | .invalidCbor => 0x12
  | .missingParameter => 0x14
  | .credentialExcluded => 0x19
  | .unsupportedAlgorithm => 0x26
  | .operationDenied => 0x27
  | .keyStoreFull => 0x28
  | .unsupportedOption => 0x2b
  | .invalidOption => 0x2c
  | .keepaliveCancel => 0x2d
  | .noCredentials => 0x2e
  | .notAllowed => 0x30
  | .pinInvalid => 0x31
  | .pinBlocked => 0x32
  | .pinAuthInvalid => 0x33
  | .pinAuthBlocked => 0x34
  | .pinNotSet => 0x35
  | .puatRequired => 0x36
  | .pinPolicyViolation => 0x37
  | .requestTooLarge => 0x39
  | .unauthorizedPermission => 0x40
  | .other => 0x7f

/-! ### Requests -/

structure PinUv where
  param : Option Bytes
  protocol : Option ℕ
  deriving DecidableEq, Repr

structure Options where
  rk : Option Bool
  up : Option Bool
  uv : Option Bool
  deriving DecidableEq, Repr

def userIdMax : ℕ := 64

/-- `ctap2_mc_req_t`, as `ctap2_parse_make_cred` fills it. -/
structure McReq where
  clientHash : Bytes
  rpId : Bytes
  userId : Bytes
  alg : CoseAlg
  exclude : List Bytes
  wantCredProps : Bool
  opt : Options
  pinUv : PinUv
  clientHash_length : clientHash.length = 32
  userId_length : userId.length ≤ userIdMax

/-- `ctap2_ga_req_t`, as `ctap2_parse_get_assertion` fills it. -/
structure GaReq where
  rpId : Bytes
  clientHash : Bytes
  allow : Option (List Bytes)
  opt : Options
  pinUv : PinUv
  clientHash_length : clientHash.length = 32

/-- `pin_req_t` -/
structure PinReq where
  keyAgreement : Option Bytes
  pinAuth : Option Bytes
  newPinEnc : Option Bytes
  pinHashEnc : Option Bytes
  perms : Option ℕ
  rpId : Option Bytes
  deriving DecidableEq, Repr

inductive PinCommand where
  | malformed (s : Status)
  | getRetries
  | getKeyAgreement
  | setPin (q : Except Status PinReq)
  | changePin (q : Except Status PinReq)
  | getPinToken (q : Except Status PinReq)
  | getPinTokenPerms (q : Except Status PinReq)

/-- The outer map of a credential-management request; `params` are the raw
bytes of its parameters, and the last two fields what reading them gives. -/
structure CmReq where
  sub : Option ℕ
  params : Bytes
  protocol : Option ℕ
  pinAuth : Option Bytes
  rpHash : Except Status Bytes
  credId : Except Status Bytes

/-- `cfg_req_t` -/
structure CfgReq where
  sub : Option ℕ
  params : Bytes
  protocol : Option ℕ
  auth : Option Bytes

/-- What `fido_hid_cbor_dispatch` switches on; a request may be empty. -/
inductive Command where
  | empty
  | getInfo
  | makeCredential (q : Except Status McReq)
  | getAssertion (q : Except Status GaReq)
  | getNextAssertion
  | clientPin (c : PinCommand)
  | reset
  | credentialMgmt (q : Except Status CmReq)
  | config (q : Except Status CfgReq)
  | unknown

/-- A request: its command byte, and whether the parameter map passed
`cbor_validate`. -/
structure Request where
  command : Command
  cborValid : Bool

/-! ### Answers -/

inductive Answer where
  | status (s : Status)
  | info (alwaysUv clientPin : Bool)
  | attestation (authData : Bytes)
  | assertion (credId authData sig : Bytes) (userId : Option Bytes) (number : Option ℕ)
  | retries (n : ℕ)
  | keyAgreement (pub : Bytes)
  | pinToken (enc : Bytes)
  | credsMetadata (used free : ℕ)
  | rpEntry (rpIdHash : Bytes) (total : ℕ)
  | credEntry (userId credId coseKey : Bytes) (total : ℕ)
  deriving DecidableEq, Repr

/-- The status byte in front of the answer. -/
def Answer.code : Answer → UInt8
  | .status s => s.code
  | _ => Status.ok.code

def aaguid : Bytes :=
  [0x6e, 0x69, 0x78, 0x74, 0x72, 0x6f, 0x70, 0x69, 0x63, 0x00, 0x00, 0x00, 0x00, 0x00, 0x00, 0x04]

def maxMsgSize : ℕ := 1024

def infoOptions (alwaysUv clientPin : Bool) : Bytes :=
  cborMapHeader 9 ++
    cborText (ascii "rk") ++ cborBool true ++
    cborText (ascii "up") ++ cborBool true ++
    cborText (ascii "plat") ++ cborBool false ++
    cborText (ascii "alwaysUv") ++ cborBool alwaysUv ++
    cborText (ascii "credMgmt") ++ cborBool true ++
    cborText (ascii "authnrCfg") ++ cborBool true ++
    cborText (ascii "clientPin") ++ cborBool clientPin ++
    cborText (ascii "pinUvAuthToken") ++ cborBool true ++
    cborText (ascii "makeCredUvNotRqd") ++ cborBool (!alwaysUv)

def infoAlgorithm (n : ℕ) : Bytes :=
  cborMapHeader 2 ++ cborText (ascii "alg") ++ cborNegint n ++
    cborText (ascii "type") ++ cborText (ascii "public-key")

/-- `{ "id": credId, "type": "public-key" }` -/
def pkcDescriptor (credId : Bytes) : Bytes :=
  cborMapHeader 2 ++ cborText (ascii "id") ++ cborByteString credId ++
    cborText (ascii "type") ++ cborText (ascii "public-key")

/-- The hexadecimal digits of the hash, which stand for the RP id. -/
def hexText (b : Bytes) : Bytes :=
  b.flatMap fun x =>
    [x.toNat / 16, x.toNat % 16].map fun d => UInt8.ofNat (if d < 10 then 48 + d else 87 + d)

def idMap (id : Bytes) : Bytes := cborMapHeader 1 ++ cborText (ascii "id") ++ id

def Answer.body : Answer → Bytes
  | .status _ => []
  | .info alwaysUv clientPin =>
      cborMapHeader 7 ++ cborUint 1 ++ cborArrayHeader 1 ++ cborText (ascii "FIDO_2_0") ++
        cborUint 3 ++ cborByteString aaguid ++
        cborUint 4 ++ infoOptions alwaysUv clientPin ++
        cborUint 5 ++ cborUint maxMsgSize ++
        cborUint 6 ++ cborArrayHeader 1 ++ cborUint 1 ++
        cborUint 9 ++ cborArrayHeader 1 ++ cborText (ascii "usb") ++
        cborUint 10 ++ cborArrayHeader 2 ++ infoAlgorithm 7 ++ infoAlgorithm 6
  | .attestation authData =>
      cborMapHeader 3 ++ cborUint 1 ++ cborText (ascii "none") ++
        cborUint 2 ++ cborByteString authData ++ cborUint 3 ++ cborMapHeader 0
  | .assertion credId authData sig userId number =>
      cborMapHeader (3 + (if userId.isSome then 1 else 0) + if number.isSome then 1 else 0) ++
        cborUint 1 ++ pkcDescriptor credId ++
        cborUint 2 ++ cborByteString authData ++ cborUint 3 ++ cborByteString sig ++
        (match userId with
          | some id => cborUint 4 ++ idMap (cborByteString id)
          | none => []) ++
        (match number with
          | some n => cborUint 5 ++ cborUint n
          | none => [])
  | .retries n => cborMapHeader 1 ++ cborUint 3 ++ cborUint n
  | .keyAgreement pub =>
      cborMapHeader 1 ++ cborUint 1 ++
        (cborMapHeader 5 ++ cborUint 1 ++ cborUint 2 ++ cborUint 3 ++ cborNegint 24 ++
          cborNegint 0 ++ cborUint 1 ++ cborNegint 1 ++ cborByteString ((pub.drop 1).take 32) ++
          cborNegint 2 ++ cborByteString ((pub.drop 33).take 32))
  | .pinToken enc => cborMapHeader 1 ++ cborUint 2 ++ cborByteString enc
  | .credsMetadata used free =>
      cborMapHeader 2 ++ cborUint 1 ++ cborUint used ++ cborUint 2 ++ cborUint free
  | .rpEntry rpIdHash total =>
      cborMapHeader (if total ≠ 0 then 3 else 2) ++ cborUint 3 ++
        idMap (cborText (hexText rpIdHash)) ++
        cborUint 4 ++ cborByteString rpIdHash ++
        if total ≠ 0 then cborUint 5 ++ cborUint total else []
  | .credEntry userId credId coseKey total =>
      cborMapHeader (if total ≠ 0 then 4 else 3) ++ cborUint 6 ++ idMap (cborByteString userId) ++
        cborUint 7 ++ pkcDescriptor credId ++ cborUint 8 ++ coseKey ++
        if total ≠ 0 then cborUint 9 ++ cborUint total else []

/-- `FIDO_HID_MAX_PAYLOAD`, the room for an answer. -/
def respMax : ℕ := 2048

/-- An answer that does not fit is answered by a status. -/
def Answer.fitted (a : Answer) : Answer :=
  if respMax - 1 < a.body.length then .status .other else a

def carriesUv (authData : Bytes) : Bool := authData.getD 32 0 &&& flagUv ≠ 0

/-! ### Variables -/

def fidoSlotsMax : ℕ := 29

structure Token where
  token : Bytes
  inUse : Bool
  used : Bool
  uv : Bool
  perms : UInt8
  hasRp : Bool
  rpHash : Bytes
  issuedMs : ℕ
  generation : ℕ
  deriving DecidableEq, Repr

/-- The RAM copy of O1 and the state of its pair. -/
structure SlotsRam where
  initted : Bool
  uncertain : Bool
  bitmap : BitVec 32
  forceUv : Bool
  pinBound : Bool
  deriving DecidableEq, Repr

structure PinRam where
  initted : Bool
  ephPriv : Bytes
  ephPub : Bytes
  consecFails : ℕ
  authBlocked : Bool
  deriving DecidableEq, Repr

/-- `s_ga`: what `GetNextAssertion` continues. -/
structure GaState where
  active : Bool
  slots : List ℕ
  count : ℕ
  pos : ℕ
  clientHash : Bytes
  rpHash : Bytes
  flags : UInt8
  lastMs : ℕ
  deriving DecidableEq, Repr

/-- `memset(&s_ga, 0, sizeof s_ga)` -/
def GaState.zero : GaState := ⟨false, [], 0, 0, zeros, zeros, 0, 0⟩

inductive IterKind where
  | none
  | rps
  | creds
  deriving DecidableEq, Repr

structure IterState where
  kind : IterKind
  gen : ℕ
  rpSlots : List ℕ
  rpPos : ℕ
  credRpHash : Bytes
  credSlots : List ℕ
  credPos : ℕ
  deriving DecidableEq, Repr

structure FidoRam where
  token : Token
  slots : SlotsRam
  /-- `s_o2.uncertain` -/
  o2Uncertain : Bool
  /-- `s_initted` and `s_credstore_mutating` of `credstore.c` -/
  storeInitted : Bool
  mutating : Bool
  pin : PinRam
  ga : GaState
  iter : IterState
  deriving DecidableEq, Repr

def zeroToken : Token := ⟨zeros, false, false, false, 0, false, zeros, 0, 0⟩

def FidoRam.boot : FidoRam where
  token := zeroToken
  slots := ⟨false, false, 0, false, false⟩
  o2Uncertain := false
  storeInitted := false
  mutating := false
  pin := ⟨false, zeros, List.replicate 65 0, 0, false⟩
  ga := .zero
  iter := ⟨.none, 0, [], 0, zeros, [], 0⟩

/-! ### Notes -/

/-- Where a command asks for a touch: before it uses a credential, for a credential of the
excludeList, or because the pinUvAuthParam is empty. -/
inductive Prompt where
  | use
  | excluded
  | probe
  deriving DecidableEq, Repr

/-- The notes that the functions of the FIDO side leave: a command began or
was answered, or a function was called. -/
inductive Note where
  | powerUp
  | request (r : Request)
  | answer (r : Request) (a : Answer)
  | puatReset
  | puatBegin (token : Bytes) (perms : UInt8) (rpHash : Option Bytes)
  | puatExpire
  | puatVerify (param : Option Bytes) (msg : Bytes) (ok : Bool)
  | puatInUse (ok : Bool)
  | puatBindRp (rpHash : Bytes)
  | puatConsume
  | pinVerify (mat : Bytes) (reply : PmdReply)
  | touched (prompt : Prompt) (up : UpResult)
  | tokenAccepted (perm : UInt8) (rpHash param clientHash : Bytes)
  | gaStamp
  | gaCheck
  | gaNext
  | resetCheck
  | resetTouch
  | wiped
  | make (rpIdHash : Bytes)
  | publish (slot created : ℕ)
  | sign (slot : ℕ) (msg : Bytes)

/-- The primitives of the FIDO side: those of the chip and of its keys, P-256
and AES-256-CBC. -/
structure FidoPrims where
  chip : Prims
  key : KeyPrims
  /-- The uncompressed public key of a private key, 65 bytes. -/
  p256Pub : Bytes → Option Bytes
  /-- The shared point of a private key and an uncompressed public key. -/
  p256Ecdh : Bytes → Bytes → Option Bytes
  aesCbcDec : Bytes → Bytes → Option Bytes
  aesCbcEnc : Bytes → Bytes → Option Bytes

abbrev FidoM (α : Type) := Bw Note FidoRam α

abbrev fidoBoard (F : FidoPrims) := boardMachine (N := Note) F.chip F.key

def o1Cell : Cell FidoRam Bool where
  get u := u.slots.uncertain
  put u v := { u with slots := { u.slots with uncertain := v } }

def o2Cell : Cell FidoRam Bool where
  get u := u.o2Uncertain
  put u v := { u with o2Uncertain := v }

end Nixtropic.Fido
