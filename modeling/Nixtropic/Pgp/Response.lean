import Nixtropic.Pgp.Lifecycle

/-!
The BER-TLV output of `openpgp_applet.c`.

The emitters append to the caller's buffer and move an offset on. A composite
object is written with three bytes kept free for its length; when a shorter length
does, the contents are shifted to the front.
-/

namespace Nixtropic.Pgp

open Crash

/-! ### Emitters -/

/-- The response buffer and the offset behind what was written. -/
structure Buf where
  out : Bytes
  off : ℕ
  deriving DecidableEq, Repr

/-- A store at the offset, which moves on. -/
def Buf.put (b : Buf) (v : Bytes) : Except Fault Buf := do
  let out ← storeAt b.out b.off v
  .ok ⟨out, b.off + v.length⟩

/-- A tag of one or two bytes. -/
def emitTag (max tag : ℕ) (b : Buf) : Except Fault Buf :=
  if tag < 0x100 then do
    require (b.off + 1 ≤ max)
    b.put [UInt8.ofNat tag]
  else do
    require (b.off + 2 ≤ max)
    b.put [UInt8.ofNat (tag / 256), UInt8.ofNat tag]

/-- A length in the form of one, two or three bytes. -/
def emitLen (max len : ℕ) (b : Buf) : Except Fault Buf :=
  if len < 0x80 then do
    require (b.off + 1 ≤ max)
    b.put [UInt8.ofNat len]
  else if len ≤ 0xff then do
    require (b.off + 2 ≤ max)
    b.put [0x81, UInt8.ofNat len]
  else do
    require (b.off + 3 ≤ max)
    b.put [0x82, UInt8.ofNat (len / 256), UInt8.ofNat len]

def emitTlv (max tag : ℕ) (value : Bytes) (b : Buf) : Except Fault Buf := do
  let b ← emitTag max tag b
  let b ← emitLen max value.length b
  require (b.off + value.length ≤ max)
  b.put value

/-- The first half of `emit_constructed`: the tag, and three bytes kept free. -/
def openConstructed (max tag : ℕ) (b : Buf) : Except Fault Buf := do
  let b ← emitTag max tag b
  require (b.off + 3 ≤ max)
  .ok ⟨b.out, b.off + 3⟩

/-- The second half, with the contents from `start` on: the length goes in front
of them, and they are shifted to it. -/
def closeConstructed (start : ℕ) (b : Buf) : Except Fault Buf := do
  let lenOff := start - 3
  let len := b.off - start
  if len < 0x80 then do
    let out ← storeAt b.out lenOff [UInt8.ofNat len]
    let out ← moveIn out (lenOff + 1) start len
    .ok ⟨out, b.off - 2⟩
  else if len ≤ 0xff then do
    let out ← storeAt b.out lenOff [0x81]
    let out ← storeAt out (lenOff + 1) [UInt8.ofNat len]
    let out ← moveIn out (lenOff + 2) start len
    .ok ⟨out, b.off - 1⟩
  else do
    let out ← storeAt b.out lenOff [0x82]
    let out ← storeAt out (lenOff + 1) [UInt8.ofNat (len / 256)]
    let out ← storeAt out (lenOff + 2) [UInt8.ofNat len]
    .ok ⟨out, b.off⟩

/-- What a builder writes behind the offset; it may call the chip. -/
abbrev Builder := Buf → PgpM (Except Fault Buf)

def emitConstructed (max tag : ℕ) (builder : Builder) : Builder := fun b =>
  match openConstructed max tag b with
  | .error e => pure (.error e)
  | .ok b' => do
      match ← builder b' with
      | .error e => pure (.error e)
      | .ok b'' => pure (closeConstructed b'.off b'')

/-! ### Data objects -/

/-- `OPENPGP_AID` and `OPENPGP_AID_PREFIX` -/
def openpgpAid : Bytes :=
  [0xD2, 0x76, 0x00, 0x01, 0x24, 0x01, 0x03, 0x04, 0x4E, 0x58, 0x00, 0x00, 0x00, 0x01, 0x00, 0x00]
def openpgpAidPrefix : Bytes := [0xD2, 0x76, 0x00, 0x01, 0x24, 0x01]

def algoEd25519 : Bytes := [0x16, 0x2B, 0x06, 0x01, 0x04, 0x01, 0xDA, 0x47, 0x0F, 0x01]
def algoCv25519 : Bytes := [0x12, 0x2B, 0x06, 0x01, 0x04, 0x01, 0x97, 0x55, 0x01, 0x05, 0x01]
def extCaps : Bytes := [0x70, 0x00, 0x00, 0x00, 0x00, 0x00, 0x00, 0x00, 0x00, 0x00]
def historicalBytes : Bytes := [0x00, 0x73, 0x80, 0x90, 0x00]
def genFeatures : Bytes := [0x81, 0x01, 0x20]

/-- `build_fingerprints` and `build_gentimes` -/
def O3Ram.fingerprints (r : O3Ram) : Bytes := r.fingerprint 0 ++ r.fingerprint 1 ++ r.fingerprint 2
def O3Ram.gentimes (r : O3Ram) : Bytes := r.gentime 0 ++ r.gentime 1 ++ r.gentime 2

section Builders

variable (F : PgpPrims)

/-- `pin_attempts`; 0 for a PIN that cannot be read or is not set. -/
def pinAttempts (which : Which) : PgpM ℕ := do
  let st ← pgpPinStatus F which
  pure st.attempts

def buildPwStatus : PgpM Bytes := do
  let u ← get
  let pw1 ← pinAttempts F .pw1
  let rc ← pinAttempts F .rc
  let pw3 ← pinAttempts F .pw3
  pure [u.o3.c4Multi, UInt8.ofNat pinMaxLen, UInt8.ofNat pinMaxLen, UInt8.ofNat pinMaxLen,
    UInt8.ofNat pw1, UInt8.ofNat rc, UInt8.ofNat pw3]

/-- The emitters one after another, up to the first that is refused. -/
def emitTlvs (max : ℕ) : List (ℕ × Bytes) → Buf → Except Fault Buf
  | [], b => .ok b
  | (tag, value) :: rest, b => do
      let b ← emitTlv max tag value b
      emitTlvs max rest b

/-- Cardholder related data. -/
def buildDo65 (max : ℕ) : Builder := fun b => do
  let u ← get
  pure (emitTlvs max [(0x5B, u.o3.name), (0x5F2D, u.o3.lang), (0x5F35, [u.o3.sex])] b)

/-- Discretionary data objects, a child of 6E. -/
def buildDo73 (max : ℕ) : Builder := fun b =>
  match emitTlvs max [(0xC0, extCaps), (0xC1, algoEd25519), (0xC2, algoCv25519),
      (0xC3, algoEd25519)] b with
  | .error e => pure (.error e)
  | .ok b => do
      let pw ← buildPwStatus F
      match emitTlv max 0xC4 pw b with
      | .error e => pure (.error e)
      | .ok b => do
          let u ← get
          pure (emitTlvs max [(0xC5, u.o3.fingerprints), (0xC6, List.replicate 60 0),
            (0xCD, u.o3.gentimes)] b)

/-- Application related data. -/
def buildDo6e (max : ℕ) : Builder := fun b =>
  match emitTlvs max [(0x4F, openpgpAid), (0x5F52, historicalBytes), (0x7F74, genFeatures)] b with
  | .error e => pure (.error e)
  | .ok b => emitConstructed max 0x73 (buildDo73 F max) b

/-- Security support template. -/
def buildDo7a (max : ℕ) : Builder := fun b => do
  let u ← get
  pure (emitTlv max 0x93 u.o3.sigCounter b)

end Builders

/-! ### Status words -/

def swOk : ℕ := 0x9000
def swTerminated : ℕ := 0x6285
def swWrongLength : ℕ := 0x6700
def swSecurityNotSatisfied : ℕ := 0x6982
def swAuthBlocked : ℕ := 0x6983
def swConditionsNotSatisfied : ℕ := 0x6985
def swIncorrectData : ℕ := 0x6A80
def swFileNotFound : ℕ := 0x6A82
def swIncorrectP1P2 : ℕ := 0x6A86
def swRefDataNotFound : ℕ := 0x6A88
def swInsNotSupported : ℕ := 0x6D00
def swClaNotSupported : ℕ := 0x6E00
def swUnknownError : ℕ := 0x6F00

/-- What a handler leaves for `emit_sw`: the data in the buffer and a status word. -/
structure Resp where
  data : Bytes
  sw : ℕ
  deriving DecidableEq, Repr

def Resp.bare (sw : ℕ) : Resp := ⟨[], sw⟩

/-- `emit_sw`; data that leave no room for the status word are dropped. -/
def emitSw (max : ℕ) (r : Resp) : Option Bytes :=
  if max < 2 then none
  else some ((if max < r.data.length + 2 then [] else r.data) ++ be16 r.sw)

/-- A data object that is copied as it is. -/
def plainDo (max : ℕ) (value : Bytes) : Resp :=
  if max < value.length then .bare swWrongLength else ⟨value, swOk⟩

/-- A composite data object; the buffer is the one of the response. -/
def compositeDo (out : Bytes) (tag : ℕ) (builder : Builder) : PgpM Resp := do
  match ← emitConstructed out.length tag builder ⟨out, 0⟩ with
  | .error _ => pure (.bare swWrongLength)
  | .ok b => pure ⟨b.out.take b.off, swOk⟩

def handleGetData (F : PgpPrims) (tag : ℕ) (out : Bytes) : PgpM Resp := do
  let u ← get
  let max := out.length
  match tag with
  | 0x004F => pure (plainDo max openpgpAid)
  | 0x005E => pure ⟨[], swOk⟩
  | 0x5F50 => pure ⟨[], swOk⟩
  | 0x5F52 => pure (plainDo max historicalBytes)
  | 0x0065 => compositeDo out 0x65 (buildDo65 max)
  | 0x006E => compositeDo out 0x6E (buildDo6e F max)
  | 0x007A => compositeDo out 0x7A (buildDo7a max)
  | 0x7F74 => pure (plainDo max genFeatures)
  | 0x00C0 => pure (plainDo max extCaps)
  | 0x00C1 => pure (plainDo max algoEd25519)
  | 0x00C3 => pure (plainDo max algoEd25519)
  | 0x00C2 => pure (plainDo max algoCv25519)
  | 0x00C4 => do
      let pw ← buildPwStatus F
      pure (plainDo max pw)
  | 0x00C5 => pure (plainDo max u.o3.fingerprints)
  | 0x00C6 => pure (plainDo max (List.replicate 60 0))
  | 0x00C7 => pure (plainDo max (u.o3.fingerprint 0))
  | 0x00C8 => pure (plainDo max (u.o3.fingerprint 1))
  | 0x00C9 => pure (plainDo max (u.o3.fingerprint 2))
  | 0x00CD => pure (plainDo max u.o3.gentimes)
  | 0x00CE => pure (plainDo max (u.o3.gentime 0))
  | 0x00CF => pure (plainDo max (u.o3.gentime 1))
  | 0x00D0 => pure (plainDo max (u.o3.gentime 2))
  | 0x0093 => pure (plainDo max u.o3.sigCounter)
  | 0x005B => pure (plainDo max u.o3.name)
  | 0x5F2D => pure (plainDo max u.o3.lang)
  | 0x5F35 => pure (plainDo max [u.o3.sex])
  | 0x00D6 => pure (plainDo max [u.o3.uif, 0x20])
  | 0x00D7 => pure (plainDo max [u.o3.uif, 0x20])
  | 0x00D8 => pure (plainDo max [u.o3.uif, 0x20])
  | _ => pure (.bare swRefDataNotFound)

end Nixtropic.Pgp
