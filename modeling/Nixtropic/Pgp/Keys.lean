import Nixtropic.Pgp.Pin

/-!
`pgp_keys.c` and `pgp_dec.c`: the keys of the card.

The signature and authentication keys never leave the chip. The decryption key is
in O3, sealed under a key that only a verified PW1 gives, and is there in the clear
for one X25519 at a time.
-/

namespace Nixtropic.Pgp

open Crash

def sigSlot : ℕ := 29
def decSlot : ℕ := 30
def autSlot : ℕ := 31
def pubkeyLen : ℕ := 32
def sigLen : ℕ := 64
def curveEd25519 : ℕ := 0

/-- The `PGP_KEYS_*` and `PGP_DEC_*` codes, with what a call hands out. -/
inductive KeyResult where
  | ok (out : Bytes)
  | noKey
  | chipErr
  | badParam
  | badWrap
  deriving DecidableEq, Repr

/-! ### `pgp_keys.c` -/

/-- `pgp_keys_generate_sig` and `pgp_keys_generate_aut`: a slot takes no key before
it is erased. -/
def generateIn (slot : ℕ) : PgpM KeyResult := do
  match ← tropicEccErase slot with
  | .error _ => pure .chipErr
  | .ok () =>
      match ← tropicEccGenerate slot curveEd25519 with
      | .error _ => pure .chipErr
      | .ok () =>
          match ← tropicEccPubkeyRead slot with
          | .error _ => pure .chipErr
          | .ok pub => pure (.ok pub)

def pgpKeysGenerateSig : PgpM KeyResult := generateIn sigSlot
def pgpKeysGenerateAut : PgpM KeyResult := generateIn autSlot

/-- `pgp_keys_read_sig_pubkey` and `pgp_keys_read_aut_pubkey` -/
def readPubkey (slot : ℕ) : PgpM KeyResult := do
  match ← tropicEccPubkeyRead slot with
  | .error _ => pure .noKey
  | .ok pub => pure (.ok pub)

def pgpKeysReadSigPubkey : PgpM KeyResult := readPubkey sigSlot
def pgpKeysReadAutPubkey : PgpM KeyResult := readPubkey autSlot

/-- `pgp_keys_sign_with_sig` and `pgp_keys_sign_with_aut` -/
def signWith (slot : ℕ) (msg : Bytes) : PgpM KeyResult := do
  if msg.length = 0 then pure .badParam
  else do
    leave (.sign slot)
    match ← tropicEddsaSign slot msg with
    | .error _ => pure .chipErr
    | .ok sig => pure (if sig.length = sigLen then .ok sig else .chipErr)

def pgpKeysSignWithSig (msg : Bytes) : PgpM KeyResult := signWith sigSlot msg
def pgpKeysSignWithAut (msg : Bytes) : PgpM KeyResult := signWith autSlot msg

/-! ### `pgp_dec.c` -/

/-- `"nixtropic/openpgp/dec-kek/v1"` -/
def kekLabel : Bytes :=
  [0x6e, 0x69, 0x78, 0x74, 0x72, 0x6f, 0x70, 0x69, 0x63, 0x2f, 0x6f, 0x70, 0x65, 0x6e, 0x70, 0x67,
    0x70, 0x2f, 0x64, 0x65, 0x63, 0x2d, 0x6b, 0x65, 0x6b, 0x2f, 0x76, 0x31]

def pgpDecKek (k : Bytes) : PgpM Bytes := onChip (hmacSha256 k kekLabel)

/-- `"NXDW"`, the object, the schema and the public key. -/
def aadOf (pub : Bytes) : Bytes := [0x4e, 0x58, 0x44, 0x57, o3Obj, o3Schema] ++ pub

/-- RFC 7748 clamping. -/
def clamp (priv : Bytes) : Bytes :=
  (priv.set 0 (priv.getD 0 0 &&& 248)).set 31 ((priv.getD 31 0 &&& 127) ||| 64)

section Dec

variable (F : PgpPrims)

/-- `seal`: the wrap of a private key whose public key is `pub`. -/
def sealKey (kek priv pub : Bytes) : PgpM (Option DecRec) := do
  match ← onChip (tropicRandom decNonceLen) with
  | .error _ => pure none
  | .ok nonce =>
      match F.gcmEncrypt kek nonce (aadOf pub) priv with
      | some (ct, tag) => pure (some ⟨pub, nonce, ct, tag⟩)
      | none => pure none

/-- `open_wrap`: the tag first, and the plaintext only if it matches. -/
def openWrap (kek : Bytes) (rec : DecRec) : KeyResult :=
  match F.gcmTag kek rec.nonce (aadOf rec.pub) rec.ct with
  | none => .chipErr
  | some tag =>
      if tag ≠ rec.tag then .badWrap
      else
        match F.gcmCrypt kek rec.nonce rec.ct with
        | some priv => .ok priv
        | none => .chipErr

def pgpDecGenerate (kek : Bytes) : PgpM KeyResult := do
  match ← onChip (tropicRandom pubkeyLen) with
  | .error _ => pure .chipErr
  | .ok rnd =>
      let priv := clamp rnd
      let pub := F.x25519Base priv
      match ← sealKey F kek priv pub with
      | none => pure .chipErr
      | some rec =>
          if ← openpgpStateDecSet F rec then pure (.ok pub) else pure .chipErr

def pgpDecReadPubkey : PgpM KeyResult := do
  let u ← get
  match u.o3.decGet with
  | none => pure .noKey
  | some rec => pure (.ok rec.pub)

def pgpDecEcdh (kek peer : Bytes) : PgpM KeyResult := do
  let u ← get
  match u.o3.decGet with
  | none => pure .noKey
  | some rec => do
      leave .unwrap
      match openWrap F kek rec with
      | .ok priv => pure (.ok (F.x25519 priv peer))
      | r => pure r

end Dec

end Nixtropic.Pgp
