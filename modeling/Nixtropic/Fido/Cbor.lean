import Nixtropic.Tropic.RecPair
import Mathlib.Tactic.SplitIfs

/-!
The encoders of the FIDO side: `cbor.c` (its writer), `cose.c` and the
authenticator data of `ctap2_creds.c`.

The writer of the source fills a buffer and remembers that it ran out of room.
Here an encoder returns its bytes, and running out of room is a comparison of
their number with the size of the buffer.
-/

namespace Nixtropic.Fido

def ascii (s : String) : Bytes := s.toList.map fun c => UInt8.ofNat c.toNat

/-! ### `cbor.c` -/

def be64 (v : ℕ) : Bytes := be32 (v / 2 ^ 32) ++ be32 v

/-- `put_head`: major type and argument in the shortest form. -/
def putHead (mt : ℕ) (v : ℕ) : Bytes :=
  if v < 24 then [UInt8.ofNat (mt * 32 + v)]
  else if v ≤ 0xff then [UInt8.ofNat (mt * 32 + 24), UInt8.ofNat v]
  else if v ≤ 0xffff then UInt8.ofNat (mt * 32 + 25) :: be16 v
  else if v ≤ 0xffffffff then UInt8.ofNat (mt * 32 + 26) :: be32 v
  else UInt8.ofNat (mt * 32 + 27) :: be64 v

def cborUint (v : ℕ) : Bytes := putHead 0 v

/-- The negative integer `-1 - n`. -/
def cborNegint (n : ℕ) : Bytes := putHead 1 n

def cborByteString (b : Bytes) : Bytes := putHead 2 b.length ++ b
def cborText (s : Bytes) : Bytes := putHead 3 s.length ++ s
def cborArrayHeader (n : ℕ) : Bytes := putHead 4 n
def cborMapHeader (n : ℕ) : Bytes := putHead 5 n
def cborBool (b : Bool) : Bytes := [UInt8.ofNat (7 * 32 + if b then 21 else 20)]

theorem putHead_length (mt v : ℕ) : (putHead mt v).length ≤ 9 := by
  unfold putHead
  split_ifs <;> simp [be16, be32, be64]

theorem cborByteString_length (b : Bytes) : (cborByteString b).length ≤ b.length + 9 := by
  have := putHead_length 2 b.length
  simp only [cborByteString, List.length_append]
  omega

/-! ### `cose.c` -/

/-- The two algorithms the parser chooses from. -/
inductive CoseAlg where
  | eddsa
  | es256
  deriving DecidableEq, Repr

/-- `cose_pub_len` -/
def cosePubLen : CoseAlg → ℕ
  | .eddsa => 32
  | .es256 => 64

/-- `cose_write_pubkey`; a key of another length is refused. -/
def coseWritePubkey (alg : CoseAlg) (pub : Bytes) : Option Bytes :=
  if pub.length ≠ cosePubLen alg then none
  else
    match alg with
    | .eddsa => some (cborMapHeader 4 ++ cborUint 1 ++ cborUint 1 ++ cborUint 3 ++ cborNegint 7 ++
        cborNegint 0 ++ cborUint 6 ++ cborNegint 1 ++ cborByteString (pub.take 32))
    | .es256 => some (cborMapHeader 5 ++ cborUint 1 ++ cborUint 2 ++ cborUint 3 ++ cborNegint 6 ++
        cborNegint 0 ++ cborUint 1 ++ cborNegint 1 ++ cborByteString (pub.take 32) ++
        cborNegint 2 ++ cborByteString (pub.drop 32))

theorem coseWritePubkey_length {alg : CoseAlg} {pub key : Bytes}
    (h : coseWritePubkey alg pub = some key) : key.length ≤ 77 := by
  unfold coseWritePubkey at h
  split at h
  · cases h
  · rename_i hlen
    have hlen : pub.length = cosePubLen alg := not_not.mp hlen
    cases alg with
    | eddsa =>
        obtain rfl := Option.some.inj h
        simp [cborMapHeader, cborUint, cborNegint, cborByteString, putHead, hlen, cosePubLen]
    | es256 =>
        obtain rfl := Option.some.inj h
        simp [cborMapHeader, cborUint, cborNegint, cborByteString, putHead, hlen, cosePubLen]

/-- `der_int`: leading zero bytes dropped, one kept for zero. -/
def derInt (v : Bytes) : Bytes :=
  let body := v.drop (min 31 (v.takeWhile (· = 0)).length)
  let pad : Bytes := if 0x80 ≤ (body.headD 0).toNat then [0] else []
  [0x02, UInt8.ofNat (body.length + pad.length)] ++ pad ++ body

/-- `cose_es256_der`, for an output buffer of `max` bytes. -/
def coseEs256Der (rs : Bytes) (max : ℕ) : Option Bytes :=
  let body := derInt (rs.take 32) ++ derInt ((rs.drop 32).take 32)
  if max < body.length + 2 then none
  else some ([0x30, UInt8.ofNat body.length] ++ body)

/-! ### Authenticator data -/

def flagUp : UInt8 := 0x01
def flagUv : UInt8 := 0x04
def flagAt : UInt8 := 0x40
def flagEd : UInt8 := 0x80

/-- `build_authdata`: the credential id and key are there when the AT flag is
set. -/
def buildAuthdata (rpIdHash : Bytes) (flags : UInt8) (signCount : ℕ) (credId cosePubkey : Bytes)
    (max : ℕ) : Option Bytes :=
  let haveAt := flags &&& flagAt ≠ 0
  let need := 37 + if haveAt then 16 + 2 + credId.length + cosePubkey.length else 0
  if max < need then none
  else some (rpIdHash ++ [flags] ++ be32 signCount ++
    if haveAt then List.replicate 16 0 ++ be16 credId.length ++ credId ++ cosePubkey else [])

/-- The extension output `{ "credProps": { "rk": rk } }`. -/
def credPropsOutput (rk : Bool) : Bytes :=
  cborMapHeader 1 ++ cborText (ascii "credProps") ++ cborMapHeader 1 ++ cborText (ascii "rk") ++
    cborBool rk

end Nixtropic.Fido
