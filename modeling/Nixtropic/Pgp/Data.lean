import Nixtropic.Device.Board
import Nixtropic.Tropic.PinKernel

/-!
The data of the OpenPGP card: the variables that the files under `openpgp` keep
between two APDUs, and the notes that its functions leave.
-/

namespace Nixtropic.Pgp

open Crash

inductive Lifecycle where
  | error
  | operational
  | terminated
  deriving DecidableEq, Repr

def Lifecycle.code : Lifecycle → UInt8
  | .error => 0
  | .operational => 1
  | .terminated => 2

/-- `OPENPGP_PIN_PW1`, `OPENPGP_PIN_PW3` and `OPENPGP_PIN_RC`. -/
inductive Which where
  | pw1
  | pw3
  | rc
  deriving DecidableEq, Repr

/-- A set of the access flags `AUTH_81`, `AUTH_82` and `AUTH_83`. -/
structure Auth where
  a81 : Bool
  a82 : Bool
  a83 : Bool
  deriving DecidableEq, Repr

structure DecRec where
  pub : Bytes
  nonce : Bytes
  ct : Bytes
  tag : Bytes
  deriving DecidableEq, Repr

structure O3Ram where
  cur : Bytes
  loaded : Bool
  uncertain : Bool
  deriving DecidableEq, Repr

structure PgpRam where
  o3 : O3Ram
  /-- `s_o4.uncertain`, `s_o5.uncertain` and `s_o6.uncertain` -/
  o4Uncertain : Bool
  o5Uncertain : Bool
  o6Uncertain : Bool
  /-- `s_auth` and `s_kek` -/
  auth : Auth
  kek : Bytes
  bootTries : ℕ
  deriving DecidableEq, Repr

def o3Len : ℕ := 214

def PgpRam.boot : PgpRam where
  o3 := ⟨List.replicate o3Len 0, false, false⟩
  o4Uncertain := false
  o5Uncertain := false
  o6Uncertain := false
  auth := ⟨false, false, false⟩
  kek := zeros
  bootTries := 0

inductive Note where
  | powerUp
  | cardReset
  | apdu (inp : Bytes)
  | answer (inp : Bytes) (out : Option Bytes)
  | touch (r : UpResult)
  /-- A key of the chip is about to sign. -/
  | sign (slot : ℕ)
  | unwrap
  /-- A wipe of everything the card owns began. -/
  | wipe
  deriving DecidableEq, Repr

/-- The primitives of the card: those of the chip and of its keys, X25519 and
AES-256-GCM. -/
structure PgpPrims where
  chip : Prims
  key : KeyPrims
  x25519Base : Bytes → Bytes
  x25519 : Bytes → Bytes → Bytes
  /-- Ciphertext and tag, from key, nonce, header and plaintext. -/
  gcmEncrypt : Bytes → Bytes → Bytes → Bytes → Option (Bytes × Bytes)
  /-- The tag of a ciphertext, from key, nonce, header and ciphertext. -/
  gcmTag : Bytes → Bytes → Bytes → Bytes → Option Bytes
  /-- The plaintext, from key, nonce and ciphertext. -/
  gcmCrypt : Bytes → Bytes → Bytes → Option Bytes
  x25519Base_length : ∀ priv, (x25519Base priv).length = 32
  x25519_length : ∀ priv peer, (x25519 priv peer).length = 32
  gcmEncrypt_length : ∀ key nonce aad text ct tag,
    gcmEncrypt key nonce aad text = some (ct, tag) → ct.length = text.length ∧ tag.length = 16

/-- A cipher for runs of the model: one byte of the key stream, and a mixed tag. -/
def mixCrypt (key nonce text : Bytes) : Bytes :=
  text.map (· ^^^ (mix 5 (key ++ nonce)).headD 0)

def mixTag (key nonce aad ct : Bytes) : Bytes := (mix 6 (key ++ nonce ++ aad ++ ct)).take 16

theorem mixPub_length (k : EccKey) :
    (mix 5 [UInt8.ofNat k.serial] ++ if k.curve = 0 then [] else mix 6 []).length =
      if k.curve = 0 then 32 else 64 := by
  split <;> simp [mix_length]

theorem mixSign_length (k : EccKey) (msg : Bytes) :
    (mix 7 (UInt8.ofNat k.serial :: msg) ++ mix 8 []).length = 64 := by
  simp [mix_length]

theorem mixSealed_length {key nonce aad text ct tag : Bytes}
    (h : some (mixCrypt key nonce text, mixTag key nonce aad (mixCrypt key nonce text)) =
      some (ct, tag)) : ct.length = text.length ∧ tag.length = 16 := by
  obtain ⟨rfl, rfl⟩ := Prod.mk.inj (Option.some.inj h)
  simp [mixCrypt, mixTag, mix_length]

def mixPgp : PgpPrims where
  chip := mixPrims
  key := {
    pub := fun k => (mix 5 [UInt8.ofNat k.serial]) ++ if k.curve = 0 then [] else mix 6 []
    sign := fun k msg => mix 7 (UInt8.ofNat k.serial :: msg) ++ mix 8 []
    pub_length := mixPub_length
    sign_length := mixSign_length }
  x25519Base priv := mix 9 priv
  x25519 priv peer := mix 10 (priv ++ peer)
  gcmEncrypt key nonce aad text :=
    some (mixCrypt key nonce text, mixTag key nonce aad (mixCrypt key nonce text))
  gcmTag key nonce aad ct := some (mixTag key nonce aad ct)
  gcmCrypt key nonce ct := some (mixCrypt key nonce ct)
  x25519Base_length _ := mix_length _ _
  x25519_length _ _ := mix_length _ _
  gcmEncrypt_length _ _ _ _ _ _ h := mixSealed_length h

def blankBoard : Board Note where
  chip := .blank
  ecc _ := none
  serials := 0
  counter := none
  now := 0
  notes := []

abbrev PgpM (α : Type) := Bw Note PgpRam α

abbrev pgpBoard (F : PgpPrims) := boardMachine (N := Note) F.chip F.key

def o3Cell : Cell PgpRam Bool where
  get u := u.o3.uncertain
  put u v := { u with o3 := { u.o3 with uncertain := v } }

/-- `LAYOUT[which].rec->uncertain` -/
def pinCell : Which → Cell PgpRam Bool
  | .pw1 => ⟨PgpRam.o4Uncertain, fun u v => { u with o4Uncertain := v }⟩
  | .pw3 => ⟨PgpRam.o5Uncertain, fun u v => { u with o5Uncertain := v }⟩
  | .rc => ⟨PgpRam.o6Uncertain, fun u v => { u with o6Uncertain := v }⟩

end Nixtropic.Pgp
