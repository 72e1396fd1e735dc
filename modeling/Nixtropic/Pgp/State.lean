import Nixtropic.Pgp.Data
import Nixtropic.Pgp.Memory

/-!
`openpgp_state.c`: the persistent state O3 of the OpenPGP card on a record pair.

The payload of the record is 214 bytes with its fields at fixed offsets. A copy
of it in RAM is taken when it was read, and changed only after both copies on the
chip are. A field is read and written at its offset, as the source does it.
-/

namespace Nixtropic.Pgp

open Crash

def nameMax : ℕ := 39
def langLen : ℕ := 2
def fprLen : ℕ := 20
def gentimeLen : ℕ := 4
def sigCounterLen : ℕ := 3
def decPubLen : ℕ := 32
def decNonceLen : ℕ := 12
def decCtLen : ℕ := 32
def decTagLen : ℕ := 16

def offLc : ℕ := 0
def offRcSet : ℕ := 1
def offC4 : ℕ := 2
def offUif : ℕ := 3
def offNameLen : ℕ := 4
def offName : ℕ := 5
def offLang : ℕ := 44
def offSex : ℕ := 46
def offFpr : ℕ := 47
def offGentime : ℕ := 107
def offSigcnt : ℕ := 119
def offDecPub : ℕ := 122
def offDecNonce : ℕ := 154
def offDecCt : ℕ := 166
def offDecTag : ℕ := 198

def sexNa : UInt8 := 0x39

/-- `OPENPGP_STATE_O3_OBJ` and `OPENPGP_STATE_O3_SCHEMA` -/
def o3Obj : UInt8 := 3
def o3Schema : UInt8 := 2

/-- `s_o3` -/
def o3 : RecPair := ⟨33, 43, o3Obj, o3Schema, by decide⟩

/-! ### Fields of a payload -/

def allZero (b : Bytes) : Bool := b.all (· = 0)

def sexOk (v : UInt8) : Bool := v = 0x31 ∨ v = 0x32 ∨ v = sexNa

/-- `dec_ok`: a key is a public key and a wrap, no key is all of them zero. -/
def decOk (b : Bytes) : Bool :=
  let noSeal := allZero (slice b offDecCt (decCtLen + decTagLen))
  if allZero (slice b offDecPub decPubLen) then
    noSeal && allZero (slice b offDecNonce decNonceLen)
  else !noSeal

/-- `fields_ok`: an out-of-range field is damage, never a state. -/
def fieldsOk (b : Bytes) : Bool :=
  (b.getD offLc 0 = Lifecycle.operational.code ∨ b.getD offLc 0 = Lifecycle.terminated.code) ∧
    byteAt b offRcSet ≤ 1 ∧ byteAt b offC4 ≤ 1 ∧ byteAt b offUif ≤ 2 ∧
    byteAt b offNameLen ≤ nameMax ∧
    (b.getD offLc 0 = Lifecycle.terminated.code ∨ sexOk (b.getD offSex 0)) ∧ decOk b

def defaults (lc : Lifecycle) : Bytes :=
  let out := patch (List.replicate o3Len 0) offLc [lc.code]
  if lc ≠ .operational then out
  else patch (patch (patch (patch out offC4 [1]) offUif [1]) offLang [0x65, 0x6e]) offSex [sexNa]

/-! ### Loading and committing -/

/-- `usable` -/
def O3Ram.usable (r : O3Ram) : Bool := r.loaded && !r.uncertain

/-- `openpgp_state_lifecycle` -/
def O3Ram.lifecycle (r : O3Ram) : Lifecycle :=
  if r.usable then
    if r.cur.getD offLc 0 = Lifecycle.operational.code then .operational
    else if r.cur.getD offLc 0 = Lifecycle.terminated.code then .terminated
    else .error
  else .error

def setLoaded (v : Bool) : PgpM Unit := modify fun u => { u with o3 := { u.o3 with loaded := v } }

def setCur (b : Bytes) : PgpM Unit := modify fun u => { u with o3 := { u.o3 with cur := b } }

/-- `memcpy(s_cur, …)` and `s_loaded = true` -/
def takeIn (b : Bytes) : PgpM Unit :=
  modify fun u => { u with o3 := { u.o3 with cur := b, loaded := true } }

def setUncertain (v : Bool) : PgpM Unit :=
  modify fun u => { u with o3 := { u.o3 with uncertain := v } }

section Commits

variable (F : PgpPrims)

/-- `commit`: both copies, then the one in RAM. -/
def commit (next : Bytes) : PgpM Bool := do
  let u ← get
  if u.o3.usable ∧ u.o3.cur.getD offLc 0 = Lifecycle.operational.code then
    match ← onPair o3Cell (recPairWrite F.chip o3 next) with
    | .ok => do
        setCur next
        pure true
    | _ => pure false
  else pure false

/-- What `openpgp_state_load` returns. -/
inductive LoadResult where
  | loaded
  | absent
  | damaged
  deriving DecidableEq, Repr

def openpgpStateLoad : PgpM LoadResult := do
  setLoaded false
  match ← onPair o3Cell (recPairRead F.chip o3 (some recPayloadMax)) with
  | .absent => pure .absent
  | .ok buf _ =>
      if buf.length = o3Len ∧ fieldsOk buf then do
        takeIn buf
        pure .loaded
      else pure .damaged
  | _ => pure .damaged

/-- The checked erase, also the way out of an uncertain pair. -/
def openpgpStateClear : PgpM Bool := do
  setLoaded false
  setCur (List.replicate o3Len 0)
  setUncertain false
  match ← onPair o3Cell (recPairClear o3) with
  | .ok => pure true
  | _ => pure false

def openpgpStateInit (lc : Lifecycle) : PgpM Bool := do
  setLoaded false
  setUncertain false
  if lc = .error then pure false
  else
    match ← onPair o3Cell (recPairInit F.chip o3 (defaults lc)) with
    | .ok => do
        takeIn (defaults lc)
        pure true
    | _ => pure false

def openpgpStateActivate : PgpM Bool := do
  let u ← get
  if u.o3.usable ∧ u.o3.cur.getD offLc 0 = Lifecycle.terminated.code then
    match ← onPair o3Cell (recPairWrite F.chip o3 (defaults .operational)) with
    | .ok => do
        setCur (defaults .operational)
        pure true
    | _ => pure false
  else pure false

end Commits

/-! ### Getters -/

/-- `byte_at` -/
def O3Ram.field (r : O3Ram) (off : ℕ) : UInt8 := if r.usable then r.cur.getD off 0 else 0

/-- `copy_out` -/
def O3Ram.copyOut (r : O3Ram) (off len : ℕ) : Bytes :=
  if r.usable then slice r.cur off len else List.replicate len 0

def O3Ram.rcSet (r : O3Ram) : UInt8 := r.field offRcSet
def O3Ram.c4Multi (r : O3Ram) : UInt8 := r.field offC4

/-- What is not known is under the stricter policy. -/
def O3Ram.uif (r : O3Ram) : UInt8 := if r.usable then r.cur.getD offUif 0 else 1

def O3Ram.name (r : O3Ram) : Bytes := r.copyOut offName (r.field offNameLen).toNat
def O3Ram.lang (r : O3Ram) : Bytes := r.copyOut offLang langLen
def O3Ram.sex (r : O3Ram) : UInt8 := if r.usable then r.cur.getD offSex 0 else sexNa

/-- The fingerprint of key `key`; 0 is sig, 1 dec and 2 aut. -/
def O3Ram.fingerprint (r : O3Ram) (key : ℕ) : Bytes :=
  if 2 < key then List.replicate fprLen 0 else r.copyOut (offFpr + key * fprLen) fprLen

def O3Ram.gentime (r : O3Ram) (key : ℕ) : Bytes :=
  if 2 < key then List.replicate gentimeLen 0
  else r.copyOut (offGentime + key * gentimeLen) gentimeLen

def O3Ram.sigCounter (r : O3Ram) : Bytes := r.copyOut offSigcnt sigCounterLen

/-- `openpgp_state_dec_get` -/
def O3Ram.decGet (r : O3Ram) : Option DecRec :=
  if !r.usable || allZero (slice r.cur offDecPub decPubLen) then none
  else some ⟨slice r.cur offDecPub decPubLen, slice r.cur offDecNonce decNonceLen,
    slice r.cur offDecCt decCtLen, slice r.cur offDecTag decTagLen⟩

/-! ### Setters -/

section Setters

variable (F : PgpPrims)

/-- `set_byte` and `set_bytes` -/
def setBytes (off : ℕ) (v : Bytes) : PgpM Bool := do
  let u ← get
  commit F (patch u.o3.cur off v)

def openpgpStateSetRcSet (v : UInt8) : PgpM Bool :=
  if v.toNat ≤ 1 then setBytes F offRcSet [v] else pure false

def openpgpStateSetC4Multi (v : UInt8) : PgpM Bool :=
  if v.toNat ≤ 1 then setBytes F offC4 [v] else pure false

/-- What `openpgp_state_set_uif` returns; `permanent` is `-3`. -/
inductive UifResult where
  | ok
  | failed
  | permanent
  deriving DecidableEq, Repr

/-- A permanent flag is never lowered. -/
def openpgpStateSetUif (v : UInt8) : PgpM UifResult := do
  let u ← get
  if 2 < v.toNat then pure .failed
  else if u.o3.usable ∧ u.o3.cur.getD offUif 0 = 2 ∧ v ≠ 2 then pure .permanent
  else
    if ← setBytes F offUif [v] then pure .ok else pure .failed

def openpgpStateSetName (data : Bytes) : PgpM Bool := do
  let u ← get
  if nameMax < data.length then pure false
  else
    commit F (patch (patch (patch u.o3.cur offNameLen [UInt8.ofNat data.length])
      offName (List.replicate nameMax 0)) offName data)

def openpgpStateSetLang (data : Bytes) : PgpM Bool := setBytes F offLang data

def openpgpStateSetSex (v : UInt8) : PgpM Bool :=
  if sexOk v then setBytes F offSex [v] else pure false

def openpgpStateSetFingerprint (key : ℕ) (fpr : Bytes) : PgpM Bool :=
  if 2 < key then pure false else setBytes F (offFpr + key * fprLen) fpr

def openpgpStateSetGentime (key : ℕ) (gt : Bytes) : PgpM Bool :=
  if 2 < key then pure false else setBytes F (offGentime + key * gentimeLen) gt

/-- The 24-bit count at `offSigcnt`. -/
def sigCount (b : Bytes) : ℕ :=
  byteAt b offSigcnt * 2 ^ 16 + byteAt b (offSigcnt + 1) * 2 ^ 8 + byteAt b (offSigcnt + 2)

/-- The count goes back to 0 behind its largest value. -/
def openpgpStateSigCounterIncrement : PgpM Bool := do
  let u ← get
  let c := (sigCount u.o3.cur + 1) % 2 ^ 24
  commit F (patch u.o3.cur offSigcnt
    [UInt8.ofNat (c / 2 ^ 16), UInt8.ofNat (c / 2 ^ 8), UInt8.ofNat c])

def openpgpStateDecSet (rec : DecRec) : PgpM Bool := do
  let u ← get
  if allZero rec.pub || (allZero rec.ct && allZero rec.tag) then pure false
  else
    commit F (patch (patch (patch (patch u.o3.cur offDecPub rec.pub) offDecNonce rec.nonce)
      offDecCt rec.ct) offDecTag rec.tag)

/-- The decryption key, its fingerprint and its generation time are zeroed in one
commit; with nothing to zero there is no write. -/
def openpgpStateDecDestroy : PgpM Bool := do
  let u ← get
  let fpr := offFpr + fprLen
  let gt := offGentime + gentimeLen
  if u.o3.usable = false then pure false
  else if allZero (slice u.o3.cur offDecPub (o3Len - offDecPub)) &&
      allZero (slice u.o3.cur fpr fprLen) && allZero (slice u.o3.cur gt gentimeLen) then pure true
  else
    commit F (patch (patch (patch u.o3.cur offDecPub (List.replicate (o3Len - offDecPub) 0))
      fpr (List.replicate fprLen 0)) gt (List.replicate gentimeLen 0))

end Setters

end Nixtropic.Pgp
