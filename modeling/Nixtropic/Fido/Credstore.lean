import Nixtropic.Fido.State

/-!
`credstore.c`: credentials as keys on the chip, with their metadata in
`slots.c` and the shared signature counter.
-/

namespace Nixtropic.Fido

open Crash

/-- `CREDSTORE_CURVE_*` -/
def curveOf : CoseAlg → ℕ
  | .eddsa => 0
  | .es256 => 1

/-- The algorithm a metadata byte names. -/
def algOfStored (alg : UInt8) : Option CoseAlg :=
  if alg = 8 then some .eddsa else if alg = 7 then some .es256 else none

def credstoreSigMax : ℕ := 72

def setStoreInitted (v : Bool) : FidoM Unit := modify fun u => { u with storeInitted := v }
def setMutating (v : Bool) : FidoM Unit := modify fun u => { u with mutating := v }

variable (F : FidoPrims)

def credstoreInit : FidoM Bool := do
  if (← get).storeInitted then pure true
  else
    let rc ← fidoStateBoot F
    if rc = 0 then do
      setStoreInitted true
      pure true
    else pure false

/-! ### MakeCredential -/

/-- The results of `credstore_make`. -/
inductive CredMake where
  | ok (pubkey credId : Bytes) (slot : ℕ)
  | full
  | error
  deriving DecidableEq, Repr

/-- A new key in a free slot, its public key of the length of the algorithm. -/
def prepareKey (slot : ℕ) (alg : CoseAlg) : FidoM (Option Bytes) := do
  match ← tropicEccErase slot with
  | .error _ => pure none
  | .ok () =>
      match ← tropicEccGenerate slot (curveOf alg) with
      | .error _ => pure none
      | .ok () =>
          match ← tropicEccPubkeyRead slot with
          | .error _ => pure none
          | .ok pub => pure (if pub.length = cosePubLen alg then some pub else none)

/-- The rest of `credstore_make` once a free slot is found: the key first,
then the metadata and one bitmap write. -/
def makeIn (slot : ℕ) (rpIdHash : Bytes) (alg : CoseAlg) (flags : UInt8) (userHandle : Bytes)
    (created : ℕ) (replaceMask : BitVec 32) : FidoM CredMake := do
  match ← prepareKey slot alg with
  | none => do
      let _ ← tropicEccErase slot
      pure .error
  | some pubkey =>
      match ← slotsAlloc F rpIdHash alg.stored flags userHandle created replaceMask with
      -- maybe published: keep the key
      | .unknown => pure .error
      | .ok credId got =>
          if got = slot then pure (.ok pubkey credId got)
          else do
            let _ ← tropicEccErase slot
            let _ ← slotsErase F got
            pure .error
      | .full => do
          let _ ← tropicEccErase slot
          pure .full
      | .chip => do
          let _ ← tropicEccErase slot
          pure .error

def credstoreMake (rpIdHash : Bytes) (alg : CoseAlg) (flags : UInt8) (userHandle : Bytes)
    (created : ℕ) (replaceMask : BitVec 32) : FidoM CredMake := do
  leave (.make rpIdHash)
  if (← get).slotsUsable then
    if ← credstoreInit F then do
      setMutating true
      match firstFree (← get).bitmap with
      | none => do
          setMutating false
          pure .full
      | some slot => do
          let r ← makeIn F slot rpIdHash alg flags userHandle created replaceMask
          setMutating false
          pure r
    else pure .error
  else pure .error

def credstoreGetPubkey (slot : ℕ) (alg : UInt8) : FidoM (Option Bytes) := do
  match algOfStored alg with
  | none => pure none
  | some a =>
      if fidoSlotsMax ≤ slot then pure none
      else
        match ← tropicEccPubkeyRead slot with
        | .error _ => pure none
        | .ok pub => pure (if pub.length = cosePubLen a then some pub else none)

/-- The key first, then the bit and the metadata. -/
def credstoreEraseSlot (slot : ℕ) : FidoM Bool := do
  if fidoSlotsMax ≤ slot ∨ (← get).slotsUsable = false then pure false
  else do
    setMutating true
    match ← tropicEccErase slot with
    | .error _ => do
        setMutating false
        pure false
    | .ok () => do
        let ok ← slotsErase F slot
        setMutating false
        pure ok

/-! ### GetAssertion -/

def credstoreLookup (credId : Bytes) : FidoM (Option ℕ) := do
  if ← credstoreInit F then
    match ← slotsLookupByCredid credId with
    | some (slot, _) => pure (some slot)
    | none => pure none
  else pure none

/-- A credential is found only for the RP it was made for. -/
def credstoreFind (credId rpIdHash : Bytes) : FidoM (Option ℕ) := do
  if ← credstoreInit F then
    match ← slotsLookupByCredid credId with
    | some (slot, m) => pure (if m.rpIdHash = rpIdHash then some slot else none)
    | none => pure none
  else pure none

def credstoreSign (slot : ℕ) (alg : UInt8) (msg : Bytes) : FidoM (Option Bytes) := do
  leave (.sign slot msg)
  if fidoSlotsMax ≤ slot then pure none
  else
    match algOfStored alg with
    | some .eddsa =>
        match ← tropicEddsaSign slot msg with
        | .ok sig => pure (if sig.length = 64 then some sig else none)
        | .error _ => pure none
    | some .es256 =>
        match ← tropicEcdsaSign slot msg with
        | .ok rs => pure (if rs.length = 64 then coseEs256Der rs credstoreSigMax else none)
        | .error _ => pure none
    | none => pure none

/-! ### signCount -/

/-- The chip counts down from its largest value. -/
def readSigncount : FidoM (Option ℕ) := do
  match ← tropicMcounterGet with
  | .error _ => pure none
  | .ok v => pure (if fidoMcounterMax < v then none else some (fidoMcounterMax - v))

def credstoreSigncountPeek : FidoM (Option ℕ) := do
  if ← credstoreInit F then readSigncount else pure none

/-- Reserve the next value, then read it. -/
def credstoreSigncountNext : FidoM (Option ℕ) := do
  if ← credstoreInit F then
    match ← tropicMcounterUpdate with
    | .error _ => pure none
    | .ok () => readSigncount
  else pure none

/-! ### Factory reset -/

def credstoreFactoryReset : FidoM Bool := do
  setStoreInitted false
  let rc ← fidoStateWipe F
  if rc = 0 then do
    setStoreInitted true
    pure true
  else pure false

/-- `credstore_ready`, on the variables. -/
def FidoRam.ready (u : FidoRam) : Bool := u.storeInitted && u.slotsUsable && u.pinUsable

end Nixtropic.Fido
