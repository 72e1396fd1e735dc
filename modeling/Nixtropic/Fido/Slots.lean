import Nixtropic.Fido.Token

/-!
`slots.c`: the allocation bitmap of the credential slots and the metadata of
each credential.

The bitmap, the Force-UV flag and the guard of the PIN are one persistent
object, O1, kept as a record pair; the metadata of credential `i` is
R-memory slot `i + 1`. A copy of O1 in RAM is taken at boot and changed only
after both copies on the chip are.
-/

namespace Nixtropic.Fido

open Crash

/-- `s_o1` -/
def o1 : RecPair := ⟨0, 40, 1, 1, by decide⟩

def o1Len : ℕ := 6

/-- `SLOTS_RMEM_SLOT_FOR` -/
def rmemSlotFor (slot : ℕ) : ℕ := slot + 1

def slotsCredIdLen : ℕ := 18
def slotsRmemPerCredSize : ℕ := 256
def slotsFlagResident : UInt8 := 1

/-- `SLOTS_ALG_*`: minus the COSE algorithm. -/
def CoseAlg.stored : CoseAlg → UInt8
  | .eddsa => 8
  | .es256 => 7

/-- The four bytes at `i`, as `be32_load` reads them. -/
def be32At (b : Bytes) (i : ℕ) : ℕ :=
  byteAt b i * 2 ^ 24 + byteAt b (i + 1) * 2 ^ 16 + byteAt b (i + 2) * 2 ^ 8 + byteAt b (i + 3)

/-! ### The persistent formats -/

/-- What O1 holds. -/
structure Global where
  bitmap : BitVec 32
  forceUv : Bool
  pinBound : Bool
  deriving DecidableEq, Repr

def Global.fresh : Global := ⟨0, false, false⟩

/-- `o1_encode` -/
def Global.bytes (g : Global) : Bytes :=
  be32 g.bitmap.toNat ++ [if g.forceUv then 1 else 0, if g.pinBound then 1 else 0]

/-- The checks of `slots_init` on what was read. -/
def parseGlobal (buf : Bytes) : Option Global :=
  if buf.length ≠ o1Len ∨ 1 < byteAt buf 4 ∨ 1 < byteAt buf 5 ∨
      be32At buf 0 / 2 ^ fidoSlotsMax ≠ 0 then none
  else some ⟨BitVec.ofNat 32 (be32At buf 0), decide (byteAt buf 4 = 1), decide (byteAt buf 5 = 1)⟩

/-- `slot_meta_t` -/
structure SlotMeta where
  alg : UInt8
  flags : UInt8
  rpIdHash : Bytes
  nonce : Bytes
  userHandle : Bytes
  created : ℕ
  deriving DecidableEq, Repr

def SlotMeta.resident (m : SlotMeta) : Bool := decide (m.flags &&& slotsFlagResident ≠ 0)

/-- `"NXCR"` -/
def credMagic : Bytes := [0x4e, 0x58, 0x43, 0x52]

def credSchemaVersion : UInt8 := 4

/-- The entry `write_cred` writes. -/
def SlotMeta.bytes (m : SlotMeta) : Bytes :=
  credMagic ++ [credSchemaVersion, m.alg, m.flags, 0] ++ m.rpIdHash ++ m.nonce ++
    [UInt8.ofNat (m.userHandle.take userIdMax).length] ++
    (m.userHandle.take userIdMax ++
      List.replicate (userIdMax - (m.userHandle.take userIdMax).length) 0) ++
    be32 m.created ++ List.replicate 131 0

/-- The user handle of an entry. -/
def userHandleOf (buf : Bytes) : Bytes :=
  if 56 < buf.length ∧ 0 < byteAt buf 56 ∧ byteAt buf 56 ≤ userIdMax ∧
      57 + byteAt buf 56 ≤ buf.length then (buf.drop 57).take (byteAt buf 56)
  else []

/-- What `read_cred` says: an entry, bad content, a chip error or a short
read, an empty slot. -/
inductive CredRead where
  | ok (m : SlotMeta)
  | badMagic
  | chipError
  | empty
  deriving DecidableEq, Repr

/-- The checks of `read_cred` on what was read. -/
def decodeCred (buf : Bytes) : CredRead :=
  if buf.length = 0 then .empty
  else if buf.length < 56 then .chipError
  else if buf.take 4 ≠ credMagic then .badMagic
  else .ok {
    alg := buf.getD 5 0
    flags := buf.getD 6 0
    rpIdHash := (buf.drop 8).take 32
    nonce := (buf.drop 40).take 16
    userHandle := userHandleOf buf
    created := if 125 ≤ buf.length then be32At buf 121 else 0 }

/-! ### Chip accesses -/

/-- `slots_usable`, on the variables. -/
def FidoRam.slotsUsable (u : FidoRam) : Bool := u.slots.initted && !u.slots.uncertain

/-- The global state of the RAM copy. -/
def FidoRam.global (u : FidoRam) : Global :=
  ⟨u.slots.bitmap, u.slots.forceUv, u.slots.pinBound⟩

/-- Take a global state into RAM. -/
def FidoRam.adopt (u : FidoRam) (g : Global) : FidoRam :=
  { u with slots :=
      { u.slots with bitmap := g.bitmap, forceUv := g.forceUv, pinBound := g.pinBound } }

def setInitted (v : Bool) : FidoM Unit :=
  modify fun u => { u with slots := { u.slots with initted := v } }

variable (F : FidoPrims)

def writeGlobal (g : Global) : FidoM Bool := do
  if (← get).slotsUsable then
    match ← onPair o1Cell (recPairWrite F.chip o1 g.bytes) with
    | .ok =>
        modify fun u => u.adopt g
        pure true
    | _ => pure false
  else pure false

def writeCred (slot : ℕ) (m : SlotMeta) : FidoM Bool := do
  match ← onChip (tropicRmemErase (rmemSlotFor slot)) with
  | .error _ => pure false
  | .ok () =>
      match ← onChip (tropicRmemWrite (rmemSlotFor slot) m.bytes) with
      | .error _ => pure false
      | .ok () => pure true

def readCred (slot : ℕ) : FidoM CredRead := do
  match ← onChip (tropicRmemRead (rmemSlotFor slot) slotsRmemPerCredSize) with
  | .error .slotEmpty => pure .empty
  | .error .other => pure .chipError
  | .ok buf => pure (decodeCred buf)

/-- A bit goes only when its metadata slot reads empty. -/
def orphanScrub (bitmap : BitVec 32) : FidoM (BitVec 32) := do
  let r ← StProg.loop fidoSlotsMax (fun i (bm : BitVec 32) => do
    if bm.getLsbD i then
      match ← readCred i with
      | .empty => pure (some (bm &&& ~~~BitVec.twoPow 32 i))
      | _ => pure (some bm)
    else pure (some bm)) bitmap
  pure (r.getD bitmap)

/-- The results of `slots_init`. -/
inductive SlotsInit where
  | ok
  | absent
  | error
  deriving DecidableEq, Repr

/-- The rest of `slots_init` once O1 is read: take it and scrub. -/
def slotsAdopt (g : Global) : FidoM SlotsInit := do
  modify fun u => u.adopt g
  setInitted true
  let scrubbed ← orphanScrub g.bitmap
  if scrubbed = g.bitmap then pure .ok
  else if ← writeGlobal F { g with bitmap := scrubbed } then pure .ok
  else do
    setInitted false
    pure .error

def slotsInit : FidoM SlotsInit := do
  let u ← get
  if u.slots.initted then pure (if u.slots.uncertain then .error else .ok)
  else
    match ← tropicSessionEnsure with
    | .error _ => pure .error
    | .ok () =>
        match ← onPair o1Cell (recPairRead F.chip o1 (some o1Len)) with
        | .absent => pure .absent
        | .ok buf _ =>
            match parseGlobal buf with
            | some g => slotsAdopt F g
            | none => pure .error
        | _ => pure .error

def slotsInitFresh : FidoM Bool := do
  modify fun u => { u with slots := { u.slots with initted := false, uncertain := false } }
  match ← onPair o1Cell (recPairInit F.chip o1 Global.fresh.bytes) with
  | .ok =>
      modify fun u => u.adopt .fresh
      setInitted true
      pure true
  | _ => pure false

/-- Erase every metadata slot, then prove that it reads empty. -/
def slotsWipeMeta : FidoM Bool := do
  let r ← StProg.loop fidoSlotsMax (fun i (_ : Unit) => do
    match ← onChip (tropicRmemErase (rmemSlotFor i)) with
    | .error _ => pure none
    | .ok () =>
        match ← onChip (tropicRmemRead (rmemSlotFor i) 8) with
        | .error .slotEmpty => pure (some ())
        | .error .other => pure none
        | .ok got => pure (if got.length = 0 then some () else none)) ()
  pure r.isSome

/-! ### Credentials -/

/-- The first free slot, as the loops of the source find it. -/
def firstFree (bitmap : BitVec 32) : Option ℕ :=
  (List.range fidoSlotsMax).find? fun i => !bitmap.getLsbD i

/-- `slots_bitmap`, on the variables. -/
def FidoRam.bitmap (u : FidoRam) : BitVec 32 := if u.slotsUsable then u.slots.bitmap else 0

/-- `slots_make_cred_id` -/
def makeCredId (slot : ℕ) (nonce : Bytes) : Bytes := [0x01, UInt8.ofNat slot] ++ nonce

/-- `(1u << FIDO_SLOTS_MAX) - 1u` -/
def fidoMask : BitVec 32 := BitVec.ofNat 32 (2 ^ fidoSlotsMax - 1)

/-- The bitmap that adds a credential and drops those it replaces. -/
def publishedBitmap (bitmap replaceMask : BitVec 32) (slot : ℕ) : BitVec 32 :=
  (bitmap ||| BitVec.twoPow 32 slot) &&& ~~~(replaceMask &&& fidoMask)

/-- The results of `slots_alloc`: -1 for no room, -2 for a chip error with
nothing published, -3 when the outcome of the bitmap write is not known. -/
inductive SlotsAlloc where
  | ok (credId : Bytes) (slot : ℕ)
  | full
  | chip
  | unknown
  deriving DecidableEq, Repr

def slotsAlloc (rpIdHash : Bytes) (alg flags : UInt8) (userHandle : Bytes) (created : ℕ)
    (replaceMask : BitVec 32) : FidoM SlotsAlloc := do
  let u ← get
  if u.slotsUsable = false then pure .chip
  else if userIdMax < userHandle.length then pure .full
  else
    match firstFree u.slots.bitmap with
    | none => pure .full
    | some slot =>
        match ← onChip (tropicRandom 16) with
        | .error _ => pure .chip
        | .ok nonce =>
            if ← writeCred slot ⟨alg, flags, rpIdHash, nonce, userHandle, created⟩ then do
              leave (.publish slot created)
              if ← writeGlobal F
                  { u.global with bitmap := publishedBitmap u.slots.bitmap replaceMask slot } then
                pure (.ok (makeCredId slot nonce) slot)
              else pure .unknown
            else pure .chip

def slotsLookupByCredid (credId : Bytes) : FidoM (Option (ℕ × SlotMeta)) := do
  let u ← get
  let idx := byteAt credId 1
  if u.slotsUsable = false ∨ credId.length ≠ slotsCredIdLen ∨ credId.getD 0 0 ≠ 0x01 ∨
      fidoSlotsMax ≤ idx ∨ u.slots.bitmap.getLsbD idx = false then pure none
  else
    match ← readCred idx with
    | .ok m => pure (if m.nonce = credId.drop 2 then some (idx, m) else none)
    | _ => pure none

/-- Clear the bit, then erase the metadata. -/
def slotsErase (slot : ℕ) : FidoM Bool := do
  let u ← get
  if fidoSlotsMax ≤ slot ∨ u.slotsUsable = false then pure false
  else
    let cleared := u.slots.bitmap &&& ~~~BitVec.twoPow 32 slot
    let committed ← if cleared = u.slots.bitmap then pure true
      else writeGlobal F { u.global with bitmap := cleared }
    if committed then
      match ← onChip (tropicRmemErase (rmemSlotFor slot)) with
      | .error _ => pure false
      | .ok () => pure true
    else pure false

/-- `slots_count_used` -/
def FidoRam.countUsed (u : FidoRam) : ℕ :=
  ((List.range 32).filter fun i => u.bitmap.getLsbD i).length

/-- The results of `slots_read_meta`: -1 for a slot that is not allocated or
holds other content, -2 for a chip error. -/
inductive MetaRead where
  | ok (m : SlotMeta)
  | invalid
  | chip
  deriving DecidableEq, Repr

def slotsReadMeta (slot : ℕ) : FidoM MetaRead := do
  let u ← get
  if u.slotsUsable = false then pure .chip
  else if fidoSlotsMax ≤ slot ∨ u.slots.bitmap.getLsbD slot = false then pure .invalid
  else
    match ← readCred slot with
    | .ok m => pure (.ok m)
    | .badMagic => pure .invalid
    | _ => pure .chip

/-! ### The guard of the PIN and Force-UV -/

/-- `slots_pin_bound`; nothing when O1 is unusable. -/
def FidoRam.pinBound? (u : FidoRam) : Option Bool :=
  if u.slotsUsable then some u.slots.pinBound else none

def slotsSetPinBound (bound forceUvOn : Bool) : FidoM Bool := do
  let g := (← get).global
  writeGlobal F { g with forceUv := forceUvOn || g.forceUv, pinBound := bound }

/-- `slots_force_uv_get`: an unknown state reads as on. -/
def FidoRam.forceUvGet (u : FidoRam) : Bool := !u.slotsUsable || u.slots.forceUv

def slotsForceUvSet (value : Bool) : FidoM Bool := do
  let g := (← get).global
  writeGlobal F { g with forceUv := value }

end Nixtropic.Fido
