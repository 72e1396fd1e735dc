import Nixtropic.Tropic.Chip

/-!
`rec_pair.c`: one persistent object kept as the same record in two R-memory
slots.

A record is a magic, the object id and schema, a 32-bit generation, the
payload length, the payload and eight bytes of SHA-256 over all of it. The
functions below follow the source one by one. The scratch buffers of the
source are values here, and the `uncertain` flag of a pair is the volatile
memory of the programs.
-/

namespace Nixtropic

open Crash

/-- Two R-memory slots and the object they hold. -/
structure RecPair where
  slotA : ℕ
  slotB : ℕ
  obj : UInt8
  schema : UInt8
  slots_ne : slotA ≠ slotB

def recHdr : ℕ := 12
def recSum : ℕ := 8
def recPayloadMax : ℕ := 424
/-- `REC_MAX`: header, payload and checksum. -/
def recMax : ℕ := recHdr + recPayloadMax + recSum
/-- `SLOT_MAX`: slots are read whole, so that an over-long one reads as
damaged. -/
def slotMax : ℕ := 475
def uint32Max : ℕ := 2 ^ 32 - 1

/-- `"NXR1"` -/
def recMagic : Bytes := [0x4e, 0x58, 0x52, 0x31]

def genOf (r : Bytes) : ℕ :=
  byteAt r 6 * 2 ^ 24 + byteAt r 7 * 2 ^ 16 + byteAt r 8 * 2 ^ 8 + byteAt r 9

def lenOf (r : Bytes) : ℕ := byteAt r 10 * 2 ^ 8 + byteAt r 11

/-- The checksum of the first `n` bytes of `r`. -/
def checksum (P : Prims) (r : Bytes) (n : ℕ) : Bytes := (P.sha256 (r.take n)).take recSum

def encodeBody (p : RecPair) (gen : ℕ) (payload : Bytes) : Bytes :=
  recMagic ++ [p.obj, p.schema] ++ be32 gen ++ be16 payload.length ++ payload

def encode (P : Prims) (p : RecPair) (gen : ℕ) (payload : Bytes) : Bytes :=
  encodeBody p gen payload ++
    checksum P (encodeBody p gen payload) (recHdr + payload.length)

def valid (P : Prims) (p : RecPair) (r : Bytes) : Bool :=
  if r.length < recHdr + recSum ∨ recMax < r.length then false
  else if r.take 4 ≠ recMagic ∨ r.getD 4 0 ≠ p.obj ∨ r.getD 5 0 ≠ p.schema then false
  else if genOf r = 0 ∨ r.length ≠ recHdr + lenOf r + recSum then false
  else checksum P r (recHdr + lenOf r) = (r.drop (recHdr + lenOf r)).take recSum

/-- The payload `rec_pair_read` copies out of a record. -/
def payloadOf (r : Bytes) : Bytes := (r.drop recHdr).take (lenOf r)

/-- `copy_t`, with the bytes read. -/
inductive Copy where
  | valid (r : Bytes)
  | empty
  | bad
  | err
  deriving DecidableEq, Repr

/-- Programs on one pair; the memory is its `uncertain` flag. -/
abbrev PairM := Fw Bool

def readCopy (P : Prims) (p : RecPair) (slot : ℕ) : PairM Copy := do
  match ← tropicRmemRead slot slotMax with
  | .error .slotEmpty => pure .empty
  | .error .other => pure .err
  | .ok buf =>
      -- a failed decrypt reads as length 0
      if buf.length = 0 then pure .empty
      else if valid P p buf then pure (.valid buf)
      else pure .bad

/-- Erase, write, read back: true only when the copy holds exactly `r`. -/
def commitCopy (slot : ℕ) (r : Bytes) : PairM Bool := do
  match ← tropicRmemErase slot with
  | .error _ => pure false
  | .ok () =>
      match ← tropicRmemWrite slot r with
      | .error _ => pure false
      | .ok () =>
          match ← tropicRmemRead slot slotMax with
          | .error _ => pure false
          | .ok got => pure (decide (got = r))

/-- Erase, then prove that the slot reads empty. -/
def eraseChecked (slot : ℕ) : PairM Bool := do
  match ← tropicRmemErase slot with
  | .error _ => pure false
  | .ok () =>
      match ← tropicRmemRead slot slotMax with
      | .error .slotEmpty => pure true
      | .error .other => pure false
      | .ok got => pure (decide (got.length = 0))

/-- `rec_status_t`, with what a successful read hands out. -/
inductive RecRead where
  | ok (payload : Bytes) (gen : ℕ)
  | absent
  | corrupt
  | error
  deriving DecidableEq, Repr

inductive RecStatus where
  | ok
  | absent
  | corrupt
  | error
  deriving DecidableEq, Repr

def RecRead.status : RecRead → RecStatus
  | .ok _ _ => .ok
  | .absent => .absent
  | .corrupt => .corrupt
  | .error => .error

/-- What `rec_pair_read` makes of the two copies: the winning record and the
slot to rewrite from it, or a status. -/
inductive Choice where
  | win (r : Bytes) (repair : Option ℕ)
  | absent
  | corrupt
  | error
  deriving DecidableEq, Repr

def choose (p : RecPair) : Copy → Copy → Choice
  | .valid a, .valid b =>
      if genOf a = genOf b then
        if a.length ≠ b.length ∨ a ≠ b then .error else .win a none
      else if genOf a = (genOf b + 1) % 2 ^ 32 then .win a (some p.slotB)
      else if genOf b = (genOf a + 1) % 2 ^ 32 then .win b (some p.slotA)
      else .error
  | .valid a, _ => .win a (some p.slotB)
  | _, .valid b => .win b (some p.slotA)
  | .empty, .empty => .absent
  | _, _ => .corrupt

/-- `uncertain(p)` -/
def markUncertain : PairM Unit := set true

/-- The end of `rec_pair_read`: check the room, repair the other copy, hand the
payload out. -/
def adopt (max : Option ℕ) : Choice → PairM RecRead
  | .absent => pure .absent
  | .corrupt => pure .corrupt
  | .error => pure .error
  | .win r repair =>
      if max.any (· < lenOf r) then pure .error
      else
        match repair with
        | none => pure (.ok (payloadOf r) (genOf r))
        | some slot => do
            if ← commitCopy slot r then pure (.ok (payloadOf r) (genOf r))
            else do
              markUncertain
              pure .error

/-- `rec_pair_read`. `max` is the room in the caller's buffer, `none` for no
buffer. -/
def recPairRead (P : Prims) (p : RecPair) (max : Option ℕ) : PairM RecRead := do
  if ← get then pure .error
  else
    let a ← readCopy P p p.slotA
    if a = .err then pure .error
    else
      let b ← readCopy P p p.slotB
      if b = .err then pure .error
      else adopt max (choose p a b)

/-- Write `gen` and the payload into A, then B; acknowledged only if both read
back. -/
def commitBoth (P : Prims) (p : RecPair) (gen : ℕ) (payload : Bytes) : PairM RecStatus := do
  if ← commitCopy p.slotA (encode P p gen payload) then
    if ← commitCopy p.slotB (encode P p gen payload) then pure .ok
    else do
      markUncertain
      pure .error
  else do
    markUncertain
    pure .error

/-- `bad_args`, for a payload that is there. -/
def badArgs (payload : Bytes) : Bool := decide (recPayloadMax < payload.length)

def recPairWrite (P : Prims) (p : RecPair) (payload : Bytes) : PairM RecStatus := do
  if badArgs payload then pure .error
  else
    match ← recPairRead P p none with
    | .ok _ gen =>
        -- exhausted: the object is read-only
        if gen = uint32Max then pure .error
        else commitBoth P p (gen + 1) payload
    | st => pure st.status

def recPairClear (p : RecPair) : PairM RecStatus := do
  if ← get then pure .error
  else
    if ← eraseChecked p.slotB then
      if ← eraseChecked p.slotA then pure .ok
      else do
        markUncertain
        pure .error
    else do
      markUncertain
      pure .error

def recPairInit (P : Prims) (p : RecPair) (payload : Bytes) : PairM RecStatus := do
  if badArgs payload then pure .error
  else
    match ← recPairClear p with
    | .ok => commitBoth P p 1 payload
    | st => pure st

end Nixtropic
