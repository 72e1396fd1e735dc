import Nixtropic.Tropic.RecPair

/-!
`pin_md_kernel.c`: a PIN kept as one binding record and one or two ranges of
MAC-and-Destroy slots.

The functions follow the source one by one. The keys `s`, `u`, `v`, `w` and
the answer `k` are values here, so the wiping of buffers has no counterpart
except for the answer, which is zero unless the call succeeded. A material is
the byte string that the source reads through its pointer.
-/

namespace Nixtropic

open Crash

/-- `pin_md_layout_t`. -/
structure Layout where
  record : RecPair
  base0 : ℕ
  base1 : ℕ
  ranges : ℕ
  rounds : ℕ
  matLen : ℕ

def Layout.base (L : Layout) (range : ℕ) : ℕ := if range = 0 then L.base0 else L.base1

def roundsMax : ℕ := 8
def materialMax : ℕ := 32
def bindHdr : ℕ := 4
def tagLen : ℕ := 32
def slotSize : ℕ := 32

def bindLen (rounds : ℕ) : ℕ := bindHdr + tagLen + rounds * slotSize

/-- `valid_layout`, for a layout that is there. -/
def validLayout (L : Layout) : Bool :=
  if L.rounds = 0 ∨ roundsMax < L.rounds then false
  else if L.ranges ≠ 1 ∧ L.ranges ≠ 2 then false
  else if L.matLen = 0 ∨ materialMax < L.matLen then false
  else if (List.range L.ranges).any fun r => decide (128 < L.base r + L.rounds) then false
  -- an overlap would let a retirement destroy the live range
  else if L.ranges = 2 ∧ L.base0 < L.base1 + L.rounds ∧ L.base1 < L.base0 + L.rounds then false
  else true

/-- `binding_t` -/
structure Binding where
  range : ℕ
  retirePending : Bool
  next : ℕ
  pinLen : UInt8
  tag : Bytes
  ci : List Bytes
  deriving DecidableEq, Repr

def zeros : Bytes := List.replicate 32 0

theorem length_zeros : zeros.length = 32 := List.length_replicate

def kdf (s : Bytes) (label : UInt8) : PairM Bytes := hmacSha256 s [label]

def pinV (mat : Bytes) : PairM Bytes := hmacSha256 zeros mat

def xorBytes (a b : Bytes) : Bytes := List.zipWith (· ^^^ ·) a b

/-- `k_i = HMAC(w_i, mat)`, and `a` XOR `k_i`. -/
def slotXor (w mat a : Bytes) : PairM Bytes := do
  let ki ← hmacSha256 w mat
  pure (xorBytes a ki)

def mdSlot (L : Layout) (range i : ℕ) : ℕ := (L.base range + i) % 256

/-- The payload of the record: range, pending flag, next slot, PIN length, tag
and one ciphertext for each slot. -/
def bindingBytes (b : Binding) : Bytes :=
  [UInt8.ofNat b.range, if b.retirePending then 1 else 0, UInt8.ofNat b.next, b.pinLen] ++
    b.tag ++ b.ci.flatten

/-- The checks of `load`; a payload that fails them is never a binding. -/
def parseBinding (L : Layout) (buf : Bytes) : Option Binding :=
  if buf.length = bindLen L.rounds ∧ byteAt buf 0 < L.ranges ∧ byteAt buf 1 ≤ 1 ∧
      (byteAt buf 1 = 0 ∨ L.ranges = 2) ∧ byteAt buf 2 ≤ L.rounds then
    some {
      range := byteAt buf 0
      retirePending := decide (byteAt buf 1 = 1)
      next := byteAt buf 2
      pinLen := buf.getD 3 0
      tag := (buf.drop bindHdr).take tagLen
      ci := (List.range L.rounds).map fun i =>
        (buf.drop (bindHdr + tagLen + i * slotSize)).take slotSize }
  else none

/-- The result of `load` and `settle`. -/
inductive Loaded where
  | ok (b : Binding)
  | absent
  | error
  deriving DecidableEq, Repr

def load (P : Prims) (L : Layout) : PairM Loaded := do
  match ← recPairRead P L.record (some recPayloadMax) with
  | .ok buf _ =>
      match parseBinding L buf with
      | some b => pure (.ok b)
      | none => pure .error
  | .absent => pure .absent
  | .corrupt => pure .error
  | .error => pure .error

/-- Commit the binding in both copies: init for a first binding, else a pair
write. -/
def store (P : Prims) (L : Layout) (b : Binding) (first : Bool) : PairM Bool := do
  let st ← if first then recPairInit P L.record (bindingBytes b)
    else recPairWrite P L.record (bindingBytes b)
  pure (decide (st = .ok))

/-- One checked M&D call with fresh random data per slot. -/
def retire (L : Layout) (range : ℕ) : PairM Bool := do
  let r ← StProg.loop L.rounds (fun i (_ : Unit) => do
    match ← (tropicRandom 32 : PairM _) with
    | .error _ => pure none
    | .ok rnd =>
        match ← tropicMacAndDestroy .retire (mdSlot L range i) rnd with
        | .error _ => pure none
        | .ok _ => pure (some ())) ()
  pure r.isSome

/-- Load the binding and finish a pending retirement. -/
def settle (P : Prims) (L : Layout) : PairM Loaded := do
  match ← load P L with
  | .ok b =>
      if b.retirePending then
        if ← retire L (1 - b.range) then
          if ← store P L { b with retirePending := false } false then
            pure (.ok { b with retirePending := false })
          else pure .error
        else pure .error
      else pure (.ok b)
  | st => pure st

/-- Arm one slot with `u`, take the answer to `v` and arm it again. -/
def armSlot (slot : ℕ) (u v : Bytes) : PairM (Option Bytes) := do
  match ← tropicMacAndDestroy .arm slot u with
  | .error _ => pure none
  | .ok _ =>
      match ← tropicMacAndDestroy .arm slot v with
      | .error _ => pure none
      | .ok w =>
          match ← tropicMacAndDestroy .arm slot u with
          | .error _ => pure none
          | .ok _ => pure (some w)

/-- Write a range; the ciphertexts of its slots, in order. -/
def armRange (L : Layout) (range : ℕ) (mat s u v : Bytes) : PairM (Option (List Bytes)) :=
  StProg.loop L.rounds (fun i ci => do
    match ← armSlot (mdSlot L range i) u v with
    | none => pure none
    | some w => do
        let c ← slotXor w mat s
        pure (some (ci ++ [c]))) []

/-- The range a new binding is written to, `cur` being the live one. -/
def freeRange : Option Binding → ℕ
  | some b => 1 - b.range
  | none => 0

/-- The rest of `setup_s` once the pair is settled: write the free range,
commit, retire the old one. -/
def install (P : Prims) (L : Layout) (cur : Option Binding) (mat : Bytes) (pinLen : UInt8)
    (s : Bytes) : PairM Bool := do
  if cur.isSome ∧ L.ranges < 2 then pure false
  else
    let tag ← kdf s 0x00
    let u ← kdf s 0x01
    let v ← pinV mat
    match ← armRange L (freeRange cur) mat s u v with
    | none => pure false
    | some ci =>
        let nb : Binding := {
          range := freeRange cur
          retirePending := cur.isSome
          next := 0
          pinLen := pinLen
          tag := tag
          ci := ci }
        -- the commit
        if ← store P L nb cur.isNone then
          match cur with
          | none => pure true
          | some b =>
              if ← retire L b.range then store P L { nb with retirePending := false } false
              else pure false
        else pure false

def setupS (P : Prims) (L : Layout) (mat : Bytes) (pinLen : UInt8) (s : Bytes) :
    PairM Bool := do
  match ← settle P L with
  | .error => pure false
  | .absent => install P L none mat pinLen s
  | .ok b => install P L (some b) mat pinLen s

/-- The outcome of `verify_s`; only a right PIN hands out `s`. -/
inductive Verdict where
  | right (s : Bytes)
  | wrong
  | err
  | blocked
  | absent
  deriving DecidableEq, Repr

/-- Arm every slot of a range again after a right PIN. -/
def restore (L : Layout) (range : ℕ) (u : Bytes) : PairM Bool := do
  let r ← StProg.loop L.rounds (fun i (_ : Unit) => do
    match ← (tropicMacAndDestroy .restore (mdSlot L range i) u : PairM _) with
    | .error _ => pure none
    | .ok _ => pure (some ())) ()
  pure r.isSome

/-- The end of `verify_s`, with the answer `w` of slot `b.next`: compare; a
right PIN restores the range. -/
def judge (P : Prims) (L : Layout) (b : Binding) (mat w : Bytes) : PairM Verdict := do
  let s ← slotXor w mat (b.ci.getD b.next [])
  let t ← kdf s 0x00
  if t ≠ b.tag then pure .wrong
  else do
    let u ← kdf s 0x01
    if ← restore L b.range u then
      if ← store P L { b with next := 0 } false then pure (.right s)
      else pure .err
    else pure .err

/-- The rest of `verify_s` once the pair is settled: reserve, then one M&D
call. -/
def attempt (P : Prims) (L : Layout) (b : Binding) (mat : Bytes) : PairM Verdict := do
  if L.rounds ≤ b.next then pure .blocked
  -- reserve before the M&D call
  else if ← store P L { b with next := b.next + 1 } false then do
    let v ← pinV mat
    match ← tropicMacAndDestroy .probe (mdSlot L b.range b.next) v with
    | .error _ => pure .err
    | .ok w => judge P L b mat w
  else pure .err

def verifyS (P : Prims) (L : Layout) (mat : Bytes) : PairM Verdict := do
  match ← settle P L with
  | .absent => pure .absent
  | .error => pure .err
  | .ok b => attempt P L b mat

/-- `pmd_state_t` -/
inductive PmdState where
  | absent
  | active
  | blocked
  | error
  deriving DecidableEq, Repr

/-- `PMD_OK` and the error codes. -/
inductive PmdRc where
  | ok
  | err
  | blocked
  | absent
  deriving DecidableEq, Repr

structure PmdStatus where
  state : PmdState
  attempts : ℕ
  pinLen : UInt8
  deriving DecidableEq, Repr

/-- The return code of a call with its two outputs. -/
structure PmdReply where
  rc : PmdRc
  correct : Bool
  k : Bytes
  deriving DecidableEq, Repr

/-- The answer of a call that hands out no key. -/
def PmdReply.bare (rc : PmdRc) : PmdReply := ⟨rc, false, zeros⟩

def kOut (s : Bytes) : PairM Bytes := kdf s 0x02

def pinMdKernelStatus (P : Prims) (L : Layout) : PairM PmdStatus := do
  if validLayout L = false then pure ⟨.error, 0, 0⟩
  else
    match ← settle P L with
    | .absent => pure ⟨.absent, 0, 0⟩
    | .error => pure ⟨.error, 0, 0⟩
    | .ok b =>
        pure ⟨if L.rounds ≤ b.next then .blocked else .active, L.rounds - b.next, b.pinLen⟩

def pinMdKernelSetup (P : Prims) (L : Layout) (mat : Bytes) (pinLen : UInt8) :
    PairM PmdReply := do
  if validLayout L = false then pure (.bare .err)
  else
    match ← tropicRandom 32 with
    | .error _ => pure (.bare .err)
    | .ok s =>
        if ← setupS P L mat pinLen s then do
          let k ← kOut s
          pure ⟨.ok, false, k⟩
        else pure (.bare .err)

def pinMdKernelVerify (P : Prims) (L : Layout) (mat : Bytes) : PairM PmdReply := do
  if validLayout L = false then pure (.bare .err)
  else
    match ← verifyS P L mat with
    | .right s => do
        let k ← kOut s
        pure ⟨.ok, true, k⟩
    | .wrong => pure (.bare .ok)
    | .err => pure (.bare .err)
    | .blocked => pure (.bare .blocked)
    | .absent => pure (.bare .absent)

def pinMdKernelChange (P : Prims) (L : Layout) (oldMat newMat : Bytes) (newPinLen : UInt8) :
    PairM PmdReply := do
  if validLayout L = false ∨ L.ranges < 2 then pure (.bare .err)
  else
    match ← verifyS P L oldMat with
    | .right s =>
        -- the same `s`: `k` survives
        if ← setupS P L newMat newPinLen s then do
          let k ← kOut s
          pure ⟨.ok, true, k⟩
        else pure (.bare .err)
    | .wrong => pure (.bare .ok)
    | .err => pure (.bare .err)
    | .blocked => pure (.bare .blocked)
    | .absent => pure (.bare .absent)

def retireAll (L : Layout) : PairM Bool := do
  let r ← StProg.loop L.ranges (fun r (_ : Unit) => do
    if ← retire L r then pure (some ()) else pure none) ()
  pure r.isSome

def pinMdKernelClear (L : Layout) : PairM PmdRc := do
  if validLayout L = false then pure .err
  else if ← retireAll L then
    match ← recPairClear L.record with
    | .ok => pure .ok
    | _ => pure .err
  else pure .err

end Nixtropic
