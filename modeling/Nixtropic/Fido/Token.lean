import Nixtropic.Fido.Data

/-!
`pin_token.c`: the pinUvAuthToken.

Timers are not interrupts: every use of the token looks at its age first. The
tick is a 32-bit counter of milliseconds, and so is the age.
-/

namespace Nixtropic.Fido

open Crash

def puatPermMc : UInt8 := 0x01
def puatPermGa : UInt8 := 0x02
def puatPermCm : UInt8 := 0x04
def puatPermAcfg : UInt8 := 0x20
def puatPermsKnown : UInt8 := 0x3f

def puatParamLen : ℕ := 16
def puatInitialUseMs : ℕ := 30000
def puatMaxLifeMs : ℕ := 600000

/-- `now - then` on `uint32_t`. -/
def tickDiff (now since : ℕ) : ℕ := (now + 2 ^ 32 - since) % 2 ^ 32

/-- `puat_reset`, as it acts on the variables. -/
def Token.cleared (t : Token) : Token :=
  { zeroToken with generation := (t.generation + 1) % 2 ^ 32 }

/-- `puat_begin`, as it acts on the variables. -/
def Token.begun (t : Token) (token : Bytes) (perms : UInt8) (rpHash : Option Bytes)
    (nowMs : ℕ) : Token where
  token := token
  inUse := true
  used := false
  uv := true
  perms := perms &&& puatPermsKnown
  hasRp := rpHash.isSome
  rpHash := rpHash.getD zeros
  issuedMs := nowMs
  generation := (t.cleared.generation + 1) % 2 ^ 32

/-- The test of `expire`. -/
def Token.expired (t : Token) (nowMs : ℕ) : Bool :=
  t.inUse && (decide (puatMaxLifeMs < tickDiff nowMs t.issuedMs) ||
    (!t.used && decide (puatInitialUseMs < tickDiff nowMs t.issuedMs)))

/-- `puat_bind_rp`, as it acts on the variables. -/
def Token.bound (t : Token) (rpHash : Bytes) : Token :=
  if t.inUse = false ∨ t.hasRp then t else { t with rpHash := rpHash, hasRp := true }

/-- `puat_consume`, as it acts on the variables. -/
def Token.consumed (t : Token) : Token :=
  if t.inUse then { t with uv := false, perms := 0 } else t

def setToken (f : Token → Token) : FidoM Unit := modify fun u => { u with token := f u.token }

def puatReset : FidoM Unit := do
  leave .puatReset
  setToken Token.cleared

def puatBegin (token : Bytes) (perms : UInt8) (rpHash : Option Bytes) (nowMs : ℕ) :
    FidoM Unit := do
  leave (.puatBegin token perms rpHash)
  setToken fun t => t.begun token perms rpHash nowMs

/-- The timer observer, run before every use. -/
def expire (nowMs : ℕ) : FidoM Unit := do
  leave .puatExpire
  if (← get).token.expired nowMs then puatReset else pure ()

/-- The comparison of `puat_verify`. -/
def puatCheck (param : Option Bytes) (msg : Bytes) : FidoM Bool := do
  let t := (← get).token
  match param with
  | none => pure false
  | some p =>
      if t.inUse = false ∨ p.length ≠ puatParamLen then pure false
      else do
        let mac ← onChip (hmacSha256 t.token msg)
        pure (decide (mac.take puatParamLen = p))

def puatVerify (param : Option Bytes) (msg : Bytes) (nowMs : ℕ) : FidoM Bool := do
  expire nowMs
  let ok ← puatCheck param msg
  leave (.puatVerify param msg ok)
  if ok then setToken fun t => { t with used := true } else pure ()
  pure ok

def puatInUse (nowMs : ℕ) : FidoM Bool := do
  expire nowMs
  let ok := (← get).token.inUse
  leave (.puatInUse ok)
  pure ok

/-- `puat_has_perm` -/
def Token.hasPerm (t : Token) (perm : UInt8) : Bool :=
  t.inUse && decide (t.perms &&& perm = perm) && decide (perm ≠ 0)

/-- `puat_user_verified` -/
def Token.userVerified (t : Token) : Bool := t.inUse && t.uv

/-- `puat_has_rp` -/
def Token.rpBound (t : Token) : Bool := t.inUse && t.hasRp

/-- `puat_rp_matches` -/
def Token.rpMatches (t : Token) (rpHash : Bytes) : Bool :=
  !t.hasRp || decide (t.rpHash = rpHash)

def puatBindRp (rpHash : Bytes) : FidoM Unit := do
  leave (.puatBindRp rpHash)
  setToken fun t => t.bound rpHash

def puatConsume : FidoM Unit := do
  leave .puatConsume
  setToken Token.consumed

end Nixtropic.Fido
