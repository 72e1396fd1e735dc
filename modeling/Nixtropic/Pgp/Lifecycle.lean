import Nixtropic.Pgp.Keys

/-!
`pgp_lifecycle.c`: the wipe of everything the card owns, the boot, TERMINATE and
ACTIVATE.

A PIN of the factory is bound only over a checked wipe: keys first, then O3 with
the decryption key in it, then every PIN.
-/

namespace Nixtropic.Pgp

open Crash

section Life

variable (F : PgpPrims)

/-- The erase of the three key slots; an empty slot answers OK. -/
def eraseKeys : PgpM Bool := do
  match ← tropicEccErase sigSlot with
  | .error _ => pure false
  | .ok () =>
      match ← tropicEccErase decSlot with
      | .error _ => pure false
      | .ok () =>
          match ← tropicEccErase autSlot with
          | .error _ => pure false
          | .ok () => pure true

def pgpLifecycleWipe : PgpM Bool := do
  leave .wipe
  if ← eraseKeys then
    if ← openpgpStateClear then pgpPinClearAll else pure false
  else pure false

def pgpLifecycleBoot : PgpM Bool := do
  match ← tropicSessionEnsure with
  | .error _ => pure false
  | .ok () =>
      match ← openpgpStateLoad F with
      | .loaded => pure true
      | .damaged => pure false
      | .absent =>
          -- first boot, an interrupted wipe, or both copies damaged
          if ← pgpLifecycleWipe then
            if ← pgpPinBindFactory F then openpgpStateInit F .operational else pure false
          else pure false

def pgpLifecycleTerminate : PgpM Bool := do
  if ← pgpLifecycleWipe then openpgpStateInit F .terminated else pure false

/-- What `pgp_lifecycle_activate` returns; `refused` is `-1`. -/
inductive ActivateResult where
  | ok
  | refused
  | failed
  deriving DecidableEq, Repr

def pgpLifecycleActivate : PgpM ActivateResult := do
  let u ← get
  if u.o3.lifecycle ≠ .terminated then pure .refused
  else if ← pgpPinClearAll then
    if ← pgpPinBindFactory F then
      if ← openpgpStateActivate F then pure .ok else pure .failed
    else pure .failed
  else pure .failed

def bootTriesMax : ℕ := 3

/-- At most three boots in a power cycle. -/
def pgpLifecycleEnsure : PgpM Unit := do
  let u ← get
  if u.o3.loaded ∨ bootTriesMax ≤ u.bootTries then pure ()
  else do
    modify fun u => { u with bootTries := u.bootTries + 1 }
    let _ ← pgpLifecycleBoot F
    pure ()

end Life

end Nixtropic.Pgp
