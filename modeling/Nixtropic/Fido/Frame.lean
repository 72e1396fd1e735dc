import Nixtropic.Fido.Ctap2
import Nixtropic.Device.BoardLogic

/-!
What the handlers keep, given what the functions they are made of keep.

A `Frame` lists the functions at the bottom of the handlers; an invariant that
each of them keeps is kept by authenticatorClientPIN, credential management,
the configuration command and GetInfo. MakeCredential, the two assertion
commands and Reset get what they do on top of these from their own rules.
-/

namespace Nixtropic.Fido

open Crash

/-- The invariant `J`, with `C` for runs that are cut, is kept by the calls of
the PIN kernel that set no PIN. -/
structure Checks (F : FidoPrims) (A : BoardFate → Prop) (J : FidoRam → Board Note → Prop)
    (C : Board Note → Prop) : Prop where
  status : Keeps (fidoBoard F) A J C (onPair o2Cell (pinMdKernelStatus F.chip fidoLayout))
  verify : ∀ mat,
    Keeps (fidoBoard F) A J C (onPair o2Cell (pinMdKernelVerify F.chip fidoLayout mat))
  verified : ∀ mat r, Keeps (fidoBoard F) A J C (leave (.pinVerify mat r))

/-- The same for the functions at the bottom of the store. -/
structure Store (F : FidoPrims) (A : BoardFate → Prop) (J : FidoRam → Board Note → Prop)
    (C : Board Note → Prop) : Prop extends Checks F A J C where
  setup : ∀ mat len,
    Keeps (fidoBoard F) A J C (onPair o2Cell (pinMdKernelSetup F.chip fidoLayout mat len))
  change : ∀ mat mat' len,
    Keeps (fidoBoard F) A J C (onPair o2Cell (pinMdKernelChange F.chip fidoLayout mat mat' len))
  guard : Keeps (fidoBoard F) A J C (slotsSetPinBound F true true)
  init : Keeps (fidoBoard F) A J C (slotsInit F)
  wipe : Keeps (fidoBoard F) A J C (fidoStateWipe F)
  counter : Keeps (fidoBoard F) A J C tropicMcounterGet

/-- The same for what the PIN handlers do around the kernel. -/
structure Pinned (F : FidoPrims) (A : BoardFate → Prop) (J : FidoRam → Board Note → Prop)
    (C : Board Note → Prop) : Prop extends Checks F A J C where
  random : ∀ n, Keeps (fidoBoard F) A J C (onChip (tropicRandom n))
  pinRam : ∀ f, Keeps (fidoBoard F) A J C (setPinRam f)

/-- The same for the functions that the handlers share. A PIN is set or changed
only after the token is gone, and a token is issued only for a PIN that was
verified. -/
structure Shared (F : FidoPrims) (A : BoardFate → Prop) (J : FidoRam → Board Note → Prop)
    (C : Board Note → Prop) : Prop extends Pinned F A J C where
  init : Keeps (fidoBoard F) A J C (credstoreInit F)
  setPin : ∀ mat len, Keeps (fidoBoard F) A J C (do puatReset; fidoPinSet F mat len)
  changePin : ∀ mat mat' len, Keeps (fidoBoard F) A J C (do puatReset; fidoPinChange F mat mat' len)
  issue : ∀ key phe perms rp, Keeps (fidoBoard F) A J C (do
    let rc ← verifyPinHashEnc F key phe
    if rc = .ok then issueToken F key perms rp else pure (.status rc))
  eraseSlot : ∀ slot, Keeps (fidoBoard F) A J C (credstoreEraseSlot F slot)
  forceUv : ∀ v, Keeps (fidoBoard F) A J C (slotsForceUvSet F v)
  readCred : ∀ slot, Keeps (fidoBoard F) A J C (readCred slot)
  pubkeyRead : ∀ slot, Keeps (fidoBoard F) A J C (tropicEccPubkeyRead slot)
  hmac : ∀ key msg, Keeps (fidoBoard F) A J C (onChip (hmacSha256 key msg))
  touch : ∀ t, Keeps (fidoBoard F) A J C (userPresenceCheck t)
  puatReset : Keeps (fidoBoard F) A J C puatReset
  acfgToken : ∀ c sub, Keeps (fidoBoard F) A J C (checkAcfgToken c sub)

/-- The same for the functions at the bottom of the handlers. -/
structure Frame (F : FidoPrims) (A : BoardFate → Prop) (J : FidoRam → Board Note → Prop)
    (C : Board Note → Prop) : Prop extends Shared F A J C where
  iter : ∀ f, Keeps (fidoBoard F) A J C (setIter f)
  cmToken : ∀ q sub, Keeps (fidoBoard F) A J C (checkCmToken q sub)
  continues : Keeps (fidoBoard F) A J C cmContinues

/-- The same for what the credential management is made of. -/
structure Managing (F : FidoPrims) (A : BoardFate → Prop) (J : FidoRam → Board Note → Prop)
    (C : Board Note → Prop) : Prop where
  readCred : ∀ slot, Keeps (fidoBoard F) A J C (readCred slot)
  pubkeyRead : ∀ slot, Keeps (fidoBoard F) A J C (tropicEccPubkeyRead slot)
  delete : ∀ credId, Keeps (fidoBoard F) A J C (doDeleteCredential F credId)
  iter : ∀ f, Keeps (fidoBoard F) A J C (setIter f)
  cmToken : ∀ q sub, Keeps (fidoBoard F) A J C (checkCmToken q sub)
  continues : Keeps (fidoBoard F) A J C cmContinues

section Keeps

variable {F : FidoPrims} {A : BoardFate → Prop} {J : FidoRam → Board Note → Prop}
  {C : Board Note → Prop} {α : Type}

theorem keeps_computeSharedKey (peerXy : Bytes) :
    Keeps (fidoBoard F) A J C (computeSharedKey F peerXy) := by
  apply keeps_get_bind
  intro u
  cases F.p256Ecdh u.pin.ephPriv (0x04 :: peerXy) <;> exact keeps_pure _

theorem keeps_orphanScrub (hread : ∀ slot, Keeps (fidoBoard F) A J C (readCred slot))
    (bm : BitVec 32) : Keeps (fidoBoard F) A J C (orphanScrub bm) := by
  apply keeps_bind
  · apply keeps_loop
    intro i bm
    apply keeps_ite _ (keeps_pure _)
    apply keeps_bind (hread i)
    intro r
    cases r <;> exact keeps_pure _
  · exact fun _ => keeps_pure _

theorem keeps_slotsInit (hsession : Keeps (fidoBoard F) A J C tropicSessionEnsure)
    (hread : Keeps (fidoBoard F) A J C (onPair o1Cell (recPairRead F.chip o1 (some o1Len))))
    (hset : ∀ f : FidoRam → SlotsRam,
      Keeps (fidoBoard F) A J C (modify fun u => { u with slots := f u } : FidoM PUnit))
    (hcred : ∀ slot, Keeps (fidoBoard F) A J C (readCred slot))
    (hwrite : ∀ v, Keeps (fidoBoard F) A J C (writeGlobal F v)) :
    Keeps (fidoBoard F) A J C (slotsInit F) := by
  have adopted : ∀ v, Keeps (fidoBoard F) A J C (slotsAdopt F v) := by
    intro v
    refine keeps_bind (hset _) fun _ => ?_
    refine keeps_bind (hset _) fun _ => ?_
    apply keeps_bind (keeps_orphanScrub hcred _)
    intro scrubbed
    apply keeps_ite (keeps_pure _)
    apply keeps_bind (hwrite _)
    intro ok
    exact keeps_ite (keeps_pure _) (keeps_bind (hset _) fun _ => keeps_pure _)
  apply keeps_get_bind
  intro u
  apply keeps_ite (keeps_pure _)
  apply keeps_bind hsession
  rintro (_ | _)
  · exact keeps_pure _
  · apply keeps_bind hread
    intro st
    cases st with
    | ok buf gen =>
        dsimp only
        cases parseGlobal buf with
        | none => exact keeps_pure _
        | some v => exact adopted v
    | _ => exact keeps_pure _

theorem keeps_doGetCredsMetadata : Keeps (fidoBoard F) A J C doGetCredsMetadata :=
  keeps_get_bind fun _ => keeps_ite (keeps_pure _) (keeps_pure _)

theorem keeps_slotsReadMeta (hread : ∀ slot, Keeps (fidoBoard F) A J C (readCred slot))
    (slot : ℕ) : Keeps (fidoBoard F) A J C (slotsReadMeta slot) := by
  apply keeps_get_bind
  intro u
  apply keeps_ite (keeps_pure _)
  apply keeps_ite (keeps_pure _)
  apply keeps_bind (hread slot)
  intro r
  cases r <;> exact keeps_pure _

theorem keeps_slotsLookupByCredid (hread : ∀ slot, Keeps (fidoBoard F) A J C (readCred slot))
    (credId : Bytes) : Keeps (fidoBoard F) A J C (slotsLookupByCredid credId) := by
  apply keeps_get_bind
  intro u
  apply keeps_ite (keeps_pure _)
  apply keeps_bind (hread _)
  intro r
  cases r <;> exact keeps_pure _

theorem keeps_credstoreLookup (hinit : Keeps (fidoBoard F) A J C (credstoreInit F))
    (hread : ∀ slot, Keeps (fidoBoard F) A J C (readCred slot)) (credId : Bytes) :
    Keeps (fidoBoard F) A J C (credstoreLookup F credId) := by
  apply keeps_bind hinit
  intro ok
  apply keeps_ite _ (keeps_pure _)
  apply keeps_bind (keeps_slotsLookupByCredid hread credId)
  rintro (_ | _) <;> exact keeps_pure _

theorem keeps_credstoreGetPubkey
    (hpub : ∀ slot, Keeps (fidoBoard F) A J C (tropicEccPubkeyRead slot)) (slot : ℕ) (alg : UInt8) :
    Keeps (fidoBoard F) A J C (credstoreGetPubkey slot alg) := by
  unfold Fido.credstoreGetPubkey
  cases algOfStored alg with
  | none => exact keeps_pure _
  | some a =>
      apply keeps_ite (keeps_pure _)
      apply keeps_bind (hpub slot)
      rintro (_ | _) <;> exact keeps_pure _

/-! ### `pin_md.c` and `fido_state.c` -/

theorem keeps_fidoStateWipe (hkeys : Keeps (fidoBoard F) A J C eraseKeys)
    (hmeta : Keeps (fidoBoard F) A J C slotsWipeMeta)
    (hnote : Keeps (fidoBoard F) A J C (leave .wiped))
    (hpin : Keeps (fidoBoard F) A J C fidoPinClear)
    (hfresh : Keeps (fidoBoard F) A J C (slotsInitFresh F))
    (hcounter : ∀ v, Keeps (fidoBoard F) A J C (tropicMcounterInit v)) :
    Keeps (fidoBoard F) A J C (fidoStateWipe F) := by
  apply keeps_bind hkeys
  intro ok
  apply keeps_ite _ (keeps_pure _)
  apply keeps_bind hmeta
  intro ok
  apply keeps_ite _ (keeps_pure _)
  apply keeps_bind hnote
  intro _
  apply keeps_bind hpin
  intro ok
  apply keeps_ite _ (keeps_pure _)
  apply keeps_bind hfresh
  intro ok
  apply keeps_ite _ (keeps_pure _)
  apply keeps_bind (hcounter _)
  rintro (_ | _) <;> exact keeps_pure _

section Checks

variable (ck : Checks F A J C)
include ck

theorem Checks.fidoPinState : Keeps (fidoBoard F) A J C (fidoPinState F) := by
  apply keeps_get_bind
  intro u
  cases u.pinBound? with
  | none => exact keeps_pure _
  | some bound =>
      apply keeps_bind ck.status
      intro s
      cases s.state <;> exact keeps_pure _

theorem Checks.fidoPinVerify (mat : Bytes) : Keeps (fidoBoard F) A J C (fidoPinVerify F mat) :=
  keeps_bind (ck.verify mat) fun r => keeps_bind (ck.verified mat r) fun _ => keeps_pure _

theorem Checks.pinIsSet : Keeps (fidoBoard F) A J C (pinIsSet F) :=
  keeps_bind ck.fidoPinState fun _ => keeps_pure _

theorem Checks.handleGetRetries : Keeps (fidoBoard F) A J C (handleGetRetries F) := by
  apply keeps_bind ck.fidoPinState
  rintro ⟨st, att⟩
  cases st <;> exact keeps_pure _

theorem Checks.pinGate : Keeps (fidoBoard F) A J C (pinGate F) := by
  apply keeps_bind ck.fidoPinState
  rintro ⟨st, _⟩
  cases st with
  | set => exact keeps_get_bind fun _ => keeps_pure _
  | _ => exact keeps_pure _

end Checks

section Store

variable (st : Store F A J C)
include st

theorem Store.fidoPinSet (mat : Bytes) (len : UInt8) :
    Keeps (fidoBoard F) A J C (fidoPinSet F mat len) := by
  apply keeps_bind st.fidoPinState
  rintro ⟨s, _⟩
  apply keeps_ite (keeps_pure _)
  apply keeps_bind (st.setup mat len)
  intro r
  exact keeps_ite (keeps_pure _) st.guard

theorem Store.fidoPinChange (mat mat' : Bytes) (len : UInt8) :
    Keeps (fidoBoard F) A J C (fidoPinChange F mat mat' len) :=
  keeps_bind (st.change mat mat' len) fun _ => keeps_pure _

theorem Store.fidoPinBoot : Keeps (fidoBoard F) A J C (fidoPinBoot F) := by
  apply keeps_get_bind
  intro u
  cases u.pinBound? with
  | none => exact keeps_pure _
  | some bound =>
      apply keeps_bind st.status
      intro s
      apply keeps_ite (keeps_pure _)
      apply keeps_ite (keeps_pure _)
      exact keeps_ite (keeps_pure _) st.guard

theorem Store.fidoStateBoot : Keeps (fidoBoard F) A J C (fidoStateBoot F) := by
  apply keeps_bind st.init
  intro s
  cases s with
  | ok =>
      apply keeps_bind st.fidoPinBoot
      intro ok
      apply keeps_ite _ (keeps_pure _)
      apply keeps_bind st.counter
      rintro (_ | _) <;> exact keeps_pure _
  | absent => exact st.wipe
  | error => exact keeps_pure _

theorem Store.credstoreInit (hset : Keeps (fidoBoard F) A J C (setStoreInitted true)) :
    Keeps (fidoBoard F) A J C (credstoreInit F) := by
  apply keeps_get_bind
  intro u
  apply keeps_ite (keeps_pure _)
  apply keeps_bind st.fidoStateBoot
  intro rc
  exact keeps_ite (keeps_bind hset fun _ => keeps_pure _) (keeps_pure _)

end Store

/-! ### authenticatorClientPIN, around the kernel -/

section Pinned

variable (pn : Pinned F A J C)
include pn

theorem Pinned.regenEphFrom (n : ℕ) : Keeps (fidoBoard F) A J C (regenEphFrom F n) := by
  induction n with
  | zero => exact keeps_pure _
  | succ n ih =>
      apply keeps_bind (pn.random 32)
      rintro (_ | rnd)
      · exact keeps_pure _
      · apply keeps_bind (pn.pinRam _)
        intro _
        apply keeps_ite ih
        cases F.p256Pub ((rnd.headD 0 &&& 0x7f) :: rnd.tail) with
        | none => exact ih
        | some pub => exact keeps_bind (pn.pinRam _) fun _ => keeps_pure _

theorem Pinned.regenEph : Keeps (fidoBoard F) A J C (regenEph F) := pn.regenEphFrom 16

theorem Pinned.pinMismatchStatus : Keeps (fidoBoard F) A J C (pinMismatchStatus F) := by
  apply keeps_bind pn.fidoPinState
  rintro ⟨st, _⟩
  apply keeps_bind (pn.pinRam _)
  intro _
  apply keeps_bind pn.regenEph
  intro _
  cases st with
  | set => exact keeps_get_bind fun _ => keeps_pure _
  | _ => exact keeps_pure _

theorem Pinned.changeOutcome (rc : PinRc) (policy : Status) :
    Keeps (fidoBoard F) A J C (changeOutcome F rc policy) := by
  cases rc with
  | blocked => exact keeps_bind pn.regenEph fun _ => keeps_pure _
  | error => exact keeps_pure _
  | ok correct =>
      cases correct with
      | false => exact pn.pinMismatchStatus
      | true =>
          apply keeps_bind (pn.pinRam _)
          intro _
          exact keeps_ite (keeps_bind pn.regenEph fun _ => keeps_pure _) (keeps_pure _)

theorem Pinned.verifyPinHashEnc (key enc : Bytes) :
    Keeps (fidoBoard F) A J C (verifyPinHashEnc F key enc) := by
  unfold Fido.verifyPinHashEnc
  cases F.aesCbcDec key enc with
  | none => exact keeps_pure _
  | some submitted =>
      apply keeps_bind (pn.fidoPinVerify submitted)
      intro rc
      cases rc with
      | blocked => exact keeps_bind pn.regenEph fun _ => keeps_pure _
      | error => exact keeps_pure _
      | ok correct =>
          cases correct with
          | false => exact pn.pinMismatchStatus
          | true => exact keeps_bind (pn.pinRam _) fun _ => keeps_pure _

end Pinned

section Shared

variable (sh : Shared F A J C)
include sh

theorem Shared.slotsReadMeta (slot : ℕ) : Keeps (fidoBoard F) A J C (slotsReadMeta slot) :=
  keeps_slotsReadMeta sh.readCred slot

theorem Shared.slotsLookupByCredid (credId : Bytes) :
    Keeps (fidoBoard F) A J C (slotsLookupByCredid credId) :=
  keeps_slotsLookupByCredid sh.readCred credId

theorem Shared.credstoreLookup (credId : Bytes) :
    Keeps (fidoBoard F) A J C (credstoreLookup F credId) :=
  keeps_credstoreLookup sh.init sh.readCred credId

theorem Shared.credstoreFind (credId rpIdHash : Bytes) :
    Keeps (fidoBoard F) A J C (credstoreFind F credId rpIdHash) := by
  apply keeps_bind sh.init
  intro ok
  apply keeps_ite _ (keeps_pure _)
  apply keeps_bind (sh.slotsLookupByCredid credId)
  rintro (_ | _) <;> exact keeps_pure _

/-! ### authenticatorClientPIN -/

theorem Shared.pinInit : Keeps (fidoBoard F) A J C (pinInit F) := by
  apply keeps_bind sh.regenEph
  intro ok
  apply keeps_ite _ (keeps_pure _)
  exact keeps_bind sh.puatReset fun _ => keeps_bind (sh.pinRam _) fun _ => keeps_pure _

theorem Shared.pinReady : Keeps (fidoBoard F) A J C (pinReady F) :=
  keeps_get_bind fun _ => keeps_ite (keeps_pure _) sh.pinInit

theorem Shared.pinResetRam : Keeps (fidoBoard F) A J C (pinResetRam F) :=
  keeps_bind sh.puatReset fun _ => keeps_bind (sh.pinRam _) fun _ =>
    keeps_bind sh.regenEph fun _ => keeps_pure _

theorem Shared.pinAuthCompute (key msg : Bytes) :
    Keeps (fidoBoard F) A J C (pinAuthCompute key msg) :=
  keeps_bind (sh.hmac key msg) fun _ => keeps_pure _

theorem Shared.handleGetKeyAgreement :
    Keeps (fidoBoard F) A J C (handleGetKeyAgreement F) :=
  keeps_bind sh.pinReady fun _ =>
    keeps_ite (keeps_get_bind fun _ => keeps_pure _) (keeps_pure _)

theorem Shared.setPinWithKey (key newPinEnc pinAuth : Bytes) :
    Keeps (fidoBoard F) A J C (setPinWithKey F key newPinEnc pinAuth) := by
  apply keeps_bind (sh.pinAuthCompute key newPinEnc)
  intro expected
  apply keeps_ite (keeps_pure _)
  cases newPinHash F key newPinEnc with
  | ok hash len =>
      apply keeps_bind_assoc (sh.setPin _ _)
      intro ok
      apply keeps_ite _ (keeps_pure _)
      exact keeps_bind sh.regenEph fun _ => keeps_bind sh.puatReset fun _ =>
        keeps_bind (sh.pinRam _) fun _ => keeps_pure _
  | _ => exact keeps_pure _

theorem Shared.handleSetPin (q : Except Status PinReq) :
    Keeps (fidoBoard F) A J C (handleSetPin F q) := by
  apply keeps_bind sh.fidoPinState
  rintro ⟨st, _⟩
  cases st with
  | notSet =>
      cases q with
      | error s => exact keeps_pure _
      | ok q =>
          dsimp only
          split
          · apply keeps_bind sh.pinReady
            intro ok
            apply keeps_ite _ (keeps_pure _)
            apply keeps_bind (keeps_computeSharedKey _)
            rintro (_ | key)
            · exact keeps_pure _
            · exact sh.setPinWithKey _ _ _
          · exact keeps_pure _
  | _ => exact keeps_pure _

theorem Shared.changePinWithKey (key newPinEnc pinHashEnc pinAuth : Bytes) :
    Keeps (fidoBoard F) A J C (changePinWithKey F key newPinEnc pinHashEnc pinAuth) := by
  apply keeps_bind (sh.pinAuthCompute _ _)
  intro expected
  apply keeps_ite (keeps_pure _)
  cases F.aesCbcDec key pinHashEnc with
  | none => exact keeps_pure _
  | some oldHash =>
      cases newPinHash F key newPinEnc with
      | other => exact keeps_pure _
      | ok hash len =>
          exact keeps_bind_assoc (sh.changePin _ _ _) fun _ => sh.changeOutcome _ _
      | policy =>
          exact keeps_bind sh.puatReset fun _ => keeps_bind (sh.fidoPinVerify _) fun _ =>
            sh.changeOutcome _ _

theorem Shared.handleChangePin (q : Except Status PinReq) :
    Keeps (fidoBoard F) A J C (handleChangePin F q) := by
  apply keeps_bind sh.pinGate
  rintro (_ | s)
  · cases q with
    | error s => exact keeps_pure _
    | ok q =>
        dsimp only
        split
        · apply keeps_bind sh.pinReady
          intro ok
          apply keeps_ite _ (keeps_pure _)
          apply keeps_bind (keeps_computeSharedKey _)
          rintro (_ | key)
          · exact keeps_pure _
          · exact sh.changePinWithKey _ _ _ _
        · exact keeps_pure _
  · exact keeps_pure _

theorem Shared.handleGetPinToken (q : Except Status PinReq) (withPerms : Bool) :
    Keeps (fidoBoard F) A J C (handleGetPinToken F q withPerms) := by
  cases q with
  | error s => exact keeps_pure _
  | ok q =>
      unfold Fido.handleGetPinToken
      dsimp only
      split
      · exact keeps_pure _
      · apply keeps_bind sh.pinGate
        rintro (_ | s)
        · apply keeps_bind (keeps_computeSharedKey _)
          rintro (_ | key)
          · exact keeps_pure _
          · exact sh.issue _ _ _ _
        · exact keeps_pure _

theorem Shared.pinHandleCbor (c : PinCommand) : Keeps (fidoBoard F) A J C (pinHandleCbor F c) := by
  apply keeps_bind sh.pinReady
  intro ok
  apply keeps_ite _ (keeps_pure _)
  cases c with
  | malformed s => exact keeps_pure _
  | getRetries => exact sh.handleGetRetries
  | getKeyAgreement => exact sh.handleGetKeyAgreement
  | setPin q => exact keeps_bind (sh.handleSetPin q) fun _ => keeps_pure _
  | changePin q => exact keeps_bind (sh.handleChangePin q) fun _ => keeps_pure _
  | getPinToken q => exact sh.handleGetPinToken q false
  | getPinTokenPerms q => exact sh.handleGetPinToken q true

/-! ### GetInfo and configuration -/

theorem Shared.ctap2Config (c : Except Status CfgReq) :
    Keeps (fidoBoard F) A J C (ctap2Config F c) := by
  cases c with
  | error s => exact keeps_pure _
  | ok c =>
      unfold Fido.ctap2Config
      dsimp only
      cases c.sub with
      | none => exact keeps_pure _
      | some sub =>
          apply keeps_ite (keeps_pure _)
          apply keeps_bind sh.pinIsSet
          intro set
          have rest : ∀ rc : Status, Keeps (fidoBoard F) A J C (do
              if rc ≠ .ok then pure (.status rc)
              else if ← slotsForceUvSet F (!(← get).forceUvGet) then pure (.status .ok)
              else pure (.status .other) : FidoM Answer) := by
            intro rc
            apply keeps_ite (keeps_pure _)
            apply keeps_get_bind
            intro u
            apply keeps_bind (sh.forceUv _)
            intro ok
            exact keeps_ite (keeps_pure _) (keeps_pure _)
          exact keeps_ite (keeps_bind (sh.acfgToken c sub) rest) (keeps_bind (keeps_pure _) rest)

theorem Shared.getInfo : Keeps (fidoBoard F) A J C (getInfo F) :=
  keeps_get_bind fun _ => keeps_bind sh.pinIsSet fun _ => keeps_pure _

end Shared

/-! ### Credential management -/

section Reading

variable (hread : ∀ slot, Keeps (fidoBoard F) A J C (readCred slot))
include hread

theorem keeps_buildRpList : Keeps (fidoBoard F) A J C buildRpList := by
  apply keeps_get_bind
  intro u
  apply keeps_bind
  · apply keeps_loop
    intro i acc
    apply keeps_ite _ (keeps_pure _)
    apply keeps_bind (keeps_slotsReadMeta hread i)
    intro r
    cases r <;> exact keeps_pure _
  · exact fun _ => keeps_pure _

theorem keeps_buildCredListForRp (rpHash : Bytes) :
    Keeps (fidoBoard F) A J C (buildCredListForRp rpHash) := by
  apply keeps_get_bind
  intro u
  apply keeps_bind
  · apply keeps_loop
    intro i acc
    apply keeps_ite _ (keeps_pure _)
    apply keeps_bind (keeps_slotsReadMeta hread i)
    intro r
    cases r <;> exact keeps_pure _
  · exact fun _ => keeps_pure _

theorem keeps_writeRpEntry (slot total : ℕ) :
    Keeps (fidoBoard F) A J C (writeRpEntry slot total) := by
  apply keeps_bind (keeps_slotsReadMeta hread slot)
  intro r
  cases r <;> exact keeps_pure _

theorem keeps_writeCredEntry
    (hpub : ∀ slot, Keeps (fidoBoard F) A J C (tropicEccPubkeyRead slot)) (slot total : ℕ) :
    Keeps (fidoBoard F) A J C (writeCredEntry slot total) := by
  apply keeps_bind (keeps_slotsReadMeta hread slot)
  intro r
  cases r with
  | ok m =>
      apply keeps_bind (keeps_credstoreGetPubkey hpub slot m.alg)
      rintro (_ | pub)
      · exact keeps_pure _
      · dsimp only
        split <;> exact keeps_pure _
  | _ => exact keeps_pure _

end Reading

theorem keeps_doDeleteCredential
    (hlookup : ∀ credId, Keeps (fidoBoard F) A J C (credstoreLookup F credId))
    (hmeta : ∀ slot, Keeps (fidoBoard F) A J C (slotsReadMeta slot))
    (herase : ∀ slot, Keeps (fidoBoard F) A J C (credstoreEraseSlot F slot))
    (credId : Except Status Bytes) : Keeps (fidoBoard F) A J C (doDeleteCredential F credId) := by
  cases credId with
  | error s => exact keeps_pure _
  | ok credId =>
      apply keeps_bind (hlookup credId)
      rintro (_ | slot)
      · exact keeps_pure _
      · apply keeps_bind (hmeta slot)
        intro r
        cases r with
        | ok m =>
            apply keeps_get_bind
            intro u
            apply keeps_ite _ (keeps_pure _)
            apply keeps_bind (herase slot)
            intro ok
            exact keeps_ite (keeps_pure _) (keeps_pure _)
        | _ => exact keeps_pure _

theorem Shared.doDeleteCredential (sh : Shared F A J C) (credId : Except Status Bytes) :
    Keeps (fidoBoard F) A J C (doDeleteCredential F credId) :=
  keeps_doDeleteCredential sh.credstoreLookup sh.slotsReadMeta sh.eraseSlot credId

section Managing

variable (mg : Managing F A J C)
include mg

theorem Managing.doEnumRpsBegin : Keeps (fidoBoard F) A J C doEnumRpsBegin := by
  apply keeps_get_bind
  intro u
  apply keeps_ite (keeps_pure _)
  apply keeps_bind (keeps_buildRpList mg.readCred)
  intro slots
  apply keeps_bind (mg.iter _)
  intro _
  apply keeps_ite (keeps_pure _)
  exact keeps_bind (keeps_writeRpEntry mg.readCred _ _) fun _ => keeps_bind (mg.iter _) fun _ =>
    keeps_pure _

theorem Managing.doEnumRpsNext : Keeps (fidoBoard F) A J C doEnumRpsNext := by
  apply keeps_get_bind
  intro u
  apply keeps_ite (keeps_pure _)
  exact keeps_bind (keeps_writeRpEntry mg.readCred _ _) fun _ => keeps_bind (mg.iter _) fun _ =>
    keeps_pure _

theorem Managing.doEnumCredsBegin (rpHash : Except Status Bytes) :
    Keeps (fidoBoard F) A J C (doEnumCredsBegin rpHash) := by
  cases rpHash with
  | error s => exact keeps_pure _
  | ok rpHash =>
      apply keeps_get_bind
      intro u
      apply keeps_ite _ (keeps_pure _)
      apply keeps_bind (mg.iter _)
      intro _
      apply keeps_bind (keeps_buildCredListForRp mg.readCred rpHash)
      intro slots
      apply keeps_bind (mg.iter _)
      intro _
      apply keeps_ite (keeps_pure _)
      exact keeps_bind (keeps_writeCredEntry mg.readCred mg.pubkeyRead _ _) fun _ =>
        keeps_bind (mg.iter _) fun _ =>
        keeps_pure _

theorem Managing.doEnumCredsNext : Keeps (fidoBoard F) A J C doEnumCredsNext := by
  apply keeps_get_bind
  intro u
  apply keeps_ite (keeps_pure _)
  exact keeps_bind (keeps_writeCredEntry mg.readCred mg.pubkeyRead _ _) fun _ =>
    keeps_bind (mg.iter _) fun _ => keeps_pure _

theorem Managing.cmRun (q : CmReq) (sub : ℕ) : Keeps (fidoBoard F) A J C (cmRun F q sub) := by
  apply keeps_bind (mg.iter _)
  intro _
  apply keeps_bind (mg.iter _)
  intro _
  apply keeps_ite keeps_doGetCredsMetadata
  apply keeps_ite mg.doEnumRpsBegin
  apply keeps_ite mg.doEnumRpsNext
  apply keeps_ite (mg.doEnumCredsBegin _)
  apply keeps_ite mg.doEnumCredsNext
  exact keeps_ite (mg.delete _) (keeps_pure _)

theorem Managing.credmgmtResetIterator :
    Keeps (fidoBoard F) A J C credmgmtResetIterator := mg.iter _

theorem Managing.credmgmtHandleCbor (q : Except Status CmReq) :
    Keeps (fidoBoard F) A J C (credmgmtHandleCbor F q) := by
  cases q with
  | error s => exact keeps_pure _
  | ok q =>
      unfold Fido.credmgmtHandleCbor
      dsimp only
      cases q.sub with
      | none => exact keeps_pure _
      | some sub =>
          apply keeps_ite
          · apply keeps_bind (mg.cmToken q sub)
            intro rc
            apply keeps_ite (keeps_pure _)
            exact keeps_get_bind fun _ => keeps_bind (mg.iter _) fun _ => mg.cmRun q sub
          · apply keeps_bind mg.continues
            intro ok
            apply keeps_ite (mg.cmRun q sub)
            exact keeps_bind mg.credmgmtResetIterator fun _ => keeps_pure _

end Managing

theorem Frame.managing (fr : Frame F A J C) : Managing F A J C where
  readCred := fr.readCred
  pubkeyRead := fr.pubkeyRead
  delete := fr.doDeleteCredential
  iter := fr.iter
  cmToken := fr.cmToken
  continues := fr.continues

end Keeps

end Nixtropic.Fido
