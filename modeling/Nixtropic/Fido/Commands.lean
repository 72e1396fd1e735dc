import Nixtropic.Fido.Ground

/-!
What MakeCredential, the assertion commands and Reset keep, given what the
functions they are made of keep.

GetAssertion writes its own variables, of which an invariant may have more to
say than that it is kept; its rule leaves these steps open.
-/

namespace Nixtropic.Fido

open Crash Runs

/-- `wait_touch`, and `puat_consume` right behind a touch that was given. -/
def spendTouch : FidoM Status := do
  let up ← waitTouch .use
  if up ≠ .ok then pure up
  else do
    puatConsume
    pure .ok

/-- What stands behind the touch in `mc_commit` and `ga_commit`. -/
theorem waitTouch_consume {α : Type} (no : Status → FidoM α) (k : FidoM α) :
    (do
      let up ← waitTouch .use
      if up ≠ .ok then no up
      else do
        puatConsume
        k : FidoM α) =
    (do
      let up ← spendTouch
      if up ≠ .ok then no up else k : FidoM α) := by
  rw [spendTouch, LawfulMonad.bind_assoc]
  congr 1
  funext up
  by_cases hup : up = .ok
  · rw [if_neg (not_not.mpr hup), if_neg (not_not.mpr hup), LawfulMonad.bind_assoc]
    rfl
  · rw [if_pos hup, if_pos hup, LawfulMonad.pure_bind, if_pos hup]

/-- The functions that MakeCredential and GetAssertion are made of keep `J`. -/
structure Commands (F : FidoPrims) (A : BoardFate → Prop) (J : FidoRam → Board Note → Prop)
    (C : Board Note → Prop) : Prop extends Shared F A J C where
  checkToken : ∀ pu clientHash perm rpHash,
    Keeps (fidoBoard F) A J C (checkToken pu clientHash perm rpHash)
  ask : ∀ prompt, prompt ≠ .use → Keeps (fidoBoard F) A J C (askTouch prompt)
  spend : Keeps (fidoBoard F) A J C spendTouch
  make : ∀ rpIdHash alg flags userHandle created mask,
    Keeps (fidoBoard F) A J C (credstoreMake F rpIdHash alg flags userHandle created mask)
  peek : Keeps (fidoBoard F) A J C (credstoreSigncountPeek F)

section Commands

variable {F : FidoPrims} {A : BoardFate → Prop} {J : FidoRam → Board Note → Prop}
  {C : Board Note → Prop}

theorem keeps_mcScan (hmeta : ∀ slot, Keeps (fidoBoard F) A J C (slotsReadMeta slot)) (q : McReq)
    (rpHash : Bytes) (rk : Bool) : Keeps (fidoBoard F) A J C (mcScan q rpHash rk) := by
  apply keeps_get_bind
  intro u
  apply keeps_bind
  · apply keeps_loop
    intro i acc
    apply keeps_ite _ (keeps_pure _)
    apply keeps_bind (hmeta i)
    intro r
    cases r <;> exact keeps_pure _
  · rintro (_ | ⟨last, mask⟩) <;> exact keeps_pure _

theorem keeps_eraseReplaced
    (herase : ∀ slot, Keeps (fidoBoard F) A J C (credstoreEraseSlot F slot)) (mask : BitVec 32) :
    Keeps (fidoBoard F) A J C (eraseReplaced F mask) := by
  apply keeps_bind
  · apply keeps_loop
    intro i _
    apply keeps_ite _ (keeps_pure _)
    exact keeps_bind (herase i) fun _ => keeps_pure _
  · exact fun _ => keeps_pure _

variable (cs : Commands F A J C)
include cs

theorem Commands.tokenUv (pinSet : Bool) (pu : PinUv) (clientHash : Bytes) (perm : UInt8)
    (rpHash : Bytes) :
    Keeps (fidoBoard F) A J C (tokenUv pinSet pu clientHash perm rpHash) :=
  keeps_ite (keeps_bind (cs.checkToken _ _ _ _) fun _ => keeps_pure _) (keeps_pure _)

theorem Commands.pinProbe : Keeps (fidoBoard F) A J C (pinProbe F) := by
  have htouch : Keeps (fidoBoard F) A J C (waitTouch .probe) :=
    keeps_bind (cs.ask .probe (by decide)) fun _ => keeps_pure _
  apply keeps_bind htouch
  intro up
  apply keeps_ite (keeps_pure _)
  apply keeps_bind cs.pinIsSet
  intro set
  exact keeps_ite (keeps_pure _) (keeps_pure _)

/-! ### MakeCredential -/

theorem Commands.mcUvPolicy (q : McReq) (rk : Bool) (rpHash : Bytes) :
    Keeps (fidoBoard F) A J C (mcUvPolicy F q rk rpHash) := by
  apply keeps_bind cs.pinIsSet
  intro set
  apply keeps_get_bind
  intro u
  apply keeps_ite
  · exact keeps_ite (keeps_pure _) (cs.tokenUv _ _ _ _ _)
  · exact keeps_ite (keeps_pure _) (cs.tokenUv _ _ _ _ _)

theorem Commands.mcExcluded (rpHash : Bytes) (ids : List Bytes) :
    Keeps (fidoBoard F) A J C (mcExcluded F rpHash ids) := by
  induction ids with
  | nil => exact keeps_pure _
  | cons id rest ih =>
      apply keeps_bind (cs.credstoreFind id rpHash)
      rintro (_ | slot)
      · exact ih
      · exact keeps_bind (cs.ask .excluded (by decide)) fun _ => keeps_pure _

theorem Commands.mcScan (q : McReq) (rpHash : Bytes) (rk : Bool) :
    Keeps (fidoBoard F) A J C (mcScan q rpHash rk) := keeps_mcScan cs.slotsReadMeta q rpHash rk

theorem Commands.eraseReplaced (mask : BitVec 32) :
    Keeps (fidoBoard F) A J C (eraseReplaced F mask) := keeps_eraseReplaced cs.eraseSlot mask

theorem Commands.mcCommit (q : McReq) (rpHash : Bytes) (rk : Bool) (uvFlag : UInt8)
    (sc created : ℕ) (mask : BitVec 32) :
    Keeps (fidoBoard F) A J C (mcCommit F q rpHash rk uvFlag sc created mask) := by
  rw [Fido.mcCommit, waitTouch_consume]
  apply keeps_bind cs.spend
  intro up
  apply keeps_ite (keeps_pure _)
  apply keeps_bind (cs.make _ _ _ _ _ _)
  intro r
  cases r with
  | ok pubkey credId slot => exact keeps_bind (cs.eraseReplaced mask) fun _ => keeps_pure _
  | _ => exact keeps_pure _

theorem Commands.mcPrepare (q : McReq) (rpHash : Bytes) (rk : Bool) (uvFlag : UInt8) :
    Keeps (fidoBoard F) A J C (mcPrepare F q rpHash rk uvFlag) := by
  apply keeps_get_bind
  intro u
  apply keeps_ite (keeps_pure _)
  apply keeps_bind (cs.mcExcluded rpHash _)
  intro ex
  apply keeps_ite (keeps_pure _)
  apply keeps_bind cs.peek
  rintro (_ | sc)
  · exact keeps_pure _
  · apply keeps_bind (cs.mcScan q rpHash rk)
    rintro (_ | ⟨created, mask⟩)
    · exact keeps_pure _
    · exact cs.mcCommit _ _ _ _ _ _ _

theorem Commands.makeCredential (q : Except Status McReq) :
    Keeps (fidoBoard F) A J C (ctap2MakeCredential F q) := by
  cases q with
  | error s => exact keeps_pure _
  | ok q =>
      apply keeps_ite (keeps_bind cs.pinProbe fun _ => keeps_pure _)
      apply keeps_ite (keeps_pure _)
      apply keeps_ite (keeps_pure _)
      apply keeps_bind (cs.mcUvPolicy q _ _)
      rintro (s | uvFlag)
      · exact keeps_pure _
      · exact cs.mcPrepare _ _ _ _

/-! ### GetAssertion -/

theorem Commands.gaUvPolicy (q : GaReq) (up : Bool) (rpHash : Bytes) :
    Keeps (fidoBoard F) A J C (gaUvPolicy F q up rpHash) := by
  apply keeps_bind cs.pinIsSet
  intro set
  apply keeps_get_bind
  intro u
  apply keeps_ite
  · exact keeps_ite (keeps_pure _) (cs.tokenUv _ _ _ _ _)
  · exact cs.tokenUv _ _ _ _ _

/-- An allow list yields one credential at most. -/
theorem Commands.gaFromAllowList (rpHash : Bytes) (ids : List Bytes) {u : FidoRam} {b : Board Note}
    (h : J u b) :
    swp (fidoBoard F) A (gaFromAllowList F rpHash ids)
      (fun slots u' b' => J u' b' ∧ slots.length ≤ 1) C u b := by
  induction ids generalizing u b with
  | nil => exact ⟨h, Nat.zero_le _⟩
  | cons id rest ih =>
      rw [Fido.gaFromAllowList, swp_bind]
      apply swp_mono (cs.credstoreFind id rpHash u b h) _ fun _ h => h
      rintro (_ | slot) u' b' h'
      · exact ih h'
      · exact ⟨h', Nat.le_refl _⟩

theorem Commands.gaDiscover (rpHash : Bytes) :
    Keeps (fidoBoard F) A J C (gaDiscover rpHash) := by
  apply keeps_get_bind
  intro u
  apply keeps_bind
  · apply keeps_loop
    intro i acc
    apply keeps_ite _ (keeps_pure _)
    apply keeps_bind (cs.slotsReadMeta i)
    intro r
    cases r with
    | ok m => exact keeps_ite (keeps_pure _) (keeps_pure _)
    | _ => exact keeps_pure _
  · exact fun _ => keeps_pure _

section GetAssertion

variable {Q : Answer → FidoRam → Board Note → Prop} {u : FidoRam} {b : Board Note}

/-- GetAssertion, once its credentials are chosen. -/
theorem Commands.swp_gaRespond {q : GaReq} {up : Bool} {rpHash : Bytes} {uvFlag : UInt8}
    {slots : List ℕ}
    (hset : ∀ slots, Keeps (fidoBoard F) A J C (setGa fun g => { g with slots := slots }))
    (hstatus : ∀ s u b, J u b → Q (.status s) u b)
    (hfinish : ∀ flags u b, slots ≠ [] → J u b →
      swp (fidoBoard F) A (gaFinish F q rpHash flags slots) Q C u b)
    (h : J u b) :
    swp (fidoBoard F) A (do
      setGa fun g => { g with slots := slots }
      if slots = [] then pure (.status .noCredentials)
      else if up then do
        let touch ← waitTouch .use
        if touch ≠ .ok then pure (.status touch)
        else do
          puatConsume
          gaFinish F q rpHash (flagUp ||| uvFlag) slots
      else gaFinish F q rpHash uvFlag slots) Q C u b := by
  rw [swp_bind]
  apply swp_mono (hset slots u b h) _ fun _ h => h
  intro _ u₁ b₁ h₁
  split
  · exact hstatus _ _ _ h₁
  rename_i hne
  split
  · rw [waitTouch_consume, swp_bind]
    apply swp_mono (cs.spend u₁ b₁ h₁) _ fun _ h => h
    intro touch u₂ b₂ h₂
    split
    · exact hstatus _ _ _ h₂
    · exact hfinish _ _ _ hne h₂
  · exact hfinish _ _ _ hne h₁

theorem Commands.swp_gaCommit {q : GaReq} {up : Bool} {rpHash : Bytes} {uvFlag : UInt8}
    (hset : ∀ slots, Keeps (fidoBoard F) A J C (setGa fun g => { g with slots := slots }))
    (hstatus : ∀ s u b, J u b → Q (.status s) u b)
    (hfinish : ∀ flags slots u b, slots ≠ [] → (q.allow.isSome = true → slots.length ≤ 1) →
      J u b → swp (fidoBoard F) A (gaFinish F q rpHash flags slots) Q C u b)
    (h : J u b) : swp (fidoBoard F) A (gaCommit F q up rpHash uvFlag) Q C u b := by
  rw [gaCommit, swp_bind, swp_get]
  split
  · exact hstatus _ _ _ h
  cases hallow : q.allow with
  | some ids =>
      dsimp only
      rw [swp_bind]
      apply swp_mono (cs.gaFromAllowList rpHash ids h) _ fun _ h => h
      rintro slots u₁ b₁ ⟨h₁, hlen⟩
      exact cs.swp_gaRespond hset hstatus
        (fun flags u b hne => hfinish flags slots u b hne fun _ => hlen) h₁
  | none =>
      dsimp only
      rw [swp_bind]
      apply swp_mono (cs.gaDiscover rpHash u b h) _ fun _ h => h
      intro slots u₁ b₁ h₁
      apply cs.swp_gaRespond hset hstatus _ h₁
      exact fun flags u b hne => hfinish flags slots u b hne fun hs => by simp [hallow] at hs

/-- GetAssertion keeps `J` up to its signature. -/
theorem Commands.swp_getAssertion {q : Except Status GaReq}
    (hset : ∀ slots, Keeps (fidoBoard F) A J C (setGa fun g => { g with slots := slots }))
    (hstatus : ∀ s u b, J u b → Q (.status s) u b)
    (hfinish : ∀ q' flags slots u b, q = .ok q' → slots ≠ [] →
      (q'.allow.isSome = true → slots.length ≤ 1) → J u b →
      swp (fidoBoard F) A (gaFinish F q' (F.chip.sha256 q'.rpId) flags slots) Q C u b)
    (h : J { u with ga := .zero } b) :
    swp (fidoBoard F) A (ctap2GetAssertion F q) Q C u b := by
  have h₀ : swp (fidoBoard F) A ctap2AssertionReset (fun _ u' b' => J u' b') C u b := h
  unfold ctap2GetAssertion
  rw [swp_bind]
  apply swp_mono h₀ _ fun _ h => h
  intro _ u₁ b₁ h₁
  cases q with
  | error s => exact hstatus _ _ _ h₁
  | ok q =>
      dsimp only
      split
      · rw [swp_bind]
        exact swp_mono (cs.pinProbe u₁ b₁ h₁) (fun _ _ _ h => hstatus _ _ _ h) fun _ h => h
      split
      · exact hstatus _ _ _ h₁
      split
      · exact hstatus _ _ _ h₁
      split
      · exact hstatus _ _ _ h₁
      rw [swp_bind]
      apply swp_mono (cs.gaUvPolicy q _ _ u₁ b₁ h₁) _ fun _ h => h
      rintro (s | uvFlag) u₂ b₂ h₂
      · exact hstatus _ _ _ h₂
      · exact cs.swp_gaCommit hset hstatus (fun flags slots u b => hfinish q flags slots u b rfl) h₂

end GetAssertion

end Commands

/-! ### Invariants that do not notice the token either -/

section Footing

variable {F : FidoPrims} {A : BoardFate → Prop} {X : Scope}
  {J : FidoRam → Board Note → Prop} {C : Board Note → Prop} (g : Footing X J C)
include g

section Tokens

variable (ht : X.Tokens)
include ht

theorem Footing.setToken (f : Token → Token) : Keeps (fidoBoard F) A J C (setToken f) :=
  g.vars fun u => ht.ram u (f u.token)

theorem Footing.puatReset : Keeps (fidoBoard F) A J C puatReset :=
  keeps_bind (g.leave (ht.note _ rfl)) fun _ => g.setToken ht _

theorem Footing.puatBegin (token : Bytes) (perms : UInt8) (rp : Option Bytes) (now : ℕ) :
    Keeps (fidoBoard F) A J C (puatBegin token perms rp now) :=
  keeps_bind (g.leave (ht.note _ rfl)) fun _ => g.setToken ht _

theorem Footing.puatBindRp (rp : Bytes) : Keeps (fidoBoard F) A J C (puatBindRp rp) :=
  keeps_bind (g.leave (ht.note _ rfl)) fun _ => g.setToken ht _

theorem Footing.puatConsume : Keeps (fidoBoard F) A J C puatConsume :=
  keeps_bind (g.leave (ht.note _ rfl)) fun _ => g.setToken ht _

theorem Footing.askTouch (prompt : Prompt) : Keeps (fidoBoard F) A J C (askTouch prompt) :=
  keeps_bind (g.touch _) fun _ => keeps_bind (g.leave (ht.note _ rfl)) fun _ => keeps_pure _

theorem Footing.spendTouch : Keeps (fidoBoard F) A J C spendTouch := by
  have htouch : Keeps (fidoBoard F) A J C (waitTouch .use) :=
    keeps_bind (g.askTouch ht .use) fun _ => keeps_pure _
  apply keeps_bind htouch
  intro up
  exact keeps_ite (keeps_pure _) (keeps_bind (g.puatConsume ht) fun _ => keeps_pure _)

theorem Footing.expire (now : ℕ) : Keeps (fidoBoard F) A J C (expire now) := by
  apply keeps_bind (g.leave (ht.note _ rfl))
  intro _
  apply keeps_get_bind
  intro u
  exact keeps_ite (g.puatReset ht) (keeps_pure _)

theorem Footing.puatVerify (param : Option Bytes) (msg : Bytes) (now : ℕ) :
    Keeps (fidoBoard F) A J C (puatVerify param msg now) := by
  have rest : ∀ ok : Bool, Keeps (fidoBoard F) A J C (do
      Nixtropic.leave (.puatVerify param msg ok)
      if ok then Fido.setToken fun t => { t with used := true } else pure ()
      pure ok : FidoM Bool) := by
    intro ok
    apply keeps_bind (g.leave (ht.note _ rfl))
    intro _
    cases ok with
    | true => exact keeps_bind (g.setToken ht _) fun _ => keeps_pure _
    | false => exact keeps_pure _
  apply keeps_bind (g.expire ht now)
  intro _
  refine keeps_bind ?_ rest
  apply keeps_get_bind
  intro u
  cases param with
  | none => exact keeps_pure _
  | some p =>
      apply keeps_ite (keeps_pure _)
      exact keeps_bind (g.perform (o := .hmac _ _) trivial) fun _ => keeps_pure _

theorem Footing.puatInUse (now : ℕ) : Keeps (fidoBoard F) A J C (puatInUse now) := by
  apply keeps_bind (g.expire ht now)
  intro _
  apply keeps_get_bind
  intro u
  exact keeps_bind (g.leave (ht.note _ rfl)) fun _ => keeps_pure _

theorem Footing.issue (key : Bytes) (perms : UInt8) (rp : Option Bytes) :
    Keeps (fidoBoard F) A J C (issueToken F key perms rp) := by
  apply keeps_bind (g.puatReset ht)
  intro _
  apply keeps_bind (g.perform (o := .random _) trivial)
  rintro (_ | token)
  · exact keeps_pure _
  · apply keeps_bind g.tick
    intro now
    apply keeps_bind (g.puatBegin ht _ _ _ _)
    intro _
    cases F.aesCbcEnc key token with
    | none => exact keeps_bind (g.puatReset ht) fun _ => keeps_pure _
    | some enc =>
        exact keeps_ite (keeps_bind (g.puatReset ht) fun _ => keeps_pure _) (keeps_pure _)

theorem Footing.checkToken (pu : PinUv) (clientHash : Bytes) (perm : UInt8) (rpHash : Bytes) :
    Keeps (fidoBoard F) A J C (checkToken pu clientHash perm rpHash) := by
  apply keeps_bind g.tick
  intro now
  apply keeps_bind (g.puatVerify ht _ _ _)
  intro ok
  apply keeps_get_bind
  intro u
  apply keeps_ite _ (keeps_pure _)
  apply keeps_bind (g.puatBindRp ht _)
  intro _
  exact keeps_bind (g.leave (ht.note _ rfl)) fun _ => keeps_pure _

theorem Footing.checkAcfgToken (c : CfgReq) (sub : ℕ) :
    Keeps (fidoBoard F) A J C (checkAcfgToken c sub) := by
  unfold Fido.checkAcfgToken
  cases c.auth with
  | none => exact keeps_pure _
  | some auth =>
      cases c.protocol with
      | none => exact keeps_pure _
      | some proto =>
          apply keeps_ite (keeps_pure _)
          apply keeps_ite (keeps_pure _)
          apply keeps_bind g.tick
          intro now
          apply keeps_bind (g.puatVerify ht _ _ _)
          intro ok
          apply keeps_get_bind
          intro u
          exact keeps_ite (keeps_pure _) (keeps_pure _)

theorem Footing.checkCmToken (q : CmReq) (sub : ℕ) :
    Keeps (fidoBoard F) A J C (checkCmToken q sub) := by
  unfold Fido.checkCmToken
  cases q.pinAuth with
  | none => exact keeps_pure _
  | some auth =>
      cases q.protocol with
      | none => exact keeps_pure _
      | some proto =>
          apply keeps_ite (keeps_pure _)
          apply keeps_ite (keeps_pure _)
          apply keeps_bind g.tick
          intro now
          apply keeps_bind (g.puatVerify ht _ _ _)
          intro ok
          apply keeps_get_bind
          intro u
          exact keeps_ite (keeps_pure _) (keeps_pure _)

theorem Footing.cmContinues : Keeps (fidoBoard F) A J C cmContinues := by
  apply keeps_bind g.tick
  intro now
  apply keeps_bind (g.puatInUse ht _)
  intro ok
  exact keeps_get_bind fun _ => keeps_pure _

end Tokens

end Footing

/-- The times that Reset looks at are noted in the scope. -/
structure Scope.Resets (X : Scope) : Prop where
  check : X.note .resetCheck
  touch : X.note .resetTouch

/-- `s_ga` is in the scope. -/
structure Scope.Assertions (X : Scope) : Prop where
  ram : ∀ u g, X.ram u { u with ga := g }
  stamp : X.note .gaStamp
  check : X.note .gaCheck
  next : X.note .gaNext

/-- The dispatcher may end an enumeration and an iteration. -/
structure Scope.Between (X : Scope) : Prop where
  iter : ∀ u i, X.ram u { u with iter := i }
  ga : ∀ u g, X.ram u { u with ga := g }

/-- All that the dispatcher does on top of the store is in the scope. -/
structure Scope.Served (X : Scope) : Prop where
  tokens : X.Tokens
  resets : X.Resets
  assertions : X.Assertions
  iter : ∀ u i, X.ram u { u with iter := i }
  powerUp : X.note .powerUp
  request : ∀ r, X.note (.request r)
  answer : ∀ r a, X.note (.answer r a)

theorem Scope.Served.between {X : Scope} (hs : X.Served) : X.Between := ⟨hs.iter, hs.assertions.ram⟩

/-- The command after which nothing is as it was. -/
def Command.isReset : Command → Bool
  | .reset => true
  | _ => false

section Amid

variable {F : FidoPrims} {A : BoardFate → Prop} {X : Scope}
  {J : FidoRam → Board Note → Prop} {C : Board Note → Prop} (a : Amid F A X J C)
include a

theorem Amid.getAssertion (cs : Commands F A J C) (ha : X.Assertions) (q : Except Status GaReq) :
    Keeps (fidoBoard F) A J C (ctap2GetAssertion F q) := by
  have hset : ∀ f, Keeps (fidoBoard F) A J C (setGa f) :=
    fun f => a.ground.vars fun u => ha.ram u (f u.ga)
  have finish : ∀ (q : GaReq) rpHash flags slots,
      Keeps (fidoBoard F) A J C (gaFinish F q rpHash flags slots) := by
    intro q rpHash flags slots
    apply keeps_bind (a.respond _ _ _ _ _)
    intro _
    apply keeps_ite _ (keeps_pure _)
    apply keeps_bind (hset _)
    intro _
    apply keeps_bind a.ground.tick
    intro now
    exact keeps_bind (hset _) fun _ => keeps_bind (a.ground.leave ha.stamp) fun _ => keeps_pure _
  intro u b h
  apply cs.swp_getAssertion
  · exact fun _ => hset _
  · exact fun _ _ _ h => h
  · exact fun q' flags slots u b _ _ _ h => finish q' _ flags slots u b h
  · exact a.ground.ram u _ b (ha.ram u _) h

theorem Amid.getNextAssertion (ha : X.Assertions) :
    Keeps (fidoBoard F) A J C (ctap2GetNextAssertion F) := by
  have hset : ∀ f, Keeps (fidoBoard F) A J C (setGa f) :=
    fun f => a.ground.vars fun u => ha.ram u (f u.ga)
  apply keeps_get_bind
  intro u
  apply keeps_ite (keeps_pure _)
  apply keeps_bind a.ground.tick
  intro now
  apply keeps_bind (a.ground.leave ha.check)
  intro _
  apply keeps_ite (keeps_bind (hset _) fun _ => keeps_pure _)
  apply keeps_bind (a.ground.leave ha.next)
  intro _
  apply keeps_bind (hset _)
  intro _
  apply keeps_bind a.ground.tick
  intro now
  apply keeps_bind (hset _)
  intro _
  exact keeps_bind (a.ground.leave ha.stamp) fun _ => a.respond _ _ _ _ _

/-- Every command, as far as what it works on is in the scope. -/
theorem Amid.serve (cs : Commands F A J C) {c : Command}
    (ha : c.isAssertion = true → X.Assertions)
    (hc : c.isCredentialMgmt = true → Frame F A J C)
    (hr : c.isReset = true → Keeps (fidoBoard F) A J C (ctap2Reset F)) :
    Keeps (fidoBoard F) A J C (serve F c) := by
  cases c with
  | empty => exact keeps_pure _
  | getInfo => exact cs.getInfo
  | makeCredential q => exact cs.makeCredential q
  | getAssertion q => exact a.getAssertion cs (ha rfl) q
  | getNextAssertion => exact a.getNextAssertion (ha rfl)
  | clientPin c => exact cs.pinHandleCbor c
  | reset => exact hr rfl
  | credentialMgmt q => exact (hc rfl).managing.credmgmtHandleCbor q
  | config q => exact cs.ctap2Config q
  | unknown => exact keeps_pure _

/-- A payload between its two notes. -/
theorem Amid.swp_dispatch {Q : Answer → FidoRam → Board Note → Prop} {r : Request} {u : FidoRam}
    {b : Board Note} (hs : X.Between) (hstatus : ∀ s u b, J u b → Q (.status s) u b)
    (hserve : ∀ u b, J u b → swp (fidoBoard F) A (Fido.serve F r.command) Q C u b) (h : J u b) :
    swp (fidoBoard F) A (dispatch F r) Q C u b := by
  have hiter : Keeps (fidoBoard F) A J C (endEnumeration r.command) :=
    keeps_ite (keeps_pure _) (a.ground.vars fun u => hs.iter u u.iter.reset)
  have hga : Keeps (fidoBoard F) A J C (endIteration r.command) :=
    keeps_ite (keeps_pure _) (a.ground.vars fun u => hs.ga u .zero)
  rw [Fido.dispatch]
  split
  · exact hstatus _ _ _ h
  rw [swp_bind]
  apply swp_mono (hiter u b h) _ fun _ h => h
  intro _ u₁ b₁ h₁
  rw [swp_bind]
  apply swp_mono (hga u₁ b₁ h₁) _ fun _ h => h
  intro _ u₂ b₂ h₂
  rw [serveChecked]
  split
  · exact hstatus _ _ _ h₂
  rw [swp_bind, swp_get]
  split
  · exact hstatus _ _ _ h₂
  · exact hserve _ _ h₂

theorem Amid.dispatch {r : Request} (hs : X.Between)
    (hserve : Keeps (fidoBoard F) A J C (Fido.serve F r.command)) :
    Keeps (fidoBoard F) A J C (dispatch F r) := by
  intro u b h
  exact a.swp_dispatch hs (fun _ _ _ h => h) hserve h

end Amid

section Around

variable {F : FidoPrims} {A : BoardFate → Prop} {X : Scope}
  {J : FidoRam → Board Note → Prop} {C : Board Note → Prop} (a : Around F A X J C)
include a

theorem Around.commands (ht : X.Tokens) : Commands F A J C where
  toShared := a.shared (a.ground.puatReset ht) (a.ground.issue ht) (a.ground.checkAcfgToken ht)
  checkToken := a.ground.checkToken ht
  ask prompt _ := a.ground.askTouch ht prompt
  spend := a.ground.spendTouch ht
  make := a.credstoreMake
  peek := a.credstoreSigncountPeek

/-- An invariant that notices neither the store nor the token. -/
theorem Around.framed (hiter : ∀ u i, X.ram u { u with iter := i }) (ht : X.Tokens) :
    Frame F A J C :=
  a.frame hiter (a.ground.puatReset ht) (a.ground.issue ht) (a.ground.checkCmToken ht)
    (a.ground.checkAcfgToken ht) (a.ground.cmContinues ht)

section Serve

variable (ht : X.Tokens)
include ht

theorem Around.ctap2Reset (hr : X.Resets) : Keeps (fidoBoard F) A J C (ctap2Reset F) := by
  apply keeps_bind a.ground.tick
  intro now
  apply keeps_bind (a.ground.leave hr.check)
  intro _
  apply keeps_ite (keeps_pure _)
  apply keeps_bind (a.ground.leave hr.touch)
  intro _
  apply keeps_bind (a.ground.touch _)
  intro up
  apply keeps_ite (keeps_pure _)
  apply keeps_bind a.credstoreFactoryReset
  intro ok
  exact keeps_bind (a.commands ht).pinResetRam fun _ => keeps_pure _

theorem Around.serve (hr : X.Resets) {c : Command} (ha : c.isAssertion = true → X.Assertions)
    (hc : c.isCredentialMgmt = true → ∀ u i, X.ram u { u with iter := i }) :
    Keeps (fidoBoard F) A J C (serve F c) :=
  a.toAmid.serve (a.commands ht) ha (fun h => a.framed (hc h) ht) fun _ => a.ctap2Reset ht hr

/-- What `main` does before the first request. -/
theorem Around.initialised : Keeps (fidoBoard F) A J C (do
    let _ ← Fido.credstoreInit F
    if ← pinInit F then do
      let _ ← pinIsSet F
      pure ()
    else pure () : FidoM Unit) := by
  have cs : Commands F A J C := a.commands ht
  apply keeps_bind cs.init
  intro _
  apply keeps_bind cs.pinInit
  intro ok
  exact keeps_ite (keeps_bind cs.pinIsSet fun _ => keeps_pure _) (keeps_pure _)

end Serve

section Served

variable (hs : X.Served)
include hs

/-- A whole payload. -/
theorem Around.fidoHidCborDispatch (r : Request) :
    Keeps (fidoBoard F) A J C (fidoHidCborDispatch F r) := by
  apply keeps_bind (a.ground.leave (hs.request r))
  intro _
  apply keeps_bind
  · apply a.dispatch hs.between
    exact a.serve hs.tokens hs.resets (fun _ => hs.assertions) fun _ => hs.iter
  · exact fun ans => keeps_bind (a.ground.leave (hs.answer r ans)) fun _ => keeps_pure _

theorem Around.bringUp : Keeps (fidoBoard F) A J C (bringUp F) :=
  keeps_bind (a.ground.leave hs.powerUp) fun _ => a.initialised hs.tokens

end Served

end Around

/-! ### The device -/

/-- `J` of a device that is on, `C` of one that is off. -/
def Device.Meets (J : FidoRam → Board Note → Prop) (C : Board Note → Prop) (d : Device) : Prop :=
  match d.ram with
  | some u => J u d.board
  | none => C d.board

/-- The calls of an action meet fates in `A`. -/
def Action.Within (A : BoardFate → Prop) : Action → Prop
  | .powerUp fs => ∀ f ∈ fs, A f
  | .request _ fs => ∀ f ∈ fs, A f

section Device

variable {F : FidoPrims} {A : BoardFate → Prop} {J : FidoRam → Board Note → Prop}
  {C : Board Note → Prop}

theorem meets_settle {α : Type} {o : Outcome (α × FidoRam) (Board Note)}
    (h : o.Satisfies (fun x b => J x.2 b) C) : (Device.settle o).Meets J C := by
  cases o with
  | done x b => exact h
  | cut b => exact h

/-- One action, given what bringing the device up and a payload do. -/
theorem meets_step (hquiet : A .quiet) (hoff : ∀ u b, J u b → C b)
    (hup : ∀ b, C b → swp (fidoBoard F) A (bringUp F) (fun _ => J) C .boot { b with now := 0 })
    {d : Device} (h : d.Meets J C) {a : Action} (ha : a.Within A)
    (hreq : ∀ r fs u, a = .request r fs → d.ram = some u → J u d.board →
      swp (fidoBoard F) A (fidoHidCborDispatch F r) (fun _ => J) C u d.board) :
    (Device.step F d a).Meets J C := by
  cases a with
  | powerUp fs =>
      have hC : C d.board := by
        rcases d with ⟨_ | u, b⟩
        · exact h
        · exact hoff u b h
      apply meets_settle
      exact run_of_swp hquiet (hup _ hC) ha
  | request r fs =>
      rcases d with ⟨_ | u, b⟩
      · exact h
      · apply meets_settle
        exact run_of_swp hquiet (hreq r fs u rfl rfl h) ha

/-- What every payload keeps, the device keeps. -/
theorem meets_run (hquiet : A .quiet) {b : Board Note} (hinit : C { b with notes := [] })
    (hoff : ∀ u b, J u b → C b)
    (hup : ∀ b, C b → swp (fidoBoard F) A (bringUp F) (fun _ => J) C .boot { b with now := 0 })
    (hreq : ∀ r, Keeps (fidoBoard F) A J C (fidoHidCborDispatch F r)) {acts : List Action}
    (hacts : ∀ a ∈ acts, a.Within A) : ((device F b).run acts).Meets J C := by
  apply System.run_keeps_of (C := fun _ a => a.Within A)
  · exact hinit
  · intro d a h ha
    exact meets_step hquiet hoff hup h ha fun r _ u _ _ h => hreq r u _ h
  · intro pre a hp
    apply hacts
    exact hp.subset (by simp)

end Device

end Nixtropic.Fido
