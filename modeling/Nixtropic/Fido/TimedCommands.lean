import Nixtropic.Fido.Commands
import Nixtropic.Fido.Timers

/-!
MakeCredential, the assertion commands and Reset keep what ties the variables
to the notes, and so does the dispatcher.
-/

namespace Nixtropic.Fido

open Crash

section Commands

variable {F : FidoPrims} {A : BoardFate → Prop}

theorem TimeInv.bindRp {u : FidoRam} {b : Board Note} (h : TimeInv u b) (rp : Bytes) :
    TimeInv (u.setToken (u.token.bound rp)) (b.jot (.puatBindRp rp)) := by
  refine ⟨h.token.bound rp, h.ga, ?_, fun hu => ⟨trivial, h.timely hu.2⟩⟩
  apply h.issued.cons fun l => { l with rp := some (l.rp.getD rp) }
  · rfl
  · rfl
  · exact fun _ => ⟨rfl, rfl⟩
  · exact fun _ hs => ⟨hs, rfl⟩
  · exact fun _ _ _ _ => rfl
  · intro l
    cases l.rp with
    | none => exact .inl rfl
    | some r => exact .inr rfl
  · exact fun _ _ _ hr => by cases hr

/-- The touch of a prompt that spends nothing. -/
theorem timeInv_ask (prompt : Prompt) (hp : prompt ≠ .use) :
    Keeps (fidoBoard F) A TimeInv OffInv (askTouch prompt) := by
  intro u b h
  rw [askTouch, swp_bind]
  apply swp_mono (timeInv_ground.touch _ u b h) _ fun _ h => h
  intro up u₁ b₁ h₁
  rw [swp_bind]
  apply swp_leave
  exact ⟨h₁.token, h₁.ga, h₁.issued.asked rfl (.inl hp), fun hu => ⟨trivial, h₁.timely hu.2⟩⟩

/-- The token is spent in the same step that notes the touch. -/
theorem timeInv_spend : Keeps (fidoBoard F) A TimeInv OffInv spendTouch := by
  intro u b h
  rw [spendTouch, swp_bind, waitTouch, swp_bind, askTouch, swp_bind]
  apply swp_mono (timeInv_ground.touch _ u b h) _ fun _ h => h
  intro up u₁ b₁ h₁
  rw [swp_bind]
  apply swp_leave
  rw [swp_pure, swp_pure]
  split
  · rename_i hno
    have hup : up ≠ .ok := fun hup => hno (by rw [hup]; rfl)
    exact ⟨h₁.token, h₁.ga, h₁.issued.asked rfl (.inr hup), fun hu => ⟨trivial, h₁.timely hu.2⟩⟩
  · rw [swp_bind]
    apply swp_puatConsume
    exact ⟨h₁.token.consumed, h₁.ga, h₁.issued.spend rfl rfl,
      fun hu => ⟨trivial, trivial, h₁.timely hu.2.2⟩⟩

/-- A token is accepted for the RP that it is bound to. -/
theorem TimeInv.accepted {u : FidoRam} {b : Board Note} (h : TimeInv u b) {rp : Bytes}
    (hmatch : u.token.rpMatches rp = true) (hbound : u.token.hasRp = true)
    (perm : UInt8) (param clientHash : Bytes) :
    TimeInv u (b.jot (.tokenAccepted perm rp param clientHash)) := by
  refine ⟨h.token, h.ga, ?_, fun hu => ⟨trivial, h.timely hu.2⟩⟩
  apply h.issued.cons id
  · rw [Option.map_id]
    rfl
  · rfl
  · exact fun _ => ⟨rfl, rfl⟩
  · exact fun _ hs => ⟨hs, rfl⟩
  · exact fun _ _ _ _ => rfl
  · exact fun _ => .inr rfl
  · rintro l r hl ⟨⟩
    have ht := h.token
    rw [hl] at ht
    obtain ⟨-, -, -, -, -, hhas, hrp, -, -⟩ := ht
    rw [hbound] at hhas
    obtain ⟨r, hr⟩ := Option.isSome_iff_exists.mp hhas.symm
    rw [hr] at hrp
    have heq : u.token.rpHash = rp := by simpa [Token.rpMatches, hbound] using hmatch
    change l.rp = some rp
    rw [hr, ← heq, hrp]
    rfl

theorem bound_hasRp {t : Token} {rp : Bytes} (hin : t.inUse = true) (hm : t.rpMatches rp = true) :
    (t.bound rp).hasRp = true ∧ (t.bound rp).rpMatches rp = true := by
  rw [Token.bound]
  cases hh : t.hasRp with
  | true => simp [hh, hm]
  | false => simp [hin, Token.rpMatches]

theorem timeInv_checkToken (pu : PinUv) (clientHash : Bytes) (perm : UInt8) (rpHash : Bytes) :
    Keeps (fidoBoard F) A TimeInv OffInv (checkToken pu clientHash perm rpHash) := by
  apply timeInv_tickVerify
  intro ok u b h
  rw [swp_bind, swp_get]
  dsimp only
  split
  · rename_i hok
    simp only [Bool.and_eq_true] at hok
    obtain ⟨⟨⟨-, huv⟩, -⟩, hm⟩ := hok
    have hin : u.token.inUse = true := by
      rw [Token.userVerified, Bool.and_eq_true] at huv
      exact huv.1
    obtain ⟨hhas, hmatch⟩ := bound_hasRp hin hm
    rw [swp_bind]
    apply swp_puatBindRp
    rw [swp_bind]
    apply swp_leave
    exact (h.bindRp rpHash).accepted hmatch hhas perm _ clientHash
  · exact h

theorem timeInv_commands : Commands F A TimeInv OffInv where
  toShared := timeInv_shared
  checkToken := timeInv_checkToken
  ask := timeInv_ask
  spend := timeInv_spend
  make := timeInv_around.credstoreMake
  peek := timeInv_around.credstoreSigncountPeek

/-! ### GetAssertion -/

/-- The variables with another iteration. -/
def FidoRam.setGa (u : FidoRam) (g : GaState) : FidoRam := { u with ga := g }

@[simp] theorem setGa_token (u : FidoRam) (g : GaState) : (u.setGa g).token = u.token := rfl
@[simp] theorem setGa_ga (u : FidoRam) (g : GaState) : (u.setGa g).ga = g := rfl

theorem swp_setGa {f : GaState → GaState} {u : FidoRam} {b : Board Note}
    {Q : PUnit → FidoRam → Board Note → Prop} {C : Board Note → Prop}
    (h : Q ⟨⟩ (u.setGa (f u.ga)) b) : swp (fidoBoard F) A (setGa f) Q C u b := h

theorem timeInv_setGa {f : GaState → GaState}
    (hf : ∀ g, (f g).active = true → g.active = true ∧ (f g).lastMs = g.lastMs) :
    Keeps (fidoBoard F) A TimeInv OffInv (setGa f) := by
  apply keeps_modify
  intro u b h
  refine ⟨h.token, ?_, h.issued, h.timely⟩
  intro ha
  obtain ⟨hold, hms⟩ := hf u.ga ha
  obtain ⟨t, h₁, h₂, h₃⟩ := h.ga hold
  exact ⟨t, h₁, hms.trans h₂, h₃⟩

theorem timeInv_assertionReset : Keeps (fidoBoard F) A TimeInv OffInv ctap2AssertionReset :=
  timeInv_setGa fun _ h => by cases h

/-- The tick is read, stored and noted. -/
theorem swp_stamp {α : Type} {k : FidoM α} {u : FidoRam} {b : Board Note}
    {Q : α → FidoRam → Board Note → Prop} {C : Board Note → Prop}
    (h : ∀ d, swp (fidoBoard F) A k Q C
      (u.setGa { u.ga with lastMs := (b.now + d) % 2 ^ 32 }) ((b.wait d).jot .gaStamp)) :
    swp (fidoBoard F) A (do
      let now ← halGetTick
      setGa fun g => { g with lastMs := now }
      leave .gaStamp
      k) Q C u b := by
  rw [swp_bind]
  apply swp_halGetTick
  intro d
  rw [swp_bind]
  apply swp_setGa
  rw [swp_bind]
  exact swp_leave (h d)

/-- A stamp makes good whatever the iteration was. -/
theorem timeInv_stamp {u : FidoRam} {b : Board Note} {d : ℕ} {g : GaState}
    (htoken : Tracks u.token b.now (liveOf b.notes)) (hissued : Issued b.notes)
    (htimely : Unwrapped b.notes → Timely b.notes) (hg : g.lastMs = (b.now + d) % 2 ^ 32) :
    TimeInv (u.setGa g) ((b.wait d).jot .gaStamp) := by
  constructor
  · exact htoken.wait d
  · exact fun _ => ⟨b.now + d, rfl, hg, Nat.le_refl _⟩
  · exact hissued.silent rfl rfl rfl rfl rfl
  · exact fun hu => ⟨trivial, htimely hu.2⟩

theorem timeInv_gaFinish (q : GaReq) (rpHash : Bytes) (flags : UInt8) (slots : List ℕ) :
    Keeps (fidoBoard F) A TimeInv OffInv (gaFinish F q rpHash flags slots) := by
  apply keeps_bind (timeInv_around.respond _ _ _ _ _)
  intro a
  apply keeps_ite _ (keeps_pure _)
  intro u b h
  rw [swp_bind]
  apply swp_setGa
  apply swp_stamp
  intro d
  rw [swp_pure]
  apply timeInv_stamp
  · exact h.token
  · exact h.issued
  · exact h.timely
  · rfl

theorem timeInv_getAssertion (q : Except Status GaReq) :
    Keeps (fidoBoard F) A TimeInv OffInv (ctap2GetAssertion F q) := by
  intro u b h
  apply timeInv_commands.swp_getAssertion
  · exact fun _ => timeInv_setGa fun _ h => ⟨h, rfl⟩
  · exact fun _ _ _ h => h
  · exact fun q' flags slots u b _ _ _ h => timeInv_gaFinish q' _ flags slots u b h
  · exact timeInv_assertionReset (F := F) (A := A) u b h

/-! ### GetNextAssertion -/

/-- GetNextAssertion has gone on since the request came. -/
theorem wentOn_ground :
    Ground timeScope (fun _ b => wentOn b.notes = true) (fun b => wentOn b.notes = true) where
  cut _ _ h := h
  chip _ _ _ _ h := h
  ecc _ _ _ _ _ h := h
  keygen _ _ _ _ _ h := h
  counter _ _ _ h := h
  wait _ _ _ h := h
  note u b n hn h := by
    have hn : n.quiet = true := hn
    cases n <;> first | exact h | simp [Note.quiet] at hn
  ram _ _ _ _ h := h

theorem code_notAllowed : (Answer.status .notAllowed).code ≠ Status.ok.code := by decide

theorem code_invalidLength : (Answer.status .invalidLength).code ≠ Status.ok.code := by decide

theorem code_invalidCbor : (Answer.status .invalidCbor).code ≠ Status.ok.code := by decide

theorem timeInv_getNextAssertion {u : FidoRam} {b : Board Note} (h : TimeInv u b) :
    swp (fidoBoard F) A (ctap2GetNextAssertion F)
      (fun a u' b' => TimeInv u' b' ∧ (a.code = Status.ok.code → wentOn b'.notes = true))
      OffInv u b := by
  rw [ctap2GetNextAssertion, swp_bind, swp_get]
  dsimp only
  split
  · exact ⟨h, fun hc => absurd hc code_notAllowed⟩
  rename_i hgo
  have hactive : u.ga.active = true := by
    cases ha : u.ga.active with
    | true => rfl
    | false => exact absurd (.inl ha) hgo
  rw [swp_bind]
  apply swp_halGetTick
  intro d
  have hd : TimeInv u (b.wait d) := timeInv_ground.wait u b d h
  have hcheck : TimeInv u ((b.wait d).jot .gaCheck) := hd.plain rfl
  obtain ⟨t, hstamp, hms, hle⟩ := hcheck.ga hactive
  rw [swp_bind]
  apply swp_leave
  split
  · rw [swp_bind]
    apply swp_mono (timeInv_assertionReset u _ hcheck) _ fun _ h => h
    exact fun _ _ _ h => ⟨h, fun hc => absurd hc code_notAllowed⟩
  rename_i hyoung
  rw [hms] at hyoung
  have hdiff : tickDiff ((b.now + d) % 2 ^ 32) (t % 2 ^ 32) = (b.now + d - t) % 2 ^ 32 :=
    tickDiff_mod hle
  rw [hdiff] at hyoung
  rw [swp_bind]
  apply swp_leave
  rw [swp_bind]
  apply swp_setGa
  apply swp_stamp
  intro d'
  have hnext : Unwrapped (((b.wait d).jot .gaCheck).jot .gaNext).notes →
      Timely (((b.wait d).jot .gaCheck).jot .gaNext).notes := by
    intro hu
    refine ⟨⟨t, hstamp, ?_⟩, hcheck.timely hu.2⟩
    apply Nat.le_of_not_lt
    intro hover
    exact hu.2.1 t hstamp ⟨hover, Nat.le_of_not_lt hyoung⟩
  apply swp_mono (((timeInv_ground.and wentOn_ground).around
    (timeScope_whole.toBase.inter timeScope_whole.toBase)).respond _ _ _ _ _ _ _ ⟨?_, rfl⟩)
  · exact fun _ _ _ h => ⟨h.1, fun _ => h.2⟩
  · exact fun _ h => h.1
  · apply timeInv_stamp (b := ((b.wait d).jot .gaCheck).jot .gaNext)
    · exact hcheck.token
    · exact hcheck.issued.silent rfl rfl rfl rfl rfl
    · exact hnext
    · rfl

/-! ### Reset and the dispatcher -/

theorem timeInv_reset : Keeps (fidoBoard F) A TimeInv OffInv (ctap2Reset F) := by
  intro u b h
  rw [ctap2Reset, swp_bind]
  apply swp_halGetTick
  intro d
  have hd : TimeInv u (b.wait d) := timeInv_ground.wait u b d h
  rw [swp_bind]
  apply swp_leave
  have hcheck : TimeInv u ((b.wait d).jot .resetCheck) := hd.plain rfl
  split
  · exact hcheck
  rename_i hsoon
  rw [swp_bind]
  apply swp_leave
  have htouch : TimeInv u (((b.wait d).jot .resetCheck).jot .resetTouch) := by
    refine ⟨hcheck.token, hcheck.ga, hcheck.issued.silent rfl rfl rfl rfl rfl,
      fun hu => ⟨?_, hcheck.timely hu.2⟩⟩
    apply Nat.le_of_not_lt
    intro hover
    exact hu.2.1 ⟨hover, Nat.le_of_not_lt hsoon⟩
  revert htouch
  generalize ((b.wait d).jot Note.resetCheck).jot Note.resetTouch = b'
  intro htouch
  have rest : Keeps (fidoBoard F) A TimeInv OffInv (do
      let up ← userPresenceCheck 10000
      if up ≠ .ok then pure (.status (touchStatus up))
      else do
        let ok ← credstoreFactoryReset F
        pinResetRam F
        pure (.status (if ok then .ok else .other)) : FidoM Answer) := by
    apply keeps_bind (timeInv_ground.touch _)
    intro up
    apply keeps_ite (keeps_pure _)
    exact keeps_bind timeInv_around.credstoreFactoryReset fun _ =>
      keeps_bind timeInv_frame.pinResetRam fun _ => keeps_pure _
  exact rest u b' htouch

theorem timeInv_serve {c : Command} (hc : c ≠ .getNextAssertion) :
    Keeps (fidoBoard F) A TimeInv OffInv (serve F c) := by
  cases c with
  | empty => exact keeps_pure _
  | getInfo => exact timeInv_frame.getInfo
  | makeCredential q => exact timeInv_commands.makeCredential q
  | getAssertion q => exact timeInv_getAssertion q
  | getNextAssertion => exact (hc rfl).elim
  | clientPin c => exact timeInv_frame.pinHandleCbor c
  | reset => exact timeInv_reset
  | credentialMgmt q => exact timeInv_frame.managing.credmgmtHandleCbor q
  | config q => exact timeInv_frame.ctap2Config q
  | unknown => exact keeps_pure _

theorem timeInv_endEnumeration (c : Command) :
    Keeps (fidoBoard F) A TimeInv OffInv (endEnumeration c) :=
  keeps_ite (keeps_pure _) timeInv_frame.managing.credmgmtResetIterator

theorem timeInv_endIteration (c : Command) :
    Keeps (fidoBoard F) A TimeInv OffInv (endIteration c) :=
  keeps_ite (keeps_pure _) timeInv_assertionReset

theorem timeInv_serveChecked {u : FidoRam} {b : Board Note} (h : TimeInv u b) (r : Request) :
    swp (fidoBoard F) A (serveChecked F r)
      (fun a u' b' => TimeInv u' b' ∧
        (r.isGetNext = true → a.code = Status.ok.code → wentOn b'.notes = true)) OffInv u b := by
  rw [serveChecked]
  split
  · exact ⟨h, fun _ hc => absurd hc code_invalidCbor⟩
  rw [swp_bind, swp_get]
  split
  · exact ⟨h, fun _ hc => absurd hc code_notAllowed⟩
  by_cases hc : r.command = .getNextAssertion
  · rw [hc]
    exact swp_mono (timeInv_getNextAssertion h) (fun _ _ _ h => ⟨h.1, fun _ => h.2⟩) fun _ h => h
  · apply swp_mono (timeInv_serve hc u b h) _ fun _ h => h
    intro a u' b' h'
    refine ⟨h', fun hr => ?_⟩
    rw [Request.isGetNext] at hr
    split at hr
    · exact absurd ‹r.command = .getNextAssertion› hc
    · cases hr

/-- A request and its answer. -/
theorem timeInv_dispatch {u : FidoRam} {b : Board Note} (h : TimeInv u b) (r : Request) :
    swp (fidoBoard F) A (dispatch F r)
      (fun a u' b' => TimeInv u' b' ∧
        (r.isGetNext = true → a.code = Status.ok.code → wentOn b'.notes = true)) OffInv u b := by
  rw [dispatch]
  split
  · rename_i hempty
    refine ⟨h, fun hr => ?_⟩
    rcases r with ⟨c, valid⟩
    cases c <;> simp [Command.isEmpty, Request.isGetNext] at hempty hr
  rw [swp_bind]
  apply swp_mono (timeInv_endEnumeration r.command u b h) _ fun _ h => h
  intro _ u' b' h'
  rw [swp_bind]
  apply swp_mono (timeInv_endIteration r.command u' b' h') _ fun _ h => h
  exact fun _ _ _ h => timeInv_serveChecked h r

theorem timeInv_fidoHidCborDispatch (r : Request) :
    Keeps (fidoBoard F) A TimeInv OffInv (fidoHidCborDispatch F r) := by
  intro u b h
  rw [fidoHidCborDispatch, swp_bind]
  apply swp_leave
  rw [swp_bind]
  apply swp_mono (timeInv_dispatch (h.plain rfl) r) _ fun _ h => h
  intro a u' b' h'
  rw [swp_bind]
  apply swp_leave
  exact ⟨h'.1.token, h'.1.ga, h'.1.issued.silent rfl rfl rfl rfl rfl,
    fun hu => ⟨h'.2, h'.1.timely hu.2⟩⟩

/-- Power-up forgets the token, the iteration and the time. -/
theorem timeInv_bringUp {b : Board Note} (h : OffInv b) :
    swp (fidoBoard F) A (bringUp F) (fun _ u' b' => TimeInv u' b') OffInv .boot b := by
  rw [bringUp, swp_bind]
  apply swp_leave
  have hboot : TimeInv .boot (b.jot .powerUp) :=
    ⟨⟨rfl, rfl⟩, fun ha => by simp [FidoRam.boot, GaState.zero] at ha, issued_none rfl,
      fun hu => ⟨trivial, h hu.2⟩⟩
  have rest : Keeps (fidoBoard F) A TimeInv OffInv (do
      let _ ← credstoreInit F
      if ← pinInit F then do
        let _ ← pinIsSet F
        pure ()
      else pure () : FidoM Unit) := by
    apply keeps_bind timeInv_around.init
    intro _
    apply keeps_bind timeInv_frame.pinInit
    intro ok
    exact keeps_ite (keeps_bind timeInv_frame.pinIsSet fun _ => keeps_pure _) (keeps_pure _)
  exact rest _ _ hboot

end Commands

end Nixtropic.Fido
