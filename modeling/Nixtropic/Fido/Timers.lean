import Nixtropic.Fido.Live

/-!
What the functions of `pin_token.c` and the commands do to the notes.

`TimeInv` ties the variables to the notes and says that no limit is overrun,
unless some timer was looked at after it had run out unnoticed. Every command
keeps it.
-/

namespace Nixtropic.Fido

open Crash

structure TimeInv (u : FidoRam) (b : Board Note) : Prop where
  token : Tracks u.token b.now (liveOf b.notes)
  ga : GaTracks u.ga b.now (stampOf b.notes)
  issued : Issued b.notes
  timely : Unwrapped b.notes → Timely b.notes

/-- What is left of it when the power is gone. -/
def OffInv (b : Board Note) : Prop := Unwrapped b.notes → Timely b.notes

/-- The token is young enough for its next use. -/
def InTime (b : Board Note) : Prop :=
  Unwrapped b.notes → ∀ l, liveOf b.notes = some l → b.now - l.issued ≤ l.limit

section Rules

variable {F : FidoPrims} {A : BoardFate → Prop} {u : FidoRam} {b : Board Note}
  {C : Board Note → Prop}

/-- The variables with another token. -/
def FidoRam.setToken (u : FidoRam) (t : Token) : FidoRam := { u with token := t }

@[simp] theorem setToken_token (t : Token) : (u.setToken t).token = t := rfl
@[simp] theorem setToken_ga (t : Token) : (u.setToken t).ga = u.ga := rfl

theorem swp_tropicRandom {len : ℕ} {Q : Reply Bytes → FidoRam → Board Note → Prop}
    (h : ∀ r w, Q r u (b.setChip w)) (hcut : ∀ w, C (b.setChip w)) :
    swp (fidoBoard F) A (onChip (tropicRandom len)) Q C u b := by
  apply swp_onChip
  apply swp_random
  · exact h _ _
  · exact fun _ _ => h _ _
  · exact fun _ _ => hcut _

theorem swp_setToken {f : Token → Token} {Q : PUnit → FidoRam → Board Note → Prop}
    (h : Q ⟨⟩ (u.setToken (f u.token)) b) :
    swp (fidoBoard F) A (setToken f) Q C u b := h

theorem swp_puatReset {Q : Unit → FidoRam → Board Note → Prop}
    (h : Q () (u.setToken u.token.cleared) (b.jot .puatReset)) :
    swp (fidoBoard F) A puatReset Q C u b := by
  rw [puatReset, swp_bind]
  exact swp_leave (swp_setToken h)

theorem swp_puatBegin {token : Bytes} {perms : UInt8} {rp : Option Bytes} {now : ℕ}
    {Q : Unit → FidoRam → Board Note → Prop}
    (h : Q () (u.setToken (u.token.begun token perms rp now)) (b.jot (.puatBegin token perms rp))) :
    swp (fidoBoard F) A (puatBegin token perms rp now) Q C u b := by
  rw [puatBegin, swp_bind]
  exact swp_leave (swp_setToken h)

theorem swp_puatBindRp {rp : Bytes} {Q : Unit → FidoRam → Board Note → Prop}
    (h : Q () (u.setToken (u.token.bound rp)) (b.jot (.puatBindRp rp))) :
    swp (fidoBoard F) A (puatBindRp rp) Q C u b := by
  rw [puatBindRp, swp_bind]
  exact swp_leave (swp_setToken h)

theorem swp_puatConsume {Q : Unit → FidoRam → Board Note → Prop}
    (h : Q () (u.setToken u.token.consumed) (b.jot .puatConsume)) :
    swp (fidoBoard F) A puatConsume Q C u b := by
  rw [puatConsume, swp_bind]
  exact swp_leave (swp_setToken h)

theorem swp_expire {now : ℕ} {Q : Unit → FidoRam → Board Note → Prop}
    (hyes : u.token.expired now = true →
      Q () (u.setToken u.token.cleared) ((b.jot .puatExpire).jot .puatReset))
    (hno : u.token.expired now = false → Q () u (b.jot .puatExpire)) :
    swp (fidoBoard F) A (expire now) Q C u b := by
  rw [expire, swp_bind]
  apply swp_leave
  rw [swp_bind, swp_get]
  cases he : u.token.expired now with
  | true => exact swp_puatReset (hyes he)
  | false => exact hno he

/-- The end of `puat_verify`. -/
theorem swp_verified {param : Option Bytes} {msg : Bytes} {ok : Bool}
    {Q : Bool → FidoRam → Board Note → Prop}
    (h : Q ok (if ok then u.setToken { u.token with used := true } else u)
      (b.jot (.puatVerify param msg ok))) :
    swp (fidoBoard F) A (do
      leave (.puatVerify param msg ok)
      if ok then setToken fun t => { t with used := true } else pure ()
      pure ok : FidoM Bool) Q C u b := by
  rw [swp_bind]
  apply swp_leave
  cases ok with
  | true => exact h
  | false => exact h

/-- The mac that `puat_verify` compares with. -/
def tokenMac (F : FidoPrims) (token msg : Bytes) : Bytes :=
  (F.chip.hmac token msg).take puatParamLen

theorem tokenMac_length (F : FidoPrims) (token msg : Bytes) :
    (tokenMac F token msg).length = puatParamLen := by
  simp [tokenMac, F.chip.hmac_length, puatParamLen]

theorem swp_puatVerify {param : Option Bytes} {msg : Bytes} {now : ℕ}
    {Q : Bool → FidoRam → Board Note → Prop}
    (hexpired : u.token.expired now = true → Q false (u.setToken u.token.cleared)
      (((b.jot .puatExpire).jot .puatReset).jot (.puatVerify param msg false)))
    (hbad : u.token.expired now = false →
      (u.token.inUse = true → param ≠ some (tokenMac F u.token.token msg)) → ∀ w, Q false u
        (((b.jot .puatExpire).setChip w).jot (.puatVerify param msg false)))
    (hok : u.token.expired now = false → u.token.inUse = true →
      param = some (tokenMac F u.token.token msg) → ∀ w,
      Q true (u.setToken { u.token with used := true })
        (((b.jot .puatExpire).setChip w).jot (.puatVerify param msg true))) :
    swp (fidoBoard F) A (puatVerify param msg now) Q C u b := by
  rw [puatVerify, swp_bind]
  apply swp_expire
  · intro he
    rw [swp_bind, puatCheck, swp_bind, swp_get]
    cases param with
    | none => exact swp_verified (hexpired he)
    | some p =>
        dsimp only
        rw [if_pos (.inl rfl)]
        exact swp_verified (hexpired he)
  · intro he
    rw [swp_bind, puatCheck, swp_bind, swp_get]
    have hsame : (b.jot Note.puatExpire).setChip (b.jot Note.puatExpire).chip =
        b.jot Note.puatExpire := rfl
    cases param with
    | none => exact swp_verified (hsame ▸ hbad he (fun _ h => by cases h) _)
    | some p =>
        dsimp only
        by_cases hc : u.token.inUse = false ∨ p.length ≠ puatParamLen
        · rw [if_pos hc]
          refine swp_verified (hsame ▸ hbad he (fun hin hp => ?_) _)
          rcases hc with hoff | hlen
          · simp [hoff] at hin
          · rw [Option.some.inj hp, tokenMac_length] at hlen
            exact hlen rfl
        · rw [if_neg hc, swp_bind]
          apply swp_onChip
          apply swp_hmac
          simp only [swp_pure]
          by_cases hp : (F.chip.hmac u.token.token msg).take puatParamLen = p
          · rw [decide_eq_true hp]
            apply swp_verified
            have hin : u.token.inUse = true := by
              cases hin : u.token.inUse with
              | true => rfl
              | false => exact absurd (.inl hin) hc
            exact hok he hin (congrArg some hp.symm) _
          · rw [decide_eq_false hp]
            exact swp_verified (hbad he (fun _ h => hp (Option.some.inj h).symm) _)

theorem swp_puatInUse {now : ℕ} {Q : Bool → FidoRam → Board Note → Prop}
    (hexpired : u.token.expired now = true → Q false (u.setToken u.token.cleared)
      (((b.jot .puatExpire).jot .puatReset).jot (.puatInUse false)))
    (hlives : u.token.expired now = false →
      Q u.token.inUse u ((b.jot .puatExpire).jot (.puatInUse u.token.inUse))) :
    swp (fidoBoard F) A (puatInUse now) Q C u b := by
  rw [puatInUse, swp_bind]
  apply swp_expire
  · intro he
    rw [swp_bind, swp_get, swp_bind]
    exact swp_leave (hexpired he)
  · intro he
    rw [swp_bind, swp_get, swp_bind]
    exact swp_leave (hlives he)

end Rules

/-! ### One note more -/

section Notes

variable {u : FidoRam} {b : Board Note} {n : Note}

@[simp] theorem liveOf_jot : liveOf (b.jot n).notes =
    Live.after ⟨n, b.now, b.chip.rmem, b.ecc⟩ (liveOf b.notes) := rfl

/-- A note that says nothing of the token or of the iteration. -/
def Note.plain : Note → Bool
  | .request _ => true
  | .puatExpire => true
  | .gaCheck => true
  | .resetCheck => true
  | n => n.quiet

theorem live_plain {e : Entry Note} (h : e.note.plain = true) (l : Option Live) :
    Live.after e l = l := by
  rcases e with ⟨n, t, r, k⟩
  cases n <;> first | rfl | simp [Note.plain, Note.quiet] at h

theorem stampOf_plain {e : Entry Note} {es : History} (h : e.note.plain = true) :
    stampOf (e :: es) = stampOf es := by
  rcases e with ⟨n, t, r, k⟩
  cases n <;> first | rfl | simp [Note.plain, Note.quiet] at h

theorem issued_plain {e : Entry Note} {es : History} (h : Issued es) (hn : e.note.plain = true) :
    Issued (e :: es) := by
  have hkind : e.note.endsToken = false ∧ e.note.spends = false ∧ e.note.givesTouch = false ∧
      e.note.acceptedRp = none := by
    rcases e with ⟨n, t, r, k⟩
    cases n <;> first | exact ⟨rfl, rfl, rfl, rfl⟩ | simp [Note.plain, Note.quiet] at hn
  exact h.silent (live_plain hn _) hkind.1 hkind.2.1 hkind.2.2.1 hkind.2.2.2

theorem timely_plain {time : ℕ} {es : History} (h : n.plain = true) : n.Timely time es := by
  cases n <;> trivial

theorem TimeInv.plain (h : TimeInv u b) (hn : n.plain = true) : TimeInv u (b.jot n) := by
  constructor
  · rw [liveOf_jot, live_plain (e := ⟨n, _, _, _⟩) hn]
    exact h.token
  · change GaTracks u.ga b.now (stampOf (_ :: b.notes))
    rw [stampOf_plain (e := ⟨n, _, _, _⟩) hn]
    exact h.ga
  · exact issued_plain h.issued hn
  · intro hu
    exact ⟨timely_plain hn, h.timely hu.2⟩

/-- The token and the assertion state do not notice the store. -/
def timeScope : Scope where
  rmem _ := True
  ecc _ := True
  ram u u' := u'.token = u.token ∧ u'.ga = u.ga
  note n := n.quiet = true

theorem timeScope_whole : timeScope.Whole where
  o1 := ⟨fun _ _ => trivial, fun _ _ => ⟨rfl, rfl⟩⟩
  o2 := ⟨fun _ _ => trivial, fun _ _ => ⟨rfl, rfl⟩⟩
  creds := ⟨fun _ _ => trivial, fun _ _ => trivial⟩
  storeInitted _ _ := ⟨rfl, rfl⟩
  mutating _ _ := ⟨rfl, rfl⟩
  pin _ _ := ⟨rfl, rfl⟩
  iter _ _ := ⟨rfl, rfl⟩
  note _ h := h

theorem timeInv_ground : Ground timeScope TimeInv OffInv where
  cut _ _ h := h.timely
  chip _ _ _ _ h := ⟨h.token, h.ga, h.issued, h.timely⟩
  ecc _ _ _ _ _ h := ⟨h.token, h.ga, h.issued, h.timely⟩
  keygen _ _ _ _ _ h := ⟨h.token, h.ga, h.issued, h.timely⟩
  counter _ _ _ h := ⟨h.token, h.ga, h.issued, h.timely⟩
  wait _ _ d h := ⟨h.token.wait d, h.ga.wait d, h.issued, h.timely⟩
  note u b n hn h := h.plain (by
    have hn : n.quiet = true := hn
    cases n <;> first | rfl | simp [Note.quiet] at hn)
  ram u u' b hu h := ⟨hu.1 ▸ h.token, hu.2 ▸ h.ga, h.issued, h.timely⟩

theorem TimeInv.reset (h : TimeInv u b) :
    TimeInv (u.setToken u.token.cleared) (b.jot .puatReset) :=
  ⟨tracks_cleared _ _, h.ga, issued_none rfl, fun hu => ⟨trivial, h.timely hu.2⟩⟩

/-- The token does not expire: then it is in time, or the clock missed it. -/
theorem inTime_of_lives (h : TimeInv u b) (he : u.token.expired (b.now % 2 ^ 32) = false) :
    InTime (b.jot .puatExpire) := by
  intro hu l hl
  have hl : liveOf b.notes = some l := hl
  have ht := h.token
  rw [hl] at ht
  have hlimit : ¬l.limit < (b.now - l.issued) % 2 ^ 32 := by
    rw [← expired_iff ht, he]
    exact Bool.false_ne_true
  have hmiss := hu.1 l hl
  by_contra hover
  exact hmiss ⟨Nat.lt_of_not_le hover, Nat.le_of_not_lt hlimit⟩

theorem issued_verify {es : History} (h : Issued es) {param : Option Bytes} {msg : Bytes}
    {ok : Bool}
    {time : ℕ} {rmem : ℕ → RSlot} {ecc : ℕ → Option EccKey} :
    Issued (⟨.puatVerify param msg ok, time, rmem, ecc⟩ :: es) := by
  apply h.cons fun l => if ok then { l with used := true } else l
  · change Live.after _ _ = _
    cases ok with
    | true => rfl
    | false =>
        change liveOf es = (liveOf es).map _
        cases liveOf es <;> rfl
  · rfl
  · intro l
    cases ok <;> exact ⟨rfl, rfl⟩
  · intro l hs
    refine ⟨?_, rfl⟩
    cases ok <;> exact hs
  · exact fun _ _ _ _ => rfl
  · intro l
    cases ok <;> exact .inr rfl
  · exact fun _ _ _ hr => by cases hr

theorem TimeInv.verifyFailed (h : TimeInv u b) (param : Option Bytes) (msg : Bytes) :
    TimeInv u (b.jot (.puatVerify param msg false)) :=
  ⟨h.token, h.ga, issued_verify h.issued, fun hu => ⟨trivial, h.timely hu.2⟩⟩

theorem TimeInv.verifyOk (h : TimeInv u b) (ht : InTime b) (hin : u.token.inUse = true)
    (param : Option Bytes) (msg : Bytes) :
    TimeInv (u.setToken { u.token with used := true }) (b.jot (.puatVerify param msg true)) := by
  constructor
  · exact h.token.used
  · exact h.ga
  · exact issued_verify h.issued
  · intro hu
    have hlive := h.token
    cases hl : liveOf b.notes with
    | none =>
        rw [hl] at hlive
        simp [hlive.1] at hin
    | some l => exact ⟨⟨l, hl, ht hu.2 l hl⟩, h.timely hu.2⟩

theorem TimeInv.inUse (h : TimeInv u b) (ht : InTime b) :
    TimeInv u (b.jot (.puatInUse u.token.inUse)) := by
  constructor
  · exact h.token
  · exact h.ga
  · exact h.issued.silent rfl rfl rfl rfl rfl
  · intro hu
    have hlive := h.token
    cases hl : liveOf b.notes with
    | none =>
        rw [hl] at hlive
        rw [hlive.1]
        exact ⟨trivial, h.timely hu.2⟩
    | some l =>
        rw [hl] at hlive
        rw [hlive.1]
        exact ⟨⟨l, hl, ht hu.2 l hl⟩, h.timely hu.2⟩

end Notes

/-! ### The functions that use the token -/

section Handlers

variable {F : FidoPrims} {A : BoardFate → Prop} {u : FidoRam} {b : Board Note}

theorem InTime.setChip (h : InTime b) (w : World) : InTime (b.setChip w) := h

theorem TimeInv.setChip (h : TimeInv u b) (w : World) : TimeInv u (b.setChip w) :=
  timeInv_ground.chip u b w (fun _ hs => absurd trivial hs) h

/-- A use of the token right after the tick was read. -/
theorem TimeInv.puatVerify (h : TimeInv u b) {param : Option Bytes} {msg : Bytes} :
    swp (fidoBoard F) A (puatVerify param msg (b.now % 2 ^ 32))
      (fun _ u' b' => TimeInv u' b') OffInv u b := by
  apply swp_puatVerify
  · exact fun _ => ((h.plain rfl).reset).verifyFailed param msg
  · exact fun _ _ w => ((h.plain rfl).setChip w).verifyFailed param msg
  · exact fun he hin _ w =>
      ((h.plain rfl).setChip w).verifyOk ((inTime_of_lives h he).setChip w) hin param msg

theorem TimeInv.puatInUse (h : TimeInv u b) :
    swp (fidoBoard F) A (puatInUse (b.now % 2 ^ 32)) (fun _ u' b' => TimeInv u' b') OffInv u b := by
  apply swp_puatInUse
  · intro _
    exact ((h.plain rfl).reset).inUse fun _ _ hl => by cases hl
  · exact fun he => (h.plain rfl).inUse (inTime_of_lives h he)

theorem timeInv_puatReset : Keeps (fidoBoard F) A TimeInv OffInv puatReset :=
  fun _ _ h => swp_puatReset h.reset

/-- The tick, a use of the token, and what only reads. -/
theorem timeInv_tickVerify {α : Type} {param : Option Bytes} {msg : Bytes}
    {k : Bool → FidoM α} (hk : ∀ ok, Keeps (fidoBoard F) A TimeInv OffInv (k ok)) :
    Keeps (fidoBoard F) A TimeInv OffInv (do
      let now ← halGetTick
      let ok ← puatVerify param msg now
      k ok) := by
  intro u b h
  rw [swp_bind]
  apply swp_halGetTick
  intro d
  rw [swp_bind]
  have hd : TimeInv u (b.wait d) := timeInv_ground.wait u b d h
  exact swp_mono hd.puatVerify (fun ok u' b' h' => hk ok u' b' h') fun _ h' => h'

/-- The end of `issue_token`, with the token generated. -/
theorem timeInv_begin {key token : Bytes} {perms : UInt8} {rp : Option Bytes} {e₁ e₂ : Entry Note}
    {earlier : History} (h : TimeInv u b) (hnotes : b.notes = e₁ :: e₂ :: earlier)
    (h₁ : e₁.note = .puatReset) (h₂ : e₂.note.rightPin = true) :
    swp (fidoBoard F) A (sendToken F key perms rp token) (fun _ u' b' => TimeInv u' b') OffInv u
      b := by
  rw [sendToken, swp_bind]
  apply swp_halGetTick
  intro d
  have hd : TimeInv u (b.wait d) := timeInv_ground.wait u b d h
  rw [swp_bind]
  apply swp_puatBegin
  have hb : TimeInv (u.setToken (u.token.begun token perms rp ((b.wait d).now % 2 ^ 32)))
      ((b.wait d).jot (.puatBegin token perms rp)) := by
    constructor
    · exact tracks_begun _ _ _ _ _
    · exact hd.ga
    · change Issued (_ :: b.notes)
      rw [hnotes]
      exact issued_begun rfl h₁ h₂
    · exact fun hu => ⟨trivial, hd.timely hu.2⟩
  have rest : Keeps (fidoBoard F) A TimeInv OffInv
      (do Fido.puatReset; pure (.status .other) : FidoM Answer) :=
    keeps_bind timeInv_puatReset fun _ => keeps_pure _
  cases F.aesCbcEnc key token with
  | none => exact rest _ _ hb
  | some enc => exact keeps_ite rest (keeps_pure _) _ _ hb

/-- A token is issued right behind the note that the PIN is right. -/
theorem timeInv_issueToken (key : Bytes) (perms : UInt8) (rp : Option Bytes) {e : Entry Note}
    {earlier : History} (h : TimeInv u b) (hnotes : b.notes = e :: earlier)
    (he : e.note.rightPin = true) :
    swp (fidoBoard F) A (issueToken F key perms rp) (fun _ u' b' => TimeInv u' b') OffInv u b := by
  have hreset : TimeInv (u.setToken u.token.cleared) (b.jot .puatReset) := h.reset
  rw [issueToken, swp_bind]
  apply swp_puatReset
  rw [swp_bind]
  apply swp_tropicRandom
  · rintro (_ | token) w
    · exact hreset.setChip w
    · have hn : ((b.jot .puatReset).setChip w).notes =
          ⟨.puatReset, b.now, b.chip.rmem, b.ecc⟩ :: e :: earlier := congrArg (List.cons _) hnotes
      exact timeInv_begin (hreset.setChip w) hn rfl he
  · exact fun w => hreset.timely

theorem timeInv_around : Around F A timeScope TimeInv OffInv :=
  timeInv_ground.around timeScope_whole.toBase

/-- The PIN was right: so says the last note. -/
def RightPin (b : Board Note) : Prop :=
  ∃ e earlier, b.notes = e :: earlier ∧ e.note.rightPin = true

theorem swp_fidoPinVerify (h : TimeInv u b) (mat : Bytes) :
    swp (fidoBoard F) A (fidoPinVerify F mat)
      (fun rc u' b' => TimeInv u' b' ∧ (rc = .ok true → RightPin b')) OffInv u b := by
  rw [fidoPinVerify, swp_bind]
  apply swp_mono (timeInv_around.store.verify mat u b h) _ fun _ h => h
  intro r u₁ b₁ h₁
  rw [swp_bind]
  apply swp_leave
  refine ⟨h₁.plain rfl, fun hok => ⟨_, _, rfl, ?_⟩⟩
  rw [mapRc] at hok
  split at hok
  · rename_i hrc
    simp [Note.rightPin, hrc, PinRc.ok.inj hok]
  · cases hok
  · cases hok

theorem swp_pinMismatchStatus (h : TimeInv u b) :
    swp (fidoBoard F) A (pinMismatchStatus F) (fun s u' b' => TimeInv u' b' ∧ s ≠ .ok) OffInv u
      b := by
  have pn : Pinned F A TimeInv OffInv := timeInv_around.pinned
  rw [pinMismatchStatus, swp_bind]
  apply swp_mono (pn.fidoPinState u b h) _ fun _ h => h
  rintro ⟨st, _⟩ u₁ b₁ h₁
  dsimp only
  rw [swp_bind]
  apply swp_mono (pn.pinRam _ u₁ b₁ h₁) _ fun _ h => h
  intro _ u₂ b₂ h₂
  rw [swp_bind]
  apply swp_mono (pn.regenEph u₂ b₂ h₂) _ fun _ h => h
  intro _ u₃ b₃ h₃
  cases st with
  | set =>
      rw [swp_bind, swp_get]
      split
      · exact ⟨h₃, nofun⟩
      · exact ⟨h₃, nofun⟩
  | _ => exact ⟨h₃, nofun⟩

/-- `verify_pin_hash_enc` answers OK for a PIN that is right, and for no other. -/
theorem swp_verifyPinHashEnc (h : TimeInv u b) (key enc : Bytes) :
    swp (fidoBoard F) A (verifyPinHashEnc F key enc)
      (fun rc u' b' => TimeInv u' b' ∧ (rc = .ok → RightPin b')) OffInv u b := by
  have pn : Pinned F A TimeInv OffInv := timeInv_around.pinned
  unfold Fido.verifyPinHashEnc
  cases F.aesCbcDec key enc with
  | none => exact ⟨h, nofun⟩
  | some submitted =>
      dsimp only
      rw [swp_bind]
      apply swp_mono (swp_fidoPinVerify h submitted) _ fun _ h => h
      rintro rc u₁ b₁ ⟨h₁, hright⟩
      cases rc with
      | blocked =>
          rw [swp_bind]
          apply swp_mono (pn.regenEph u₁ b₁ h₁) _ fun _ h => h
          exact fun _ _ _ h₂ => ⟨h₂, nofun⟩
      | error => exact ⟨h₁, nofun⟩
      | ok correct =>
          cases correct with
          | false =>
              apply swp_mono (swp_pinMismatchStatus h₁) _ fun _ h => h
              exact fun _ _ _ h₂ => ⟨h₂.1, fun hs => absurd hs h₂.2⟩
          | true => exact ⟨timeInv_ground.ram u₁ _ b₁ ⟨rfl, rfl⟩ h₁, fun _ => hright rfl⟩

theorem timeInv_issue (key phe : Bytes) (perms : UInt8) (rp : Option Bytes) :
    Keeps (fidoBoard F) A TimeInv OffInv (do
      let rc ← verifyPinHashEnc F key phe
      if rc = .ok then issueToken F key perms rp else pure (.status rc)) := by
  intro u b h
  rw [swp_bind]
  apply swp_mono (swp_verifyPinHashEnc h key phe) _ fun _ h => h
  rintro rc u₁ b₁ ⟨h₁, hright⟩
  split
  · obtain ⟨e, earlier, hnotes, he⟩ := hright ‹_›
    exact timeInv_issueToken key perms rp h₁ hnotes he
  · exact h₁

theorem timeInv_cmToken (q : CmReq) (sub : ℕ) :
    Keeps (fidoBoard F) A TimeInv OffInv (checkCmToken q sub) := by
  unfold checkCmToken
  cases q.pinAuth with
  | none => exact keeps_pure _
  | some auth =>
      cases q.protocol with
      | none => exact keeps_pure _
      | some proto =>
          apply keeps_ite (keeps_pure _)
          apply keeps_ite (keeps_pure _)
          exact timeInv_tickVerify fun ok =>
            keeps_get_bind fun _ => keeps_ite (keeps_pure _) (keeps_pure _)

theorem timeInv_acfgToken (c : CfgReq) (sub : ℕ) :
    Keeps (fidoBoard F) A TimeInv OffInv (checkAcfgToken c sub) := by
  unfold checkAcfgToken
  cases c.auth with
  | none => exact keeps_pure _
  | some auth =>
      cases c.protocol with
      | none => exact keeps_pure _
      | some proto =>
          apply keeps_ite (keeps_pure _)
          apply keeps_ite (keeps_pure _)
          exact timeInv_tickVerify fun ok =>
            keeps_get_bind fun _ => keeps_ite (keeps_pure _) (keeps_pure _)

theorem timeInv_continues : Keeps (fidoBoard F) A TimeInv OffInv cmContinues := by
  intro u b h
  rw [cmContinues, swp_bind]
  apply swp_halGetTick
  intro d
  have hd : TimeInv u (b.wait d) := timeInv_ground.wait u b d h
  rw [swp_bind]
  exact swp_mono hd.puatInUse (fun _ _ _ h' => h') fun _ h' => h'

theorem timeInv_shared : Shared F A TimeInv OffInv :=
  timeInv_around.toAmid.shared timeInv_puatReset
    (fun mat len => keeps_bind timeInv_puatReset fun _ => timeInv_around.store.fidoPinSet mat len)
    (fun mat mat' len =>
      keeps_bind timeInv_puatReset fun _ => timeInv_around.store.fidoPinChange mat mat' len)
    timeInv_issue timeInv_acfgToken

theorem timeInv_frame : Frame F A TimeInv OffInv where
  toShared := timeInv_shared
  iter f := timeInv_ground.vars fun u => timeScope_whole.iter u (f u.iter)
  cmToken := timeInv_cmToken
  continues := timeInv_continues

end Handlers

end Nixtropic.Fido
