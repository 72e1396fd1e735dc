import Mathlib.Data.List.Infix
import Nixtropic.Fido.TimeLimits

/-!
The contract of the pinUvAuthToken over whole runs: which answers of
MakeCredential and GetAssertion carry the UV flag.
-/

namespace Nixtropic.Fido

open Crash Runs

/-- What a request wants a token for; `touched` when it is answered after a
touch only. -/
structure TokenUse where
  perm : UInt8
  rpHash : Bytes
  param : Option Bytes
  clientHash : Bytes
  touched : Bool

def McReq.tokenUse (F : FidoPrims) (q : McReq) : TokenUse :=
  ⟨puatPermMc, F.chip.sha256 q.rpId, q.pinUv.param, q.clientHash, true⟩

def GaReq.tokenUse (F : FidoPrims) (q : GaReq) : TokenUse :=
  ⟨puatPermGa, F.chip.sha256 q.rpId, q.pinUv.param, q.clientHash, decide (q.opt.up ≠ some false)⟩

def Request.tokenUse (F : FidoPrims) (r : Request) : Option TokenUse :=
  match r.command with
  | .makeCredential (.ok q) => some (q.tokenUse F)
  | .getAssertion (.ok q) => some (q.tokenUse F)
  | _ => none

/-- The authenticator data of the answer carries the UV flag. -/
def Answer.uv : Answer → Bool
  | .attestation authData => carriesUv authData
  | .assertion _ authData _ _ _ => carriesUv authData
  | _ => false

/-- Since its issue a token was neither reset nor replaced nor spent, no touch
was given, and it was used for this RP only. -/
structure KeptFor (rpHash : Bytes) (later : History) : Prop where
  alive : ∀ x ∈ later, x.note.endsToken = false
  unspent : ∀ x ∈ later, x.note.spends = false
  untouched : ∀ x ∈ later, x.note.givesTouch = false
  sameRp : ∀ x ∈ later, ∀ rp, x.note.acceptedRp = some rp → rp = rpHash

/-- The last token was issued right after a PIN was verified, with the
permission and for this RP or none, and the param is its mac. -/
def Earned (F : FidoPrims) (w : TokenUse) (es : History) : Prop :=
  ∃ later e e₁ e₂ earlier token perms rp, es = later ++ e :: e₁ :: e₂ :: earlier ∧
    e.note = .puatBegin token perms rp ∧ e₁.note = .puatReset ∧ e₂.note.rightPin = true ∧
    perms &&& w.perm = w.perm ∧ (rp = none ∨ rp = some w.rpHash) ∧
    w.param = some (tokenMac F token w.clientHash) ∧ KeptFor w.rpHash later

/-- A token was earned in the notes since. -/
def EarnedSince (F : FidoPrims) (w : TokenUse) (base es : History) : Prop :=
  ∃ acc, base <:+ acc ∧ acc <:+ es ∧ Earned F w acc

/-- A touch has spent the token since. -/
def SpentSince (base es : History) : Prop :=
  ∃ e es', e.note.spends = true ∧ e :: es' <:+ es ∧ base <:+ es'

/-- What an answer to a use may be; `force` when alwaysUv is on. -/
structure Answered (F : FidoPrims) (w : TokenUse) (force : Bool) (base : History) (a : Answer)
    (es : History) : Prop where
  earned : a.uv = true → EarnedSince F w base es
  forced : force = true → w.touched = true → a.code = Status.ok.code → a.uv = true
  spent : w.touched = true → a.code = Status.ok.code → SpentSince base es

section Answers

variable {F : FidoPrims}

theorem code_ne_ok {s : Status} (h : s ≠ .ok) : (Answer.status s).code ≠ Status.ok.code := by
  cases s <;> first | exact absurd rfl h | decide

theorem answered_status {w : TokenUse} {force : Bool} {base es : History} {s : Status}
    (hs : s ≠ .ok) : Answered F w force base (.status s) es where
  earned h := by simp [Answer.uv] at h
  forced _ _ h := absurd h (code_ne_ok hs)
  spent _ h := absurd h (code_ne_ok hs)

/-- The answer carries the UV flag just when the flags do, or it is no
success. -/
structure Answer.Flagged (a : Answer) (flags : UInt8) : Prop where
  uv : a.uv = true → flags &&& flagUv ≠ 0
  success : a.code = Status.ok.code → flags &&& flagUv ≠ 0 → a.uv = true

theorem flagged_status {s : Status} (hs : s ≠ .ok) (flags : UInt8) :
    (Answer.status s).Flagged flags where
  uv h := by simp [Answer.uv] at h
  success h := absurd h (code_ne_ok hs)

theorem flagged_of_uv {a : Answer} {flags : UInt8} (h : a.uv = decide (flags &&& flagUv ≠ 0)) :
    a.Flagged flags where
  uv ha := by simpa [h] using ha
  success _ hf := by simp [h, hf]

theorem flagged_fitted {a : Answer} {flags : UInt8} (h : a.Flagged flags) :
    a.fitted.Flagged flags := by
  rw [Answer.fitted]
  split
  · exact flagged_status (by decide) flags
  · exact h

/-- The flags byte of the authenticator data. -/
theorem buildAuthdata_flags {rpHash credId cosePub ad ext : Bytes} {flags : UInt8} {sc max : ℕ}
    (hrp : rpHash.length = 32) (h : buildAuthdata rpHash flags sc credId cosePub max = some ad) :
    carriesUv (ad ++ ext) = decide (flags &&& flagUv ≠ 0) := by
  simp only [buildAuthdata, Option.ite_none_left_eq_some, Option.some.injEq] at h
  obtain ⟨-, rfl⟩ := h
  rw [carriesUv]
  simp only [List.append_assoc, List.getD_eq_getElem?_getD]
  rw [List.getElem?_append_right (by omega), hrp]
  rfl

theorem or_and_flagUv (x y : UInt8) :
    (x ||| y) &&& flagUv = (x &&& flagUv) ||| (y &&& flagUv) := by
  apply UInt8.toBitVec_inj.mp
  simp only [UInt8.toBitVec_and, UInt8.toBitVec_or]
  ext i
  simp [Bool.and_or_distrib_right]

/-- The other flags say nothing of the UV flag. -/
theorem or_flag_uv {x y : UInt8} (hy : y &&& flagUv = 0) : (x ||| y) &&& flagUv = x &&& flagUv := by
  rw [or_and_flagUv, hy, UInt8.or_zero]

theorem flagUp_or_uv (x : UInt8) : (flagUp ||| x) &&& flagUv = x &&& flagUv := by
  rw [UInt8.or_comm]
  exact or_flag_uv rfl

theorem flagged_mcRespond (q : McReq) {rpHash : Bytes} (hrp : rpHash.length = 32) (uvFlag : UInt8)
    (rk : Bool) (sc : ℕ) (pubkey credId : Bytes) :
    (mcRespond q rpHash (flagUp ||| uvFlag ||| flagAt) rk sc pubkey credId).Flagged uvFlag := by
  rw [mcRespond]
  cases coseWritePubkey q.alg pubkey with
  | none => exact flagged_status (by decide) uvFlag
  | some cosePub =>
      dsimp only
      generalize hflags : (if q.wantCredProps then flagUp ||| uvFlag ||| flagAt ||| flagEd
        else flagUp ||| uvFlag ||| flagAt) = flags
      have huv : flags &&& flagUv = uvFlag &&& flagUv := by
        rw [← hflags]
        split
        · rw [or_flag_uv rfl, or_flag_uv rfl, flagUp_or_uv]
        · rw [or_flag_uv rfl, flagUp_or_uv]
      cases had : buildAuthdata rpHash flags sc credId cosePub authDataMax with
      | none => exact flagged_status (by decide) uvFlag
      | some ad =>
          dsimp only
          by_cases hmax : authDataMax < ad.length +
              (if q.wantCredProps then credPropsOutput rk else []).length
          · rw [if_pos hmax]
            exact flagged_status (by decide) uvFlag
          · rw [if_neg hmax]
            apply flagged_fitted
            apply flagged_of_uv
            rw [← huv]
            exact buildAuthdata_flags hrp had

theorem flagged_gaAnswer {slot : ℕ} {m : SlotMeta} {rpHash ad sig : Bytes} {flags : UInt8}
    {sc n : ℕ} (hrp : rpHash.length = 32)
    (had : buildAuthdata rpHash flags sc [] [] 69 = some ad) :
    (gaAnswer slot m ad sig n).Flagged flags := by
  apply flagged_fitted
  apply flagged_of_uv
  rw [← List.append_nil ad]
  exact buildAuthdata_flags hrp had

end Answers

/-! ### The policies -/

section Policies

variable {F : FidoPrims} {A : BoardFate → Prop} {u : FidoRam} {b : Board Note}
  {C : Board Note → Prop}

theorem swp_pinIsSet {Q : Bool → FidoRam → Board Note → Prop}
    (h : ∀ r v w, Q r (o2Cell.put u v) (b.setChip w)) (hcut : ∀ w, C (b.setChip w)) :
    swp (fidoBoard F) A (pinIsSet F) Q C u b := by
  rw [pinIsSet, swp_bind, fidoPinState, swp_bind, swp_get]
  cases u.pinBound? with
  | none => exact h _ u.o2Uncertain b.chip
  | some bound =>
      dsimp only
      rw [swp_bind]
      apply swp_onPair
      apply swp_any
      · intro st v w
        cases st.state <;> exact h _ v w
      · exact hcut

/-- What a policy comes to: an error, the UV flag for a token that was earned,
or no UV flag while alwaysUv is off. -/
def PolicyPost (F : FidoPrims) (w : TokenUse) (force : Bool) (base : History)
    (x : Except Status UInt8) (es : History) : Prop :=
  match x with
  | .error s => s ≠ .ok
  | .ok flag => flag = 0 ∧ force = false ∨ flag = flagUv ∧ EarnedSince F w base es

/-- The token that passes `check_token` is the last one issued, and it was
earned for this use. -/
theorem earned_of_checks {t : Token} {es : History} {now : ℕ} {w : TokenUse}
    (htracks : Tracks t now (liveOf es)) (hissued : Issued es) (hheed : Heeded es)
    (hin : t.inUse = true)
    (hparam : w.param = some (tokenMac F t.token w.clientHash)) (huv : t.uv = true)
    (hperm : t.perms &&& w.perm = w.perm) (hmatch : t.rpMatches w.rpHash = true) :
    Earned F w es := by
  cases hl : liveOf es with
  | none =>
      rw [hl] at htracks
      simp [htracks.1] at hin
  | some l =>
      rw [hl] at htracks
      obtain ⟨-, htoken, -, hspent, hperms, hhas, hrp, -, -⟩ := htracks
      obtain ⟨later, e, e₁, e₂, earlier, perms, rp, hes, hb, hlp, h₁, h₂, hs⟩ := hissued l hl
      have hun : l.spent = false := by simpa [huv] using hspent.symm
      have hlrp : l.rp = none ∨ l.rp = some w.rpHash := by
        cases hc : l.rp with
        | none => exact .inl rfl
        | some r =>
            rw [hc] at hhas hrp
            have heq : t.rpHash = w.rpHash := by simpa [Token.rpMatches, hhas] using hmatch
            exact .inr (congrArg some (hrp.symm.trans heq))
      refine ⟨later, e, e₁, e₂, earlier, l.token, perms, rp, hes, hb, h₁, h₂, ?_, ?_, ?_, ?_⟩
      · have hlive : t.perms = perms &&& puatPermsKnown := by
          rw [hperms, hun]
          exact hlp
        rw [hlive] at hperm
        calc perms &&& w.perm = perms &&& (perms &&& puatPermsKnown &&& w.perm) := by rw [hperm]
          _ = perms &&& puatPermsKnown &&& w.perm := by
            rw [← UInt8.and_assoc, ← UInt8.and_assoc, UInt8.and_self]
          _ = w.perm := hperm
      · rcases hs.rp with h | h
        · exact .inl h
        · rw [h]
          exact hlrp
      · rw [hparam, htoken]
      · constructor
        · exact hs.alive
        · exact hs.unspent hun
        · exact hs.untouched hheed hun
        · intro x hx r hr
          have hxr := hs.uses x hx r hr
          rcases hlrp with h | h
          · simp [h] at hxr
          · exact Option.some.inj (hxr.symm.trans h)

theorem swp_checkToken (h : TimeInv u b) (hheed : Heeded b.notes) {w : TokenUse} {pu : PinUv}
    (hw : w.param = pu.param) :
    swp (fidoBoard F) A (checkToken pu w.clientHash w.perm w.rpHash)
      (fun rc _ b' => rc = .ok → EarnedSince F w b.notes b'.notes) (fun _ => True) u b := by
  rw [checkToken, swp_bind]
  apply swp_halGetTick
  intro d
  have hd : TimeInv u (b.wait d) := timeInv_ground.wait u b d h
  rw [swp_bind]
  apply swp_puatVerify
  · intro _
    rw [swp_bind, swp_get]
    simp only [Bool.false_and, Bool.false_eq_true, if_false]
    exact nofun
  · intro _ _ _
    rw [swp_bind, swp_get]
    simp only [Bool.false_and, Bool.false_eq_true, if_false]
    exact nofun
  · intro he hin hparam wd
    have hv : TimeInv (u.setToken { u.token with used := true })
        ((((b.wait d).jot .puatExpire).setChip wd).jot (.puatVerify pu.param w.clientHash true)) :=
      ((hd.plain rfl).setChip wd).verifyOk ((inTime_of_lives hd he).setChip wd) hin _ _
    rw [swp_bind, swp_get]
    dsimp only
    split
    · rename_i hok
      simp only [Bool.true_and, Bool.and_eq_true] at hok
      obtain ⟨⟨huv, hperm⟩, hmatch⟩ := hok
      have hearned : Earned F w ((((b.wait d).jot .puatExpire).setChip wd).jot
          (.puatVerify pu.param w.clientHash true)).notes := by
        apply earned_of_checks hv.token hv.issued ((hheed.cons rfl).cons rfl) hin
        · rw [hw, hparam]
          rfl
        · exact (Bool.and_eq_true_iff.mp huv).2
        · simp only [Token.hasPerm, Bool.and_eq_true, decide_eq_true_eq] at hperm
          exact hperm.1.2
        · exact hmatch
      apply swp_mono (swp_notes _) _ fun _ _ => trivial
      intro rc u' b' hsuf _
      exact ⟨_, (List.suffix_cons _ _).trans (List.suffix_cons _ _), hsuf, hearned⟩
    · exact nofun

/-- With a PIN and a param, only a token that was earned goes through. -/
theorem swp_tokenUv (h : TimeInv u b) (hheed : Heeded b.notes) {w : TokenUse} {pu : PinUv}
    (hw : w.param = pu.param) {pinSet force : Bool}
    (hforce : force = true → pinSet = true ∧ pu.param.isSome = true) :
    swp (fidoBoard F) A (tokenUv pinSet pu w.clientHash w.perm w.rpHash)
      (fun x _ b' => PolicyPost F w force b.notes x b'.notes) (fun _ => True) u b := by
  rw [tokenUv]
  split
  · rw [swp_bind]
    apply swp_mono (swp_checkToken h hheed hw) _ fun _ h => h
    intro rc u' b' hrc
    rw [swp_pure]
    split
    · exact .inr ⟨rfl, hrc ‹_›⟩
    · assumption
  · rename_i hno
    refine .inl ⟨rfl, ?_⟩
    cases hf : force with
    | false => rfl
    | true =>
        obtain ⟨h₁, h₂⟩ := hforce hf
        simp [h₁, h₂] at hno

theorem forceUvGet_put (u : FidoRam) (v : Bool) :
    (o2Cell.put u v).forceUvGet = u.forceUvGet := rfl

theorem TimeInv.pinRead (h : TimeInv u b) (v : Bool) (w : World) :
    TimeInv (o2Cell.put u v) (b.setChip w) :=
  timeInv_ground.ram u _ _ ⟨rfl, rfl⟩ (h.setChip w)

theorem swp_mcUvPolicy (h : TimeInv u b) (hheed : Heeded b.notes) (q : McReq) (rk : Bool) :
    swp (fidoBoard F) A (mcUvPolicy F q rk (F.chip.sha256 q.rpId))
      (fun x _ b' => PolicyPost F (q.tokenUse F) u.forceUvGet b.notes x b'.notes)
      (fun _ => True) u b := by
  rw [mcUvPolicy, swp_bind]
  apply swp_pinIsSet _ fun _ => trivial
  intro pinSet v w
  have hread := h.pinRead v w
  rw [swp_bind, swp_get, forceUvGet_put]
  split
  · split
    · exact (by decide : Status.puatRequired ≠ .ok)
    · rename_i hno
      apply swp_tokenUv (w := q.tokenUse F) hread hheed rfl
      intro _
      cases pinSet <;> cases hp : q.pinUv.param <;> simp [hp] at hno ⊢
  · rename_i hoff
    rw [Bool.not_eq_true] at hoff
    rw [hoff]
    split
    · exact (by decide : Status.puatRequired ≠ .ok)
    · exact swp_tokenUv (w := q.tokenUse F) hread hheed rfl nofun

theorem swp_gaUvPolicy (h : TimeInv u b) (hheed : Heeded b.notes) (q : GaReq) :
    swp (fidoBoard F) A
      (gaUvPolicy F q (decide (q.opt.up ≠ some false)) (F.chip.sha256 q.rpId))
      (fun x _ b' => PolicyPost F (q.tokenUse F) (u.forceUvGet && (q.tokenUse F).touched) b.notes x
        b'.notes) (fun _ => True) u b := by
  rw [gaUvPolicy, swp_bind]
  apply swp_pinIsSet _ fun _ => trivial
  intro pinSet v w
  have hread := h.pinRead v w
  rw [swp_bind, swp_get, forceUvGet_put]
  change swp _ _ (if (u.forceUvGet && (q.tokenUse F).touched) = true then _ else _) _ _ _ _
  split
  · split
    · exact (by decide : Status.puatRequired ≠ .ok)
    · rename_i hno
      apply swp_tokenUv (w := q.tokenUse F) hread hheed rfl
      intro _
      cases pinSet <;> cases hp : q.pinUv.param <;> simp [hp] at hno ⊢
  · rename_i hoff
    rw [Bool.not_eq_true] at hoff
    rw [hoff]
    exact swp_tokenUv (w := q.tokenUse F) hread hheed rfl nofun

end Policies

/-! ### What follows the policies -/

section Commits

variable {F : FidoPrims} {A : BoardFate → Prop} {u : FidoRam} {b : Board Note} {base : History}

/-- What an answer is to be, once the policy gave the flag. -/
def Concluded (uvFlag : UInt8) (touched : Bool) (base : History) (a : Answer) (b : Board Note) :
    Prop :=
  a.Flagged uvFlag ∧ (touched = true → a.code = Status.ok.code → SpentSince base b.notes)

theorem concluded_status {s : Status} (hs : s ≠ .ok) {uvFlag : UInt8} {touched : Bool} :
    Concluded uvFlag touched base (.status s) b :=
  ⟨flagged_status hs uvFlag, fun _ h => absurd h (code_ne_ok hs)⟩

/-- The token is spent before whatever follows. -/
theorem swp_spend {α : Type} {k : FidoM α} {Q : α → FidoRam → Board Note → Prop}
    (hb : base <:+ b.notes)
    (hk : ∀ u b, SpentSince base b.notes → swp (fidoBoard F) A k Q (fun _ => True) u b) :
    swp (fidoBoard F) A (do puatConsume; k) Q (fun _ => True) u b := by
  rw [swp_bind]
  apply swp_puatConsume
  exact hk _ _ ⟨_, _, rfl, List.suffix_rfl, hb⟩

theorem EarnedSince.mono {w : TokenUse} {es es' : History} (h : EarnedSince F w base es)
    (hs : es <:+ es') : EarnedSince F w base es' := by
  obtain ⟨acc, h₁, h₂, h₃⟩ := h
  exact ⟨acc, h₁, h₂.trans hs, h₃⟩

theorem SpentSince.mono {es es' : History} (h : SpentSince base es) (hs : es <:+ es') :
    SpentSince base es' := by
  obtain ⟨e, l, hn, hl, hb⟩ := h
  exact ⟨e, l, hn, hl.trans hs, hb⟩

theorem swp_mcCommit (q : McReq) (uvFlag : UInt8) {rk : Bool} {sc created : ℕ} {mask : BitVec 32}
    {rpHash : Bytes} (hrp : rpHash.length = 32) (hb : base <:+ b.notes) :
    swp (fidoBoard F) A (mcCommit F q rpHash rk uvFlag sc created mask)
      (fun a _ b' => Concluded uvFlag true base a b') (fun _ => True) u b := by
  rw [mcCommit]
  apply swp_bind_notes _ fun _ => trivial
  intro up u₁ b₁ h₁
  split
  · rename_i hup
    exact concluded_status hup
  apply swp_spend (hb.trans h₁)
  intro u₂ b₂ hspent
  apply swp_bind_notes _ fun _ => trivial
  intro r u₃ b₃ h₃
  cases r with
  | full => exact concluded_status (by decide)
  | error => exact concluded_status (by decide)
  | ok pubkey credId slot =>
      apply swp_bind_notes _ fun _ => trivial
      intro _ u₄ b₄ h₄
      exact ⟨flagged_mcRespond q hrp uvFlag rk sc pubkey credId,
        fun _ _ => hspent.mono (h₃.trans h₄)⟩

theorem swp_mcPrepare (q : McReq) (uvFlag : UInt8) {rk : Bool} {rpHash : Bytes}
    (hrp : rpHash.length = 32) (hb : base <:+ b.notes) :
    swp (fidoBoard F) A (mcPrepare F q rpHash rk uvFlag)
      (fun a _ b' => Concluded uvFlag true base a b') (fun _ => True) u b := by
  rw [mcPrepare, swp_bind, swp_get]
  split
  · exact concluded_status (by decide)
  apply swp_bind_notes _ fun _ => trivial
  intro ex u₁ b₁ h₁
  split
  · rename_i hex
    exact concluded_status hex
  apply swp_bind_notes _ fun _ => trivial
  intro sc u₂ b₂ h₂
  cases sc with
  | none => exact concluded_status (by decide)
  | some sc =>
      apply swp_bind_notes _ fun _ => trivial
      intro r u₃ b₃ h₃
      cases r with
      | none => exact concluded_status (by decide)
      | some r => exact swp_mcCommit q uvFlag hrp (((hb.trans h₁).trans h₂).trans h₃)

/-- The signature carries the flags it was made with. -/
theorem swp_gaSignRespond (slot : ℕ) {rpHash : Bytes} (hrp : rpHash.length = 32) (flags : UInt8)
    (clientHash : Bytes) (n : ℕ) :
    swp (fidoBoard F) A (gaSignRespond F slot rpHash flags clientHash n)
      (fun a _ _ => a.Flagged flags) (fun _ => True) u b := by
  rw [gaSignRespond]
  apply swp_bind_any _ fun _ => trivial
  intro r u₁ b₁
  cases r with
  | invalid => exact flagged_status (by decide) flags
  | chip => exact flagged_status (by decide) flags
  | ok m =>
      dsimp only
      split
      · exact flagged_status (by decide) flags
      split
      · exact flagged_status (by decide) flags
      apply swp_bind_any _ fun _ => trivial
      intro sc u₂ b₂
      cases sc with
      | none => exact flagged_status (by decide) flags
      | some sc =>
          cases had : buildAuthdata rpHash flags sc [] [] 69 with
          | none =>
              dsimp only
              rw [had]
              exact flagged_status (by decide) flags
          | some ad =>
              dsimp only
              rw [had]
              apply swp_bind_any _ fun _ => trivial
              intro sig u₃ b₃
              cases sig with
              | none => exact flagged_status (by decide) flags
              | some sig =>
                  rw [swp_pure]
                  exact flagged_gaAnswer hrp had

theorem Answer.Flagged.congr {a : Answer} {x y : UInt8} (h : a.Flagged x)
    (hxy : x &&& flagUv = y &&& flagUv) : a.Flagged y :=
  ⟨fun ha => hxy ▸ h.uv ha, fun hc hy => h.success hc (hxy ▸ hy)⟩

theorem swp_gaFinish (q : GaReq) {rpHash : Bytes} (hrp : rpHash.length = 32) (flags : UInt8)
    (slots : List ℕ) :
    swp (fidoBoard F) A (gaFinish F q rpHash flags slots) (fun a _ _ => a.Flagged flags)
      (fun _ => True) u b := by
  rw [gaFinish, swp_bind]
  apply swp_mono (swp_gaSignRespond _ hrp flags _ _) _ fun _ h => h
  intro a u₁ b₁ ha
  split
  · apply swp_bind_any _ fun _ => trivial
    intro _ u₂ b₂
    apply swp_bind_any _ fun _ => trivial
    intro now u₃ b₃
    apply swp_bind_any _ fun _ => trivial
    intro _ u₄ b₄
    apply swp_bind_any _ fun _ => trivial
    exact fun _ _ _ => ha
  · exact ha

/-- Why `ga_commit` may answer as it does. -/
theorem swp_gaCommit (q : GaReq) (up : Bool) {rpHash : Bytes} (hrp : rpHash.length = 32)
    (uvFlag : UInt8) (hb : base <:+ b.notes) :
    swp (fidoBoard F) A (gaCommit F q up rpHash uvFlag)
      (fun a _ b' => Concluded uvFlag up base a b') (fun _ => True) u b := by
  have rest : ∀ slots u₁ b₁, base <:+ b₁.notes → swp (fidoBoard F) A (do
      setGa fun g => { g with slots := slots }
      if slots = [] then pure (.status .noCredentials)
      else if up then do
        let touch ← waitTouch .use
        if touch ≠ .ok then pure (.status touch)
        else do
          puatConsume
          gaFinish F q rpHash (flagUp ||| uvFlag) slots
      else gaFinish F q rpHash uvFlag slots : FidoM Answer)
      (fun a _ b' => Concluded uvFlag up base a b') (fun _ => True) u₁ b₁ := by
    intro slots u₁ b₁ h₁
    rw [swp_bind]
    apply swp_setGa
    split
    · exact concluded_status (by decide)
    cases up with
    | false =>
        apply swp_mono (swp_gaFinish q hrp uvFlag slots) _ fun _ h => h
        exact fun _ _ _ ha => ⟨ha, nofun⟩
    | true =>
        apply swp_bind_notes _ fun _ => trivial
        intro touch u₂ b₂ h₂
        split
        · rename_i ht
          exact concluded_status ht
        apply swp_spend (h₁.trans h₂)
        intro u₃ b₃ hspent
        apply swp_mono (swp_and (swp_gaFinish q hrp (flagUp ||| uvFlag) slots) (swp_notes _)) _
          fun _ _ => trivial
        intro a u₄ b₄ ha
        exact ⟨ha.1.congr (flagUp_or_uv uvFlag), fun _ _ => hspent.mono ha.2⟩
  rw [gaCommit, swp_bind, swp_get]
  split
  · exact concluded_status (by decide)
  cases q.allow with
  | some ids =>
      apply swp_bind_notes _ fun _ => trivial
      exact fun slots u₁ b₁ h₁ => rest slots u₁ b₁ (hb.trans h₁)
  | none =>
      apply swp_bind_notes _ fun _ => trivial
      exact fun slots u₁ b₁ h₁ => rest slots u₁ b₁ (hb.trans h₁)

/-- The policy and what follows it, together. -/
theorem answered_of_concluded {w : TokenUse} {force asked : Bool} {flag : UInt8}
    {start mid : History}
    {a : Answer} (hpolicy : PolicyPost F w asked start (.ok flag) mid) (hstart : base <:+ start)
    (hmid : mid <:+ b.notes) (hasked : force = true → w.touched = true → asked = true)
    (h : Concluded flag w.touched base a b) :
    Answered F w force base a b.notes := by
  obtain ⟨hflag, hspent⟩ := h
  constructor
  · intro huv
    rcases hpolicy with ⟨rfl, -⟩ | ⟨rfl, acc, h₁, h₂, h₃⟩
    · exact absurd rfl (hflag.uv huv)
    · exact ⟨acc, hstart.trans h₁, h₂.trans hmid, h₃⟩
  · intro hforce ht hok
    rcases hpolicy with ⟨-, hoff⟩ | ⟨rfl, -⟩
    · simp [hasked hforce ht] at hoff
    · exact hflag.success hok (by decide)
  · exact hspent

theorem swp_pinProbe : swp (fidoBoard F) A (pinProbe F) (fun s _ _ => s ≠ .ok)
    (fun _ => True) u b := by
  rw [pinProbe]
  apply swp_bind_any _ fun _ => trivial
  intro up u₁ b₁
  split
  · assumption
  · apply swp_bind_any _ fun _ => trivial
    intro set u₂ b₂
    split
    · exact (by decide : Status.pinInvalid ≠ .ok)
    · exact (by decide : Status.pinNotSet ≠ .ok)

theorem swp_makeCredential (h : TimeInv u b) (hheed : Heeded b.notes) (q : McReq)
    (hb : base <:+ b.notes) :
    swp (fidoBoard F) A (ctap2MakeCredential F (.ok q))
      (fun a _ b' => Answered F (q.tokenUse F) u.forceUvGet base a b'.notes)
        (fun _ => True) u b := by
  rw [ctap2MakeCredential]
  split
  · rw [swp_bind]
    apply swp_mono swp_pinProbe _ fun _ h => h
    exact fun s _ _ hs => answered_status hs
  split
  · rename_i hs
    exact answered_status hs
  split
  · exact answered_status (by decide)
  rw [swp_bind]
  apply swp_mono (swp_and (swp_mcUvPolicy h hheed q _) (swp_notes _)) _ fun _ _ => trivial
  intro x u₁ b₁ ⟨hx, h₁⟩
  cases x with
  | error s => exact answered_status hx
  | ok flag =>
      apply swp_mono (swp_and (swp_mcPrepare q flag (F.chip.sha256_length _) (hb.trans h₁))
        (swp_notes _)) _ fun _ _ => trivial
      intro a u₂ b₂ ⟨ha, h₂⟩
      exact answered_of_concluded hx hb h₂ (fun hf _ => hf) ha

theorem timeInv_cleared (h : TimeInv u b) : TimeInv (u.setGa .zero) b :=
  ⟨h.token, nofun, h.issued, h.timely⟩

theorem swp_getAssertion (h : TimeInv u b) (hheed : Heeded b.notes) (q : GaReq)
    (hb : base <:+ b.notes) :
    swp (fidoBoard F) A (ctap2GetAssertion F (.ok q))
      (fun a _ b' => Answered F (q.tokenUse F) u.forceUvGet base a b'.notes)
        (fun _ => True) u b := by
  rw [ctap2GetAssertion, swp_bind]
  apply swp_setGa
  have hclear : TimeInv (u.setGa .zero) b := timeInv_cleared h
  split
  · rw [swp_bind]
    apply swp_mono swp_pinProbe _ fun _ h => h
    exact fun s _ _ hs => answered_status hs
  split
  · rename_i hs
    exact answered_status hs
  split
  · exact answered_status (by decide)
  split
  · exact answered_status (by decide)
  rw [swp_bind]
  apply swp_mono (swp_and (swp_gaUvPolicy hclear hheed q) (swp_notes _)) _ fun _ _ => trivial
  intro x u₁ b₁ ⟨hx, h₁⟩
  cases x with
  | error s => exact answered_status hx
  | ok flag =>
      apply swp_mono (swp_and (swp_gaCommit q (q.tokenUse F).touched (F.chip.sha256_length _) flag
        (hb.trans h₁)) (swp_notes _)) _ fun _ _ => trivial
      intro a u₂ b₂ ⟨ha, h₂⟩
      apply answered_of_concluded hx hb h₂ _ ha
      intro hf ht
      rw [ht, Bool.and_true]
      exact hf

/-- An answer to a request that wants a token. -/
theorem swp_dispatch (h : TimeInv u b) (hheed : Heeded b.notes) {r : Request} {w : TokenUse}
    (hw : r.tokenUse F = some w) (hb : base <:+ b.notes) :
    swp (fidoBoard F) A (dispatch F r)
      (fun a _ b' => Answered F w u.forceUvGet base a b'.notes) (fun _ => True) u b := by
  have herror : ∀ {s : Status} {b' : Board Note}, s ≠ .ok →
      Answered F w u.forceUvGet base (.status s) b'.notes := answered_status
  rw [dispatch]
  split
  · exact herror (by decide)
  have hend : swp (fidoBoard F) A (endEnumeration r.command)
      (fun _ u' b' => TimeInv u' b' ∧ u'.forceUvGet = u.forceUvGet ∧ b' = b)
        (fun _ => True) u b := by
    rw [endEnumeration]
    split
    · exact ⟨h, rfl, rfl⟩
    · exact ⟨timeInv_ground.ram u _ b ⟨rfl, rfl⟩ h, rfl, rfl⟩
  rw [swp_bind]
  apply swp_mono hend _ fun _ h => h
  rintro - u₁ b₁ ⟨h₁, hf₁, rfl⟩
  have hga : swp (fidoBoard F) A (endIteration r.command)
      (fun _ u' b' => TimeInv u' b' ∧ u'.forceUvGet = u.forceUvGet ∧ b' = b₁) (fun _ => True) u₁
        b₁ := by
    rw [endIteration]
    split
    · exact ⟨h₁, hf₁, rfl⟩
    · exact ⟨timeInv_cleared h₁, hf₁, rfl⟩
  rw [swp_bind]
  apply swp_mono hga _ fun _ h => h
  rintro - u₂ b₂ ⟨h₂, hf₂, rfl⟩
  rw [serveChecked]
  split
  · exact herror (by decide)
  rw [swp_bind, swp_get]
  split
  · exact herror (by decide)
  rw [← hf₂]
  rw [Request.tokenUse] at hw
  rcases r with ⟨c, valid⟩
  cases c with
  | makeCredential q =>
      cases q with
      | error s => cases hw
      | ok q =>
          cases hw
          exact swp_makeCredential h₂ hheed q hb
  | getAssertion q =>
      cases q with
      | error s => cases hw
      | ok q =>
          cases hw
          exact swp_getAssertion h₂ hheed q hb
  | _ => cases hw

end Commits

/-! ### Whole runs -/

/-- Whatever request the device is sent, and whatever fails meanwhile: an
answer to MakeCredential or GetAssertion keeps the contract. -/
def Device.TokenContract (F : FidoPrims) (d : Device) : Prop :=
  ∀ u, d.ram = some u → ∀ (r : Request) (fs : List BoardFate) (w : TokenUse),
    r.tokenUse F = some w →
      (run (fidoBoard F) ((fidoHidCborDispatch F r).run u) fs d.board).Satisfies
        (fun x b' => Answered F w u.forceUvGet (d.board.jot (.request r)).notes x.1 b'.notes)
        fun _ => True

/-- In every state that a run reaches, cut and failing calls included: but for
the touch of an excluded credential and that of a probe, which leave the token
as it is. -/
theorem token_contract (F : FidoPrims) (b : Board Note) (acts : List Action)
    (hheed : Heeded ((device F b).run acts).board.notes) :
    ((device F b).run acts).TokenContract F := by
  have hinit : (device F b).init.Timed := fun _ => trivial
  have h : ((device F b).run acts).Timed :=
    System.run_keeps hinit (fun _ a h => timed_step h a) acts
  revert h hheed
  generalize (device F b).run acts = d
  intro hheed h u hram r fs w hw
  obtain ⟨_, b'⟩ := d
  cases hram
  have hu : TimeInv u b' := h
  have hswp : swp (fidoBoard F) (fun _ => True) (fidoHidCborDispatch F r)
      (fun a _ b₁ => Answered F w u.forceUvGet (b'.jot (.request r)).notes a b₁.notes)
      (fun _ => True) u b' := by
    rw [fidoHidCborDispatch, swp_bind]
    apply swp_leave
    rw [swp_bind]
    have hreq : Heeded (b'.jot (.request r)).notes := hheed.cons rfl
    apply swp_mono (swp_dispatch (hu.plain rfl) hreq hw List.suffix_rfl) _ fun _ h => h
    intro a u₁ b₁ ha
    rw [swp_bind]
    apply swp_leave
    exact ⟨fun huv => (ha.earned huv).mono (List.suffix_cons _ _), ha.forced,
      fun ht hok => (ha.spent ht hok).mono (List.suffix_cons _ _)⟩
  exact run_of_swp trivial hswp fun _ _ => trivial

/-! ### Runs of the model -/

/-- The answer to a request that no fault meets, and the notes then. -/
def Device.answerTo (F : FidoPrims) (d : Device) (r : Request) : Option (Answer × History) :=
  match d.ram with
  | none => none
  | some u =>
      match run (fidoBoard F) ((fidoHidCborDispatch F r).run u) [] d.board with
      | .done (a, _) b => some (a, b.notes)
      | .cut _ => none

theorem Device.TokenContract.earned {F : FidoPrims} {d : Device} (h : d.TokenContract F)
    {r : Request} {w : TokenUse} (hw : r.tokenUse F = some w) {a : Answer} {es : History}
    (hreply : d.answerTo F r = some (a, es)) (huv : a.uv = true) :
    EarnedSince F w (d.board.jot (.request r)).notes es := by
  rw [Device.answerTo] at hreply
  split at hreply
  · cases hreply
  rename_i u hram
  have hsat := h u hram r [] w hw
  split at hreply
  · rename_i hrun
    cases hreply
    rw [hrun] at hsat
    exact hsat.earned huv
  · cases hreply

/-- What `Earned` comes to, without the macs. -/
def freshToken : History → Bool
  | [] => false
  | e :: es =>
      match e.note with
      | .puatBegin _ _ _ => true
      | _ => !e.note.endsToken && !e.note.givesTouch && freshToken es

theorem Earned.fresh {F : FidoPrims} {w : TokenUse} {es : History} (h : Earned F w es) :
    freshToken es = true := by
  obtain ⟨later, e, e₁, e₂, earlier, token, perms, rp, rfl, hb, -, -, -, -, -, hkept⟩ := h
  have halive := hkept.alive
  have huntouched := hkept.untouched
  clear hkept
  induction later with
  | nil => simp [freshToken, hb]
  | cons x later ih =>
      have hrest := ih (fun y hy => halive y (List.mem_cons_of_mem _ hy))
        fun y hy => huntouched y (List.mem_cons_of_mem _ hy)
      rw [List.cons_append, freshToken]
      split
      · rfl
      · simp [halive x (List.mem_cons_self ..), huntouched x (List.mem_cons_self ..), hrest]

/-- A passkey of the RP, unless one of the `exclude` is here. -/
def demoMakeUv (param : Option Bytes) (exclude : List Bytes) : Request where
  command := .makeCredential (.ok {
    clientHash := zeros
    rpId := [1]
    userId := [2]
    alg := .es256
    exclude := exclude
    wantCredProps := false
    opt := ⟨some true, none, none⟩
    pinUv := ⟨param, some 1⟩
    clientHash_length := length_zeros
    userId_length := by simp [userIdMax] })
  cborValid := true

/-- Another passkey refused because of it. -/
def demoRefused : List Action := demoMade ++ [.request (demoMakeUv none [demoMadeId]) []]

/-- A PIN, and a token with mc. -/
def demoIssued : List Action :=
  demoRefused ++ [.request ((device mixFido blankBoard).run demoRefused).demoSetPin [],
    .request (demoGetToken puatPermMc none) []]

/-- The param under this token. -/
def demoParam : Bytes :=
  tokenMac mixFido ((device mixFido blankBoard).run demoIssued).demoToken zeros

/-- Another passkey refused, now under the token. -/
def demoTouched : List Action :=
  demoIssued ++ [.request (demoMakeUv (some demoParam) [demoMadeId]) []]

/-- The touch of the refused passkey found no token; the next one is made
under the token, with UV. -/
theorem token_contract_demo :
    ((device mixFido blankBoard).run demoIssued).board.notes.any
        (fun e => e.note.idleTouch) = true ∧
      ((((device mixFido blankBoard).run demoIssued).answerTo mixFido
        (demoMakeUv (some demoParam) [])).map fun x => x.1.uv) = some true ∧
      ((device mixFido blankBoard).run demoIssued).TokenContract mixFido := by
  have hdemo : Heeded ((device mixFido blankBoard).run demoIssued).board.notes ∧
      ((device mixFido blankBoard).run demoIssued).board.notes.any
          (fun e => e.note.idleTouch) = true ∧
        ((((device mixFido blankBoard).run demoIssued).answerTo mixFido
          (demoMakeUv (some demoParam) [])).map fun x => x.1.uv) = some true := by
    decide +kernel
  have h := token_contract mixFido blankBoard demoIssued
  generalize (device mixFido blankBoard).run demoIssued = d at hdemo h ⊢
  obtain ⟨hheed, hidle, huv⟩ := hdemo
  exact ⟨hidle, huv, h hheed⟩

/-- The token outlives the touch of a refused passkey: the next one is made
under it, with UV. -/
theorem token_contract_excluded :
    ¬((device mixFido blankBoard).run demoTouched).TokenContract mixFido := by
  intro h
  have hreply : ((((device mixFido blankBoard).run demoTouched).answerTo mixFido
      (demoMakeUv (some demoParam) [])).any fun x => x.1.uv && x.2.tails.all fun acc =>
        decide (acc.length ≤ ((device mixFido blankBoard).run demoTouched).board.notes.length) ||
          !freshToken acc) = true := by decide +kernel
  obtain ⟨⟨a, es⟩, hr, hx⟩ := (Option.any_eq_true _ _).mp hreply
  rw [Bool.and_eq_true, List.all_eq_true] at hx
  obtain ⟨acc, hbase, hes, hearned⟩ := h.earned rfl hr hx.1
  have hlen := hbase.length_le
  have hacc := hx.2 acc ((List.mem_tails _ _).mpr hes)
  rw [hearned.fresh] at hacc
  simp at hacc hlen
  omega

end Nixtropic.Fido
