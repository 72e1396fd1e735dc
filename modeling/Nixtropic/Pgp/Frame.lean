import Nixtropic.Pgp.StateLogic
import Nixtropic.Pgp.Emit
import Nixtropic.Pgp.Framing

/-!
What the handlers keep, given what the functions they are made of keep.

A `Frame` lists the functions at the bottom of the handlers. Of O3 it wants two
things only: that an edit which leaves alone what the card decides by is kept, and
that the touch flag may be set. Granting access, using the signature key and
TERMINATE have rules of their own.
-/

namespace Nixtropic.Pgp

open Crash

/-! ### Edits of O3 -/

/-- The bytes of a payload that say what the card may do: the life cycle, the flags
of the Resetting Code and of the touch, and the count of signatures. -/
def policyBytes : List ℕ := [offLc, offRcSet, offUif, offSigcnt, offSigcnt + 1, offSigcnt + 2]

/-- An edit of a payload that leaves these alone. -/
structure Steady (f : Bytes → Bytes) : Prop where
  length : ∀ p, o3Len ≤ p.length → o3Len ≤ (f p).length
  byte : ∀ p i, o3Len ≤ p.length → i ∈ policyBytes → (f p).getD i 0 = p.getD i 0

/-- A store of `n` bytes that touches none of them. -/
def Clear (off n : ℕ) : Prop := off ≤ o3Len ∧ ∀ i ∈ policyBytes, i < off ∨ off + n ≤ i

instance (off n : ℕ) : Decidable (Clear off n) := inferInstanceAs (Decidable (_ ∧ _))

theorem Clear.mono {off n n' : ℕ} (h : Clear off n) (hn : n' ≤ n) : Clear off n' :=
  ⟨h.1, fun i hi => (h.2 i hi).imp_right fun hle => by omega⟩

/-- Behind the policy every store is clear. -/
theorem clear_behind {off n : ℕ} (h : offDecPub ≤ off) (hoff : off ≤ o3Len) : Clear off n := by
  refine ⟨hoff, fun i hi => .inl ?_⟩
  have hmax : ∀ i ∈ policyBytes, i < offDecPub := by decide
  exact Nat.lt_of_lt_of_le (hmax i hi) h

theorem Steady.comp {f g : Bytes → Bytes} (hg : Steady g) (hf : Steady f) :
    Steady fun p => g (f p) where
  length p hp := hg.length _ (hf.length p hp)
  byte p i hp hi := (hg.byte _ i (hf.length p hp) hi).trans (hf.byte p i hp hi)

theorem steady_patch {off : ℕ} {v : Bytes} (h : Clear off v.length) :
    Steady fun p => patch p off v where
  length _ hp := hp.trans (le_length_patch (h.1.trans hp))
  byte _ i hp hi := getD_patch (h.1.trans hp) (h.2 i hi)

/-- PSO:CDS -/
def Apdu.isCds (a : Apdu) : Prop := a.ins = insPso ∧ a.p1 = 0x9E ∧ a.p2 = 0x9A

instance (a : Apdu) : Decidable a.isCds := inferInstanceAs (Decidable (_ ∧ _))

/-! ### The functions at the bottom -/

/-- The invariant `J`, with `C` for runs that are cut, is kept by the functions at
the bottom of the handlers. -/
structure Frame (F : PgpPrims) (A : BoardFate → Prop) (J : PgpRam → Board Note → Prop)
    (C : Board Note → Prop) : Prop where
  status : ∀ which, Keeps (pgpBoard F) A J C
    (onPair (pinCell which) (pinMdKernelStatus F.chip (layoutOf which)))
  verify : ∀ which mat, Keeps (pgpBoard F) A J C
    (onPair (pinCell which) (pinMdKernelVerify F.chip (layoutOf which) mat))
  change : ∀ which mat mat' len, which ≠ .rc → Keeps (pgpBoard F) A J C
    (onPair (pinCell which) (pinMdKernelChange F.chip (layoutOf which) mat mat' len))
  setPw1 : ∀ mat len, Keeps (pgpBoard F) A J C
    (onPair (pinCell .pw1) (pinMdKernelSetup F.chip (layoutOf .pw1) mat len))
  setRc : ∀ rc, Keeps (pgpBoard F) A J C (pgpPinSetRc F rc)
  edit : ∀ f, Steady f → ∀ u b, J u b →
    swp (pgpBoard F) A (commit F (f u.o3.cur)) (fun _ u b => J u b) C u b
  setUif : ∀ v, Keeps (pgpBoard F) A J C (openpgpStateSetUif F v)
  activate : Keeps (pgpBoard F) A J C (pgpLifecycleActivate F)
  random : ∀ n, Keeps (pgpBoard F) A J C (onChip (tropicRandom n))
  hmac : ∀ key msg, Keeps (pgpBoard F) A J C (onChip (hmacSha256 key msg))
  eccErase : ∀ slot, Keeps (pgpBoard F) A J C (tropicEccErase slot)
  eccGenerate : ∀ slot curve, Keeps (pgpBoard F) A J C (tropicEccGenerate slot curve)
  pubkeyRead : ∀ slot, Keeps (pgpBoard F) A J C (tropicEccPubkeyRead slot)
  signAut : ∀ msg, Keeps (pgpBoard F) A J C (pgpKeysSignWithAut msg)
  touch : Keeps (pgpBoard F) A J C requireTouchIfEnabled
  unwrap : Keeps (pgpBoard F) A J C (leave .unwrap)
  drop : ∀ mask, Keeps (pgpBoard F) A J C (authDrop mask)

namespace Frame

variable {F : PgpPrims} {A : BoardFate → Prop} {J : PgpRam → Board Note → Prop}
  {C : Board Note → Prop} (fr : Frame F A J C)
include fr

/-! ### PINs -/

theorem pinStatus (which : Which) : Keeps (pgpBoard F) A J C (pgpPinStatus F which) := by
  apply keeps_get_bind
  intro u
  apply keeps_ite (keeps_pure _)
  apply keeps_ite (keeps_pure _)
  exact keeps_bind (fr.status which) fun _ => keeps_pure _

theorem pinVerify (which : Which) (pin : Bytes) :
    Keeps (pgpBoard F) A J C (pgpPinVerify F which pin) := by
  apply keeps_get_bind
  intro u
  apply keeps_ite (keeps_pure _)
  apply keeps_ite (keeps_pure _)
  apply keeps_ite (keeps_pure _)
  exact keeps_bind (fr.verify which _) fun _ => keeps_pure _

theorem pinChange (which : Which) (old new : Bytes) :
    Keeps (pgpBoard F) A J C (pgpPinChange F which old new) := by
  unfold pgpPinChange
  split
  · exact keeps_pure _
  · rename_i hrc
    apply keeps_ite (keeps_pure _)
    exact keeps_bind (fr.change which _ _ _ hrc) fun _ => keeps_pure _

theorem resetPw1Check (pin : Bytes) : Keeps (pgpBoard F) A J C (pgpPinResetPw1Check F pin) := by
  apply keeps_get_bind
  intro u
  apply keeps_ite (keeps_pure _)
  apply keeps_ite (keeps_pure _)
  exact keeps_bind (fr.pinStatus .pw1) fun _ => keeps_pure _

theorem resetPw1Pin (pin : Bytes) : Keeps (pgpBoard F) A J C (pgpPinResetPw1 F pin) := by
  apply keeps_get_bind
  intro u
  apply keeps_ite (keeps_pure _)
  apply keeps_ite (keeps_pure _)
  apply keeps_bind (keeps_bind (fr.setPw1 _ _) fun _ => keeps_pure _)
  intro ok
  exact keeps_ite (keeps_pure _) (keeps_pure _)

theorem pinAttempts (which : Which) : Keeps (pgpBoard F) A J C (pinAttempts F which) :=
  keeps_bind (fr.pinStatus which) fun _ => keeps_pure _

theorem retriesSw (which : Which) : Keeps (pgpBoard F) A J C (retriesSw F which) :=
  keeps_bind (fr.pinAttempts which) fun _ => keeps_pure _

theorem answerPin (rc : PinRc) (which : Which) :
    Keeps (pgpBoard F) A J C (answerPin F rc which) := by
  apply keeps_bind _ fun _ => keeps_pure _
  cases rc with
  | wrong => exact fr.retriesSw which
  | _ => exact keeps_pure _

theorem handleVerify {p2 : UInt8}
    (grant : ∀ flag, authFlag p2 = some flag → ∀ k, Keeps (pgpBoard F) A J C (authGrant flag k))
    (p1 : UInt8) (body : Bytes) : Keeps (pgpBoard F) A J C (handleVerify F p1 p2 body) := by
  unfold Pgp.handleVerify
  cases hflag : authFlag p2 with
  | none => exact keeps_pure _
  | some flag =>
      apply keeps_ite (keeps_pure _)
      apply keeps_ite
      · apply keeps_ite (keeps_pure _)
        exact keeps_bind (fr.drop _) fun _ => keeps_pure _
      · apply keeps_ite
        · apply keeps_get_bind
          intro u
          apply keeps_ite (keeps_pure _)
          exact keeps_bind (fr.retriesSw _) fun _ => keeps_pure _
        · apply keeps_bind (fr.pinVerify _ body)
          rintro ⟨rc, k⟩
          dsimp only
          apply keeps_ite
          · exact keeps_bind (grant flag hflag k) fun _ => fr.answerPin _ _
          · exact keeps_bind (fr.drop _) fun _ => fr.answerPin _ _

theorem handleChangeRef (p1 p2 : UInt8) (body : Bytes) :
    Keeps (pgpBoard F) A J C (handleChangeRef F p1 p2 body) := by
  apply keeps_ite (keeps_pure _)
  apply keeps_bind (fr.pinStatus _)
  intro st
  apply keeps_ite (keeps_pure _)
  apply keeps_ite (keeps_pure _)
  apply keeps_ite (keeps_pure _)
  apply keeps_bind (fr.drop _)
  intro _
  exact keeps_bind (fr.pinChange _ _ _) fun rc => fr.answerPin rc _

/-! ### Setters of O3 -/

theorem setBytes {off : ℕ} {v : Bytes} (h : Clear off v.length) :
    Keeps (pgpBoard F) A J C (setBytes F off v) := by
  intro u b hJ
  rw [Pgp.setBytes, swp_bind, swp_get]
  exact fr.edit _ (steady_patch h) u b hJ

theorem setName (data : Bytes) : Keeps (pgpBoard F) A J C (openpgpStateSetName F data) := by
  intro u b hJ
  rw [openpgpStateSetName, swp_bind, swp_get]
  split
  · exact hJ
  · rename_i hlen
    have hname : Clear offName data.length :=
      Clear.mono (n := nameMax) (by decide) (Nat.le_of_not_lt hlen)
    have hzero : Clear offName (List.replicate nameMax (0 : UInt8)).length := by
      rw [List.length_replicate]
      decide
    have hsize : Clear offNameLen [UInt8.ofNat data.length].length := by
      rw [List.length_singleton]
      decide
    exact fr.edit _ ((steady_patch hname).comp ((steady_patch hzero).comp (steady_patch hsize)))
      u b hJ

theorem decSet (rec : DecRec) : Keeps (pgpBoard F) A J C (openpgpStateDecSet F rec) := by
  intro u b hJ
  rw [openpgpStateDecSet, swp_bind, swp_get]
  split
  · exact hJ
  · exact fr.edit _ ((steady_patch (clear_behind (by decide) (by decide))).comp
      ((steady_patch (clear_behind (by decide) (by decide))).comp
        ((steady_patch (clear_behind (by decide) (by decide))).comp
          (steady_patch (clear_behind (by decide) (by decide)))))) u b hJ

theorem decDestroy : Keeps (pgpBoard F) A J C (openpgpStateDecDestroy F) := by
  intro u b hJ
  rw [openpgpStateDecDestroy, swp_bind, swp_get]
  dsimp only
  split
  · exact hJ
  split
  · exact hJ
  · have hfpr : Clear (offFpr + fprLen) (List.replicate fprLen (0 : UInt8)).length := by
      rw [List.length_replicate]
      decide
    have hgt : Clear (offGentime + gentimeLen) (List.replicate gentimeLen (0 : UInt8)).length := by
      rw [List.length_replicate]
      decide
    exact fr.edit _ ((steady_patch hgt).comp ((steady_patch hfpr).comp
      (steady_patch (clear_behind (by decide) (by decide))))) u b hJ

theorem resetPw1 (pw1 : Bytes) : Keeps (pgpBoard F) A J C (resetPw1 F pw1) := by
  apply keeps_bind (fr.drop _)
  intro _
  apply keeps_bind fr.decDestroy
  intro ok
  apply keeps_ite _ (keeps_pure _)
  exact keeps_bind (fr.resetPw1Pin pw1) fun rc => fr.answerPin rc _

theorem handleResetRc (p1 p2 : UInt8) (body : Bytes) :
    Keeps (pgpBoard F) A J C (handleResetRc F p1 p2 body) := by
  apply keeps_ite (keeps_pure _)
  apply keeps_ite
  · apply keeps_bind (fr.pinStatus .rc)
    intro st
    apply keeps_ite (keeps_pure _)
    apply keeps_ite (keeps_pure _)
    apply keeps_ite (keeps_pure _)
    apply keeps_ite (keeps_pure _)
    apply keeps_bind (fr.resetPw1Check _)
    intro check
    apply keeps_ite (fr.answerPin _ _)
    apply keeps_bind (fr.pinVerify .rc _)
    rintro ⟨rc, k⟩
    exact keeps_ite (fr.answerPin _ _) (fr.resetPw1 _)
  · apply keeps_get_bind
    intro u
    apply keeps_ite (keeps_pure _)
    apply keeps_bind (fr.resetPw1Check _)
    intro check
    exact keeps_ite (fr.answerPin _ _) (fr.resetPw1 _)

omit fr in
theorem answerSet {m : PgpM Bool} (hm : Keeps (pgpBoard F) A J C m) :
    Keeps (pgpBoard F) A J C (answerSet m) :=
  keeps_bind hm fun _ => keeps_ite (keeps_pure _) (keeps_pure _)

theorem putUif (body : Bytes) : Keeps (pgpBoard F) A J C (putUif F body) := by
  apply keeps_ite (keeps_pure _)
  apply keeps_ite (keeps_pure _)
  apply keeps_bind (fr.setUif _)
  intro r
  cases r <;> exact keeps_pure _

omit fr in
theorem putFixed {len : ℕ} {set : Bytes → PgpM Bool}
    (hset : ∀ v, v.length = len → Keeps (pgpBoard F) A J C (set v)) (body : Bytes) :
    Keeps (pgpBoard F) A J C (putFixed len body set) := by
  unfold Pgp.putFixed
  split
  · exact keeps_pure _
  · rename_i hlen
    exact answerSet (hset body (of_not_not hlen))

theorem setFingerprint {key : ℕ} (hkey : key ≤ 2) (v : Bytes) (hv : v.length = fprLen) :
    Keeps (pgpBoard F) A J C (openpgpStateSetFingerprint F key v) := by
  have hclear : ∀ k ≤ 2, Clear (offFpr + k * fprLen) fprLen := by decide
  apply keeps_ite (keeps_pure _)
  apply fr.setBytes
  rw [hv]
  exact hclear key hkey

theorem setGentime {key : ℕ} (hkey : key ≤ 2) (v : Bytes) (hv : v.length = gentimeLen) :
    Keeps (pgpBoard F) A J C (openpgpStateSetGentime F key v) := by
  have hclear : ∀ k ≤ 2, Clear (offGentime + k * gentimeLen) gentimeLen := by decide
  apply keeps_ite (keeps_pure _)
  apply fr.setBytes
  rw [hv]
  exact hclear key hkey

theorem handlePutData (tag : ℕ) (body : Bytes) :
    Keeps (pgpBoard F) A J C (handlePutData F tag body) := by
  apply keeps_get_bind
  intro u
  apply keeps_ite (keeps_pure _)
  split
  · exact keeps_ite (keeps_pure _) (answerSet (fr.setName body))
  · apply putFixed
    intro v hv
    apply fr.setBytes
    rw [hv]
    decide
  · apply keeps_ite (keeps_pure _)
    apply keeps_ite (keeps_pure _)
    apply answerSet
    exact keeps_ite (fr.setBytes (by rw [List.length_singleton]; decide)) (keeps_pure _)
  · apply keeps_ite (keeps_pure _)
    apply keeps_ite (keeps_pure _)
    apply answerSet
    exact keeps_ite (fr.setBytes (by rw [List.length_singleton]; decide)) (keeps_pure _)
  · exact keeps_bind (fr.setRc body) fun rc => fr.answerPin rc _
  · exact fr.putUif body
  · exact fr.putUif body
  · exact fr.putUif body
  · exact putFixed (fr.setFingerprint (by decide)) body
  · exact putFixed (fr.setFingerprint (by decide)) body
  · exact putFixed (fr.setFingerprint (by decide)) body
  · exact putFixed (fr.setGentime (by decide)) body
  · exact putFixed (fr.setGentime (by decide)) body
  · exact putFixed (fr.setGentime (by decide)) body
  · exact keeps_pure _

/-! ### Keys -/

theorem generateIn (slot : ℕ) : Keeps (pgpBoard F) A J C (generateIn slot) := by
  apply keeps_bind (fr.eccErase slot)
  rintro (_ | _)
  · exact keeps_pure _
  · apply keeps_bind (fr.eccGenerate slot _)
    rintro (_ | _)
    · exact keeps_pure _
    · apply keeps_bind (fr.pubkeyRead slot)
      rintro (_ | _) <;> exact keeps_pure _

theorem readPubkey (slot : ℕ) : Keeps (pgpBoard F) A J C (readPubkey slot) := by
  apply keeps_bind (fr.pubkeyRead slot)
  rintro (_ | _) <;> exact keeps_pure _

theorem decGenerate (kek : Bytes) : Keeps (pgpBoard F) A J C (pgpDecGenerate F kek) := by
  apply keeps_bind (fr.random _)
  rintro (_ | rnd)
  · exact keeps_pure _
  · apply keeps_bind
    · apply keeps_bind (fr.random _)
      rintro (_ | nonce)
      · exact keeps_pure _
      · dsimp only
        split <;> exact keeps_pure _
    · rintro (_ | rec)
      · exact keeps_pure _
      · apply keeps_bind (fr.decSet rec)
        intro ok
        exact keeps_ite (keeps_pure _) (keeps_pure _)

omit fr in
theorem decReadPubkey : Keeps (pgpBoard F) A J C pgpDecReadPubkey := by
  apply keeps_get_bind
  intro u
  cases u.o3.decGet <;> exact keeps_pure _

theorem generateDec : Keeps (pgpBoard F) A J C (generateDec F) := by
  apply keeps_get_bind
  intro u
  apply keeps_bind (fr.decGenerate _)
  intro r
  cases r with
  | ok pub => exact keeps_pure _
  | _ => exact keeps_bind (fr.drop _) fun _ => keeps_pure _

theorem handleGenerate (p1 p2 : UInt8) (body : Bytes) (max : ℕ) :
    Keeps (pgpBoard F) A J C (handleGenerate F p1 p2 body max) := by
  apply keeps_ite (keeps_pure _)
  apply keeps_ite (keeps_pure _)
  apply keeps_ite (keeps_pure _)
  apply keeps_get_bind
  intro u
  apply keeps_ite (keeps_pure _)
  apply keeps_ite
  · apply keeps_ite
    · exact keeps_bind (fr.generateIn _) fun _ => keeps_pure _
    · exact keeps_bind (fr.readPubkey _) fun _ => keeps_pure _
  apply keeps_ite
  · apply keeps_ite
    · exact keeps_bind decReadPubkey fun _ => keeps_pure _
    apply keeps_ite (keeps_pure _)
    exact keeps_bind fr.generateDec fun _ => keeps_pure _
  apply keeps_ite _ (keeps_pure _)
  apply keeps_ite
  · exact keeps_bind (fr.generateIn _) fun _ => keeps_pure _
  · exact keeps_bind (fr.readPubkey _) fun _ => keeps_pure _

theorem decEcdh (kek peer : Bytes) : Keeps (pgpBoard F) A J C (pgpDecEcdh F kek peer) := by
  apply keeps_get_bind
  intro u
  cases u.o3.decGet with
  | none => exact keeps_pure _
  | some rec =>
      apply keeps_bind fr.unwrap
      intro _
      cases openWrap F kek rec <;> exact keeps_pure _

theorem psoDec (body : Bytes) (max : ℕ) : Keeps (pgpBoard F) A J C (psoDec F body max) := by
  apply keeps_get_bind
  intro u
  apply keeps_ite (keeps_pure _)
  apply keeps_bind fr.touch
  intro ok
  apply keeps_ite _ (keeps_pure _)
  cases parsePsoDecBody body with
  | error _ => exact keeps_pure _
  | ok peer =>
      apply keeps_get_bind
      intro u
      apply keeps_bind (fr.decEcdh _ _)
      intro r
      cases r with
      | noKey => exact keeps_pure _
      | ok shared => exact keeps_pure _
      | _ => exact keeps_bind (fr.drop _) fun _ => keeps_pure _

theorem handleInternalAuth (p1 p2 : UInt8) (body : Bytes) (max : ℕ) :
    Keeps (pgpBoard F) A J C (handleInternalAuth p1 p2 body max) := by
  apply keeps_get_bind
  intro u
  apply keeps_ite (keeps_pure _)
  apply keeps_ite (keeps_pure _)
  apply keeps_bind fr.touch
  intro ok
  apply keeps_ite _ (keeps_pure _)
  apply keeps_ite (keeps_pure _)
  exact keeps_bind (fr.signAut body) fun _ => keeps_pure _

/-! ### The other commands -/

theorem handleActivateFile (p1 p2 : UInt8) :
    Keeps (pgpBoard F) A J C (handleActivateFile F p1 p2) := by
  apply keeps_get_bind
  intro u
  apply keeps_ite (keeps_pure _)
  apply keeps_ite (keeps_pure _)
  apply keeps_bind (fr.drop _)
  intro _
  apply keeps_bind fr.activate
  intro r
  cases r <;> exact keeps_pure _

theorem handleSelect (p1 p2 : UInt8) (aid : Bytes) :
    Keeps (pgpBoard F) A J C (handleSelect p1 p2 aid) := by
  apply keeps_ite (keeps_pure _)
  apply keeps_ite (keeps_pure _)
  exact keeps_bind (fr.drop _) fun _ => keeps_pure _

theorem buildPwStatus : Keeps (pgpBoard F) A J C (buildPwStatus F) := by
  apply keeps_get_bind
  intro u
  apply keeps_bind (fr.pinAttempts _)
  intro pw1
  apply keeps_bind (fr.pinAttempts _)
  intro rc
  exact keeps_bind (fr.pinAttempts _) fun _ => keeps_pure _

omit fr in
theorem emitConstructed {max tag : ℕ} {builder : Builder}
    (h : ∀ b, Keeps (pgpBoard F) A J C (builder b)) (b : Buf) :
    Keeps (pgpBoard F) A J C (emitConstructed max tag builder b) := by
  unfold Pgp.emitConstructed
  cases openConstructed max tag b with
  | error e => exact keeps_pure _
  | ok b' =>
      apply keeps_bind (h b')
      intro r
      cases r <;> exact keeps_pure _

theorem buildDo73 (max : ℕ) (b : Buf) : Keeps (pgpBoard F) A J C (buildDo73 F max b) := by
  unfold Pgp.buildDo73
  split
  · exact keeps_pure _
  · apply keeps_bind fr.buildPwStatus
    intro pw
    split
    · exact keeps_pure _
    · exact keeps_get_bind fun _ => keeps_pure _

theorem buildDo6e (max : ℕ) (b : Buf) : Keeps (pgpBoard F) A J C (buildDo6e F max b) := by
  unfold Pgp.buildDo6e
  split
  · exact keeps_pure _
  · exact emitConstructed (fr.buildDo73 max) _

omit fr in
theorem compositeDo {out : Bytes} {tag : ℕ} {builder : Builder}
    (h : ∀ b, Keeps (pgpBoard F) A J C (builder b)) :
    Keeps (pgpBoard F) A J C (compositeDo out tag builder) := by
  apply keeps_bind (emitConstructed h _)
  intro r
  cases r <;> exact keeps_pure _

theorem handleGetData (tag : ℕ) (out : Bytes) :
    Keeps (pgpBoard F) A J C (handleGetData F tag out) := by
  apply keeps_get_bind
  intro u
  dsimp only
  split
  case h_5 => exact compositeDo fun b => keeps_get_bind fun _ => keeps_pure _
  case h_6 => exact compositeDo (fr.buildDo6e _)
  case h_7 => exact compositeDo fun b => keeps_get_bind fun _ => keeps_pure _
  case h_13 => exact keeps_bind fr.buildPwStatus fun _ => keeps_pure _
  all_goals exact keeps_pure _

/-- Every command, given the rules of granting access, of the signature key and of
TERMINATE. -/
theorem handle {a : Apdu} {out : Bytes}
    (grant : a.ins = insVerify → ∀ flag, authFlag a.p2 = some flag → ∀ k,
      Keeps (pgpBoard F) A J C (authGrant flag k))
    (sign : a.isCds → Keeps (pgpBoard F) A J C (psoCds F a.body out.length))
    (term : a.ins = insTerminateDf → Keeps (pgpBoard F) A J C (handleTerminateDf F a.p1 a.p2)) :
    Keeps (pgpBoard F) A J C (handle F a out) := by
  apply keeps_ite (fr.handleSelect _ _ _)
  apply keeps_ite (fr.handleGetData _ _)
  split
  · rename_i h
    exact fr.handleVerify (grant h) _ _
  apply keeps_ite (fr.handleChangeRef _ _ _)
  apply keeps_ite (fr.handleResetRc _ _ _)
  apply keeps_ite (fr.handlePutData _ _)
  split
  · rename_i h
    exact term h
  apply keeps_ite (fr.handleActivateFile _ _)
  apply keeps_ite (fr.handleGenerate _ _ _ _)
  split
  · rename_i h
    apply keeps_ite (fr.psoDec _ _)
    split
    · exact keeps_pure _
    · rename_i hp
      exact sign ⟨h, of_not_not fun h1 => hp (.inl h1), of_not_not fun h2 => hp (.inr h2)⟩
  exact keeps_ite (fr.handleInternalAuth _ _ _ _) (keeps_pure _)

end Frame

end Nixtropic.Pgp
