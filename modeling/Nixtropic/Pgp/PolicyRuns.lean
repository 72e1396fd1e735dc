import Nixtropic.Pgp.PolicySteps
import Nixtropic.Tropic.RecPairRuns

/-!
The touch flag and the count over every run of the card.

A command is served with O3 loaded, or by a card that nobody has access to. With O3
loaded a signature has its increment, and the note of the command says from which
count; without access there is no signature.
-/

namespace Nixtropic.Pgp

open Crash Runs

/-! ### Answers -/

/-- The status word is 9000. -/
def Resp.isOk (r : Resp) : Prop := be16 r.sw = be16 swOk

instance (r : Resp) : Decidable r.isOk := inferInstanceAs (Decidable (_ = _))

/-- Any other status word is a refusal. -/
theorem not_isOk {sw : ℕ} (h : be16 sw ≠ be16 swOk) : ¬(Resp.bare sw).isOk := h

theorem isOk_of_answered {max : ℕ} {r : Resp} (h : AnsweredOk (emitSw max r)) : r.isOk := by
  obtain ⟨data, h⟩ := h
  unfold emitSw at h
  split at h
  · cases h
  · exact (List.append_inj' (Option.some.inj h) rfl).2

/-- Key use: PSO:CDS, PSO:DEC or INTERNAL AUTHENTICATE. -/
def Apdu.usesKey (a : Apdu) : Prop :=
  a.isCds ∨ (a.ins = insPso ∧ a.p1 = 0x80 ∧ a.p2 = 0x86) ∨ a.ins = insInternalAut

/-- Someone touched the key between the two boards. -/
def Touched (b b' : Board Note) : Prop :=
  ∃ new, b'.notes = new ++ b.notes ∧ ∃ e ∈ new, e.note = .touch .ok

theorem Touched.later {b b' b'' : Board Note} (h : Touched b b') (hle : b'.notes <:+ b''.notes) :
    Touched b b'' := by
  obtain ⟨new, hnew, e, he, hok⟩ := h
  obtain ⟨more, hmore⟩ := hle
  refine ⟨more ++ new, ?_, e, List.mem_append_right _ he, hok⟩
  rw [← hmore, hnew, List.append_assoc]

theorem Touched.earlier {b b' b'' : Board Note} (h : Touched b' b'') (hle : b.notes <:+ b'.notes) :
    Touched b b'' := by
  obtain ⟨new, hnew, e, he, hok⟩ := h
  obtain ⟨more, hmore⟩ := hle
  refine ⟨new ++ more, ?_, e, List.mem_append_left _ he, hok⟩
  rw [hnew, ← hmore, List.append_assoc]

/-- O3 holds a touch flag that is permanent. -/
def HoldsPermanent (F : PgpPrims) (b : Board Note) : Prop :=
  ∃ p, O3At F b.chip.rmem p ∧ p.getD offUif 0 = 2 ∧ p.getD offLc 0 = Lifecycle.operational.code

section Use

variable {F : PgpPrims} {A : BoardFate → Prop} {u : PgpRam} {b : Board Note}

theorem uif_zero {r : O3Ram} (h : r.uif = 0) : r.usable = true ∧ r.cur.getD offUif 0 = 0 := by
  unfold O3Ram.uif at h
  split at h
  · rename_i hu
    exact ⟨hu, h⟩
  · cases h

theorem swp_requireTouch {Q : Bool → PgpRam → Board Note → Prop} {C : Board Note → Prop}
    (hoff : u.o3.uif = 0 → Q true u b)
    (hasked : ∀ r d, Q (decide (r = .ok)) u ((b.wait d).jot (.touch r))) (hcut : C b) :
    swp (pgpBoard F) A requireTouchIfEnabled Q C u b := by
  rw [requireTouchIfEnabled, swp_bind, swp_get]
  split
  · rename_i h
    exact hoff h
  · rw [swp_bind]
    apply swp_userPresenceCheck
    · intro r d
      rw [swp_bind]
      exact swp_leave (hasked r d)
    · exact fun _ => hcut

/-- What runs behind the touch was touched for. -/
theorem swp_behindTouch {m : PgpM Resp} :
    swp (pgpBoard F) A (do
        if ← requireTouchIfEnabled then m else pure (.bare swSecurityNotSatisfied))
      (fun r _ b' => r.isOk → u.o3.uif = 0 ∨ Touched b b') (fun _ => True) u b := by
  rw [swp_bind]
  apply swp_requireTouch _ _ trivial
  · exact fun h => wp_any (fun _ _ _ => .inl h) fun _ => trivial
  · intro r d
    split
    · rename_i hr
      have htouch : Touched b ((b.wait d).jot (.touch r)) := by
        rw [of_decide_eq_true hr]
        exact ⟨[_], rfl, _, List.mem_singleton_self _, rfl⟩
      apply swp_mono (swp_notes m) _ fun _ _ => trivial
      exact fun _ _ _ hle _ => .inr (htouch.later hle)
    · exact fun h => absurd h (not_isOk (by decide))

/-! ### Uses of a key -/

theorem handle_pso {a : Apdu} {out : Bytes} (h : a.ins = insPso) :
    handle F a out = handlePso F a.p1 a.p2 a.body out.length := by
  obtain ⟨ins, p1, p2, body⟩ := a
  subst h
  rfl

theorem handle_cds {a : Apdu} {out : Bytes} (h : a.isCds) :
    handle F a out = psoCds F a.body out.length := by
  obtain ⟨hins, h1, h2⟩ := h
  rw [handle_pso hins, h1, h2]
  rfl

theorem swp_psoDec_touch {body : Bytes} {max : ℕ} :
    swp (pgpBoard F) A (psoDec F body max) (fun r _ b' => r.isOk → u.o3.uif = 0 ∨ Touched b b')
      (fun _ => True) u b := by
  rw [psoDec, swp_bind, swp_get]
  split
  · exact fun h => absurd h (not_isOk (by decide))
  · exact swp_behindTouch

theorem swp_psoCds_touch {body : Bytes} {max : ℕ} :
    swp (pgpBoard F) A (psoCds F body max) (fun r _ b' => r.isOk → u.o3.uif = 0 ∨ Touched b b')
      (fun _ => True) u b := by
  rw [psoCds, swp_bind, swp_get]
  split
  · exact fun h => absurd h (not_isOk (by decide))
  · dsimp only
    split
    · rw [swp_bind, authDrop, swp_modify]
      exact swp_behindTouch
    · exact swp_behindTouch

theorem swp_internalAuth_touch {p1 p2 : UInt8} {body : Bytes} {max : ℕ} :
    swp (pgpBoard F) A (handleInternalAuth p1 p2 body max)
      (fun r _ b' => r.isOk → u.o3.uif = 0 ∨ Touched b b') (fun _ => True) u b := by
  rw [handleInternalAuth, swp_bind, swp_get]
  split
  · exact fun h => absurd h (not_isOk (by decide))
  split
  · exact fun h => absurd h (not_isOk (by decide))
  · exact swp_behindTouch

theorem swp_use_touch {a : Apdu} {out : Bytes} (h : a.usesKey) :
    swp (pgpBoard F) A (handle F a out) (fun r _ b' => r.isOk → u.o3.uif = 0 ∨ Touched b b')
      (fun _ => True) u b := by
  rcases h with h | ⟨hins, h1, h2⟩ | h
  · rw [handle_cds h]
    exact swp_psoCds_touch
  · rw [handle_pso hins, h1, h2]
    exact swp_psoDec_touch
  · obtain ⟨ins, p1, p2, body⟩ := a
    subst h
    exact swp_internalAuth_touch

/-- Without access by PW1 no key is used. -/
theorem swp_use_locked {a : Apdu} {out : Bytes} (h : a.usesKey) (hu : Locked u) :
    swp (pgpBoard F) A (handle F a out) (fun r u' b' => ¬r.isOk ∧ u' = u ∧ b' = b)
      (fun _ => False) u b := by
  obtain ⟨h81, h82⟩ : u.auth.a81 = false ∧ u.auth.a82 = false := by
    simpa [Locked, Auth.hasPw1] using hu
  rcases h with h | ⟨hins, h1, h2⟩ | h
  · rw [handle_cds h, psoCds, swp_bind, swp_get, if_pos h81]
    exact ⟨not_isOk (by decide), rfl, rfl⟩
  · rw [handle_pso hins, h1, h2, handlePso, if_pos ⟨rfl, rfl⟩, psoDec, swp_bind, swp_get,
      if_pos h82]
    exact ⟨not_isOk (by decide), rfl, rfl⟩
  · obtain ⟨ins, p1, p2, body⟩ := a
    subst h
    show swp _ A (handleInternalAuth p1 p2 body out.length) _ _ u b
    rw [handleInternalAuth, swp_bind, swp_get]
    split
    · exact ⟨not_isOk (by decide), rfl, rfl⟩
    · exact ⟨not_isOk (by decide), rfl, rfl⟩

end Use

/-! ### A signature -/

section Sign

variable {F : PgpPrims} {A : BoardFate → Prop} {R : PgpRam → Prop} {u : PgpRam} {b : Board Note}
  (hA : ∀ f, A f → Honest F f) (hR : Lasting R)
include hA hR

/-- An increment that does not wrap around. -/
theorem swp_sigCounterIncrement (h : Held F R (Ledger F) u b)
    (hsmall : u.o3.usable = true → Unwrapped F b → sigCount u.o3.cur + 1 < 2 ^ 24) :
    swp (pgpBoard F) A (openpgpStateSigCounterIncrement F)
      (fun ok u' b' => Held F R (Ledger F) u' b' ∧ (ok = true → u.o3.usable = true ∧
        b'.notes = b.notes ∧ ∃ p, O3Both F b'.chip.rmem p ∧
          p.getD offLc 0 = Lifecycle.operational.code ∧
          sigCount p = (sigCount u.o3.cur + 1) % 2 ^ 24)) (Ledger F) u b := by
  rw [openpgpStateSigCounterIncrement, swp_bind, swp_get]
  dsimp only
  have hc : (sigCount u.o3.cur + 1) % 2 ^ 24 < 2 ^ 24 := Nat.mod_lt _ (by decide)
  generalize hnext : (sigCount u.o3.cur + 1) % 2 ^ 24 = c at hc ⊢
  have hlc : o3Len ≤ u.o3.cur.length → (patch u.o3.cur offSigcnt
      [UInt8.ofNat (c / 2 ^ 16), UInt8.ofNat (c / 2 ^ 8), UInt8.ofNat c]).getD offLc 0 =
        u.o3.cur.getD offLc 0 := by
    intro hl
    exact getD_patch (Nat.le_trans (by decide) hl) (.inl (by decide))
  refine swp_mono (swp_and (held_commit hA hR h ?_ hlc ?_ ?_) (swp_commit hA
    (Q := fun ok u' b' => ok = true → u.o3.usable = true ∧ b'.notes = b.notes ∧
      ∃ p, O3Both F b'.chip.rmem p ∧ p.getD offLc 0 = Lifecycle.operational.code ∧
        sigCount p = c)
    (C := fun _ => True) (fun hu => (h.synced hu).1) ?_ ?_ ?_ ?_ ?_)) (fun _ _ _ h => h)
    fun _ h => h.1
  · exact fun hl => hl.trans (le_length_patch (Nat.le_trans (by decide) hl))
  · intro hu hl hun
    rw [sigCount_patch hl hc, ← hnext, Nat.mod_eq_of_lt (hsmall hu hun)]
    exact Nat.le_succ _
  · exact fun _ h2 hl => (getD_patch (Nat.le_trans (by decide) hl) (.inl (by decide))).trans h2
  · exact fun _ h => by cases h
  · intro w hop hboth _ _
    obtain ⟨hu, hcode⟩ := lifecycle_operational.mp hop
    have hl := (h.synced hu).2
    exact ⟨hu, rfl, _, hboth, (hlc hl).trans hcode, sigCount_patch hl hc⟩
  · exact fun _ _ _ _ _ h => by cases h
  · exact fun _ _ _ _ h => by cases h
  · exact fun _ _ _ _ => trivial

omit hA hR in
/-- The counter has room for the signature that the latest command asks for. -/
theorem room_of_unwrapped {b₀ : Board Note} {inp : Bytes} {a : Apdu} (hcmd : framed inp = .ok a)
    (ha : a.isCds) (h : Held F R (Ledger F) u (b₀.jot (.apdu inp))) (hus : u.o3.usable = true)
    (hun : Unwrapped F (b₀.jot (.apdu inp))) : sigCount u.o3.cur + 1 < 2 ^ 24 := by
  have hasks : AsksSignature ⟨.apdu inp, b₀.now, b₀.chip.rmem, b₀.ecc⟩ := ⟨inp, a, rfl, hcmd, ha⟩
  refine hun _ ?_ hasks _ (h.synced hus).1
  rw [sinceWipe_jot (fun h => by cases h)]
  exact List.mem_cons_self

/-- PSO:CDS behind the touch: the notes `mid` left since the command are no commands. -/
theorem held_counted {b₀ : Board Note} {inp : Bytes} {a : Apdu} (hcmd : framed inp = .ok a)
    (ha : a.isCds) (h : Held F R (Ledger F) u (b₀.jot (.apdu inp))) {u₁ : PgpRam}
    {b₁ : Board Note} {mid : List (Entry Note)} (h₁ : Held F R (Ledger F) u₁ b₁)
    (hu₁ : u₁.o3 = u.o3) (hnotes : b₁.notes = mid ++ (b₀.jot (.apdu inp)).notes)
    (hmid : ∀ m ∈ mid, isSignature m = false ∧ ∀ inp, m.note ≠ .apdu inp)
    (hun : Unwrapped F b₁ → Unwrapped F (b₀.jot (.apdu inp))) (body : Bytes) (max : ℕ) :
    swp (pgpBoard F) A (do
      if body.length = 0 then pure (.bare swWrongLength)
      else if ← openpgpStateSigCounterIncrement F then do
        let r ← pgpKeysSignWithSig body
        pure (answerSig max r)
      else pure (.bare swUnknownError)) (fun _ u' b' => Held F R (Ledger F) u' b') (Ledger F)
      u₁ b₁ := by
  have hasks : AsksSignature ⟨.apdu inp, b₀.now, b₀.chip.rmem, b₀.ecc⟩ := ⟨inp, a, rfl, hcmd, ha⟩
  have hsmall : u₁.o3.usable = true → Unwrapped F b₁ → sigCount u₁.o3.cur + 1 < 2 ^ 24 := by
    intro hus hunw
    rw [hu₁] at hus ⊢
    exact room_of_unwrapped hcmd ha h hus (hun hunw)
  split
  · exact h₁
  · rename_i hbody
    rw [swp_bind]
    apply swp_mono (swp_sigCounterIncrement hA hR h₁ hsmall) _ fun _ h => h
    rintro (_ | _) u₂ b₂ ⟨h₂, hdone⟩
    · exact h₂
    · obtain ⟨hus, hnotes₂, p, hboth, hlc, hp⟩ := hdone rfl
      have hcount : Unwrapped F b₂ → signatures b₂ + 1 ≤ sigCount p := by
        intro hunw
        rw [Unwrapped, hnotes₂] at hunw
        rw [signatures, hnotes₂, hp, Nat.mod_eq_of_lt (hsmall hus hunw)]
        exact Nat.succ_le_succ (h₁.board.counted hunw _ (h₁.synced hus).1)
      have hown : CountedBy F ⟨.sign sigSlot, b₂.now, b₂.chip.rmem, b₂.ecc⟩ b₂.notes := by
        rw [hu₁] at hus hp
        have hat := (h.synced hus).1
        exact ⟨mid, _, b₀.notes, hnotes₂.trans hnotes, hasks, hmid, _, p, hat, hboth, hp⟩
      have hsigned : Held F R (Ledger F) u₂ (b₂.jot (.sign sigSlot)) :=
        ⟨h₂.ram, h₂.synced.same rfl fun _ => Iff.rfl, h₂.board.sign hboth.at hlc hcount hown⟩
      rw [if_pos rfl, swp_bind, pgpKeysSignWithSig, signWith, if_neg hbody, swp_bind]
      apply swp_leave
      refine keeps_bind (held_eddsaSign (ofO3_ledger F) _ _) (fun r => ?_) _ _ hsigned
      cases r with
      | error _ => exact keeps_pure _
      | ok sig => exact keeps_pure _

/-- PSO:CDS, with the note of the command as the latest one. -/
theorem held_psoCds {b₀ : Board Note} {inp : Bytes} {a : Apdu} (hb : b = b₀.jot (.apdu inp))
    (hcmd : framed inp = .ok a) (ha : a.isCds) (h : Held F R (Ledger F) u b) (body : Bytes)
    (max : ℕ) :
    swp (pgpBoard F) A (psoCds F body max) (fun _ u' b' => Held F R (Ledger F) u' b') (Ledger F)
      u b := by
  subst hb
  have htouch : ∀ u₁ : PgpRam, Held F R (Ledger F) u₁ (b₀.jot (.apdu inp)) → u₁.o3 = u.o3 →
      swp (pgpBoard F) A (do
        if ← requireTouchIfEnabled then
          if body.length = 0 then pure (.bare swWrongLength)
          else if ← openpgpStateSigCounterIncrement F then do
            let r ← pgpKeysSignWithSig body
            pure (answerSig max r)
          else pure (.bare swUnknownError)
        else pure (.bare swSecurityNotSatisfied)) (fun _ u' b' => Held F R (Ledger F) u' b')
        (Ledger F) u₁ (b₀.jot (.apdu inp)) := by
    intro u₁ h₁ hu₁
    rw [swp_bind]
    apply swp_requireTouch
    · intro _
      exact held_counted hA hR hcmd ha h h₁ hu₁ (List.nil_append _).symm (fun m hm => by cases hm)
        id body max
    · intro r d
      have hwait : Ledger F ((b₀.jot (.apdu inp)).wait d) := h₁.board.same rfl fun _ => Iff.rfl
      have h₂ : Held F R (Ledger F) u₁ (((b₀.jot (.apdu inp)).wait d).jot (.touch r)) :=
        ⟨h₁.ram, h₁.synced.same rfl fun _ => Iff.rfl, hwait.jot (fun h => by cases h)
          (fun h => by cases h) fun _ _ h => by cases h⟩
      split
      · refine held_counted hA hR hcmd ha h h₂ hu₁ (List.singleton_append).symm (fun m hm => ?_)
          (fun hun => hun.older fun h => by cases h) body max
        obtain rfl := List.mem_singleton.mp hm
        exact ⟨rfl, fun inp h => by cases h⟩
      · exact h₂
    · exact h₁.board
  rw [psoCds, swp_bind, swp_get]
  split
  · exact h
  · dsimp only
    split
    · have hdrop := held_drop (A := A) hR ⟨true, false, false⟩ u (b₀.jot (.apdu inp)) h
      rw [authDrop, swp_modify] at hdrop
      rw [swp_bind, authDrop, swp_modify]
      exact htouch _ hdrop rfl
    · exact htouch u h rfl

end Sign

/-! ### The state is there, or nobody has access -/

theorem gate_not_ok {lc : Lifecycle} {a : Apdu} {sw : ℕ} (h : gate lc a = some sw) :
    ¬(Resp.bare sw).isOk := by
  unfold gate at h
  split at h
  · cases h
  · split at h
    · cases h
      exact not_isOk (by decide)
    · cases h
  · split at h
    · cases h
      exact not_isOk (by decide)
    · cases h

/-- What a card without O3 still does. -/
theorem gate_error {a : Apdu} (h : gate .error a = none) :
    a.ins = insSelect ∨ a.ins = insTerminateDf ∨ (a.ins = insVerify ∧ a.p2 = 0x83) := by
  unfold gate at h
  dsimp only at h
  split at h
  · cases h
  · rename_i hno
    by_contra hcon
    exact hno ⟨fun h => hcon (.inl h), fun h => hcon (.inr (.inl h)), fun h => hcon (.inr (.inr h))⟩

theorem lifecycle_off {r : O3Ram} (h : r.loaded = false) : r.lifecycle = .error := by
  simp [O3Ram.lifecycle, O3Ram.usable, h]

section Serve

variable {F : PgpPrims} {A : BoardFate → Prop} {u : PgpRam} {b : Board Note}
  (hA : ∀ f, A f → Honest F f)
include hA

theorem swp_ensure (h : Held F Guarded (Ledger F) u b) :
    swp (pgpBoard F) A (pgpLifecycleEnsure F)
      (fun _ u' b' => (u.o3.loaded = true ∧ u' = u ∧ b' = b) ∨ Held F Locked (Ledger F) u' b')
      (Ledger F) u b := by
  rw [pgpLifecycleEnsure, swp_bind, swp_get]
  rcases h.ram with hl | hlocked
  · rw [if_pos (.inl hl)]
    exact .inl ⟨hl, rfl, rfl⟩
  · have h₀ : Held F Locked (Ledger F) u b := ⟨hlocked, h.synced, h.board⟩
    split
    · exact .inr h₀
    · rw [swp_bind, swp_modify, swp_bind]
      have h₁ : Held F Locked (Ledger F) { u with bootTries := u.bootTries + 1 } b :=
        ⟨hlocked, h.synced, h.board⟩
      exact (held_boot hA).swp h₁ (fun _ _ _ h => .inr h) fun _ h => h

/-- A use of a key that is answered with 9000 was touched for, unless the copy of O3
in use says that no touch is wanted. -/
theorem swp_serve_touch (h : Held F Guarded (Ledger F) u b) {a : Apdu} {out : Bytes}
    (ha : a.usesKey) :
    swp (pgpBoard F) A (serve F a out) (fun r _ b' => r.isOk →
      (u.o3.uif = 0 ∧ O3At F b.chip.rmem u.o3.cur) ∨ Touched b b') (fun _ => True) u b := by
  rw [serve, swp_bind]
  apply swp_mono (swp_ensure hA h) _ fun _ _ => trivial
  rintro _ u' b' hens
  rw [swp_bind, swp_get]
  cases hg : gate u'.o3.lifecycle a with
  | some sw => exact fun hok => absurd hok (gate_not_ok hg)
  | none =>
      rcases hens with ⟨-, rfl, rfl⟩ | hlocked
      · apply swp_mono (swp_use_touch ha) _ fun _ _ => trivial
        intro r _ b'' huse hok
        rcases huse hok with h0 | htouch
        · exact .inl ⟨h0, (h.synced (uif_zero h0).1).1⟩
        · exact .inr htouch
      · apply swp_mono (swp_use_locked ha hlocked.ram) _ fun _ _ => trivial
        exact fun r _ _ hno hok => absurd hok hno.1

omit hA in
/-- With O3 loaded access may be granted. -/
theorem grant_loaded (flag : Flag) (k : Bytes) :
    Keeps (pgpBoard F) A (Held F (fun u => u.o3.loaded = true) (Ledger F)) (Ledger F)
      (authGrant flag k) := by
  apply keeps_ite
  · apply keeps_bind (held_perform lasting_loaded (ofO3_ledger F) (o := .hmac k kekLabel) trivial)
    intro kek
    apply keeps_modify
    exact fun u b h => ⟨h.ram, h.synced.same rfl fun _ => Iff.rfl, h.board⟩
  · apply keeps_modify
    exact fun u b h => ⟨h.ram, h.synced.same rfl fun _ => Iff.rfl, h.board⟩

omit hA in
/-- Access by PW3 is not access by PW1. -/
theorem grant_locked (k : Bytes) :
    Keeps (pgpBoard F) A (Held F Locked (Ledger F)) (Ledger F) (authGrant .f83 k) := by
  apply keeps_modify
  intro u b h
  have hno : (u.auth.a81 || u.auth.a82) = false := h.ram
  refine ⟨?_, h.synced.same rfl fun _ => Iff.rfl, h.board⟩
  simpa [Locked, Auth.with, Flag.mask, Auth.hasPw1] using hno

/-- A command behind the gate. -/
theorem held_serve {b₀ : Board Note} {inp : Bytes} {a : Apdu} (hb : b = b₀.jot (.apdu inp))
    (hcmd : framed inp = .ok a) (h : Held F Guarded (Ledger F) u b) (out : Bytes) :
    swp (pgpBoard F) A (serve F a out) (fun _ u' b' => Held F Guarded (Ledger F) u' b') (Ledger F)
      u b := by
  rw [serve, swp_bind]
  apply swp_mono (swp_ensure hA h) _ fun _ h => h
  rintro _ u' b' hens
  rw [swp_bind, swp_get]
  have hheld : Held F Guarded (Ledger F) u' b' := by
    rcases hens with ⟨-, rfl, rfl⟩ | hlocked
    · exact h
    · exact hlocked.imp Locked.guarded
  cases hg : gate u'.o3.lifecycle a with
  | some sw => exact hheld
  | none =>
      dsimp only
      by_cases hterm : a.ins = insTerminateDf
      · have hhandle : handle F a out = handleTerminateDf F a.p1 a.p2 := by
          obtain ⟨ins, p1, p2, body⟩ := a
          subst hterm
          rfl
        rw [hhandle]
        exact held_handleTerminateDf hA _ _ u' b' hheld
      by_cases hcds : a.isCds
      · rcases hens with ⟨hl, rfl, rfl⟩ | hlocked
        · rw [handle_cds hcds]
          apply swp_mono (held_psoCds hA lasting_loaded hb hcmd hcds ⟨hl, h.synced, h.board⟩ _ _)
            _ fun _ h => h
          exact fun _ _ _ h => h.imp .inl
        · apply swp_mono (swp_use_locked (.inl hcds) hlocked.ram) _ fun _ h => h.elim
          rintro _ _ _ ⟨-, rfl, rfl⟩
          exact hheld
      · by_cases hl : u'.o3.loaded = true
        · have hkeeps : Keeps (pgpBoard F) A _ _ (handle F a out) :=
            (policy_frame hA lasting_loaded).handle (fun _ flag _ k => grant_loaded flag k)
              (fun h => absurd h hcds) fun h => absurd h hterm
          exact hkeeps.swp ⟨hl, hheld.synced, hheld.board⟩ (fun _ _ _ h => h.imp .inl) fun _ h => h
        · have hlocked : Locked u' := hheld.ram.resolve_left hl
          rw [lifecycle_off (Bool.eq_false_iff.mpr hl)] at hg
          have hkeeps : Keeps (pgpBoard F) A _ _ (handle F a out) :=
            (policy_frame hA lasting_locked).handle (fun hv flag hflag k => by
              rcases gate_error hg with hs | ht | ⟨-, h2⟩
              · rw [hs] at hv
                cases hv
              · exact absurd ht hterm
              · rw [h2] at hflag
                cases hflag
                exact grant_locked k)
            (fun h => absurd h hcds) fun h => absurd h hterm
          exact hkeeps.swp ⟨hlocked, hheld.synced, hheld.board⟩
            (fun _ _ _ h => h.imp Locked.guarded) fun _ h => h

/-- A permanent touch flag is in O3 before it is acknowledged. -/
theorem swp_putUif_permanent {R : PgpRam → Prop} {L : Board Note → Prop} (h : Held F R L u b)
    {body : Bytes} (hbody : body.getD 0 0 = 2) :
    swp (pgpBoard F) A (putUif F body) (fun r _ b' => r.isOk → HoldsPermanent F b')
      (fun _ => True) u b := by
  unfold putUif
  split
  · exact fun h => absurd h (not_isOk (by decide))
  split
  · exact fun h => absurd h (not_isOk (by decide))
  rw [hbody, swp_bind, openpgpStateSetUif, swp_bind, swp_get]
  split
  · exact fun h => absurd h (not_isOk (by decide))
  split
  · exact fun h => absurd h (not_isOk (by decide))
  rw [swp_bind, setBytes, swp_bind, swp_get]
  apply swp_commit hA fun hu => (h.synced hu).1
  · exact fun _ h => absurd h (not_isOk (by decide))
  · intro w hop hboth _ _
    obtain ⟨hu, hlc⟩ := lifecycle_operational.mp hop
    have hl := (h.synced hu).2
    exact ⟨_, hboth.at, getD_patch_self 2 hl (by decide),
      (getD_patch_byte 2 hl (by decide) (by decide)).trans hlc⟩
  · exact fun _ _ _ _ _ h => absurd h (not_isOk (by decide))
  · exact fun _ _ _ _ h => absurd h (not_isOk (by decide))
  · exact fun _ _ _ _ => trivial

theorem swp_serve_permanent (h : Held F Guarded (Ledger F) u b) {a : Apdu} {out : Bytes}
    (ha : a.setsPermanent) :
    swp (pgpBoard F) A (serve F a out) (fun r _ b' => r.isOk → HoldsPermanent F b')
      (fun _ => True) u b := by
  obtain ⟨ins, p1, p2, body⟩ := a
  obtain ⟨hins, htag, hbody⟩ := ha
  dsimp only at hins htag hbody
  subst hins
  rw [serve, swp_bind]
  apply swp_mono (swp_ensure hA h) _ fun _ _ => trivial
  rintro _ u' b' hens
  have hheld : Held F Guarded (Ledger F) u' b' := by
    rcases hens with ⟨-, rfl, rfl⟩ | hlocked
    · exact h
    · exact hlocked.imp Locked.guarded
  rw [swp_bind, swp_get]
  cases hg : gate u'.o3.lifecycle ⟨insPutData, p1, p2, body⟩ with
  | some sw => exact fun hok => absurd hok (gate_not_ok hg)
  | none =>
      have hput : handle F ⟨insPutData, p1, p2, body⟩ out = get >>= fun u =>
          if u.auth.a83 = false then pure (.bare swSecurityNotSatisfied) else putUif F body := by
        show handlePutData F (tagOf p1 p2) body = _
        simp only [List.mem_cons, List.not_mem_nil, or_false] at htag
        rcases htag with htag | htag | htag <;> rw [htag] <;> rfl
      dsimp only
      rw [hput, swp_bind, swp_get]
      split
      · exact fun h => absurd h (not_isOk (by decide))
      · exact swp_putUif_permanent hA hheld hbody

/-- A use of a key, with its answer. -/
theorem swp_cardApdu_touch (h : Held F Guarded (Ledger F) u b) {inp out : Bytes} {a : Apdu}
    (hcmd : framed inp = .ok a) (ha : a.usesKey) :
    swp (pgpBoard F) A (cardApdu F inp out) (fun r _ b' => AnsweredOk r →
      (u.o3.uif = 0 ∧ O3At F b.chip.rmem u.o3.cur) ∨ Touched b b') (fun _ => True) u b := by
  have h₁ : Held F Guarded (Ledger F) u (b.jot (.apdu inp)) :=
    ⟨h.ram, h.synced.same rfl fun _ => Iff.rfl,
      h.board.jot (fun h => by cases h) (fun h => by cases h) fun _ _ h => by cases h⟩
  rw [cardApdu, swp_bind]
  apply swp_leave
  rw [apduDispatchProcess_served hcmd, bind_assoc, swp_bind]
  apply swp_mono (swp_serve_touch hA h₁ ha) _ fun _ _ => trivial
  intro r u' b' huse
  rw [pure_bind, swp_bind]
  apply swp_leave
  intro hok
  rcases huse (isOk_of_answered hok) with hoff | htouch
  · exact .inl hoff
  · exact .inr ((htouch.earlier (List.suffix_cons _ _)).later (List.suffix_cons _ _))

theorem held_cardApdu (inp out : Bytes) :
    Keeps (pgpBoard F) A (Held F Guarded (Ledger F)) (Ledger F) (cardApdu F inp out) := by
  intro u b h
  have h₁ : Held F Guarded (Ledger F) u (b.jot (.apdu inp)) :=
    ⟨h.ram, h.synced.same rfl fun _ => Iff.rfl,
      h.board.jot (fun h => by cases h) (fun h => by cases h) fun _ _ h => by cases h⟩
  have hprocess : swp (pgpBoard F) A (apduDispatchProcess F inp out) (fun r u' b' =>
      Held F Guarded (Ledger F) u' b' ∧ ∀ a, framed inp = .ok a → a.setsPermanent →
        AnsweredOk r → HoldsPermanent F b') (Ledger F) u (b.jot (.apdu inp)) := by
    cases hcmd : framed inp with
    | error sw =>
        rw [apduDispatchProcess_refused hcmd]
        exact ⟨h₁, fun a h => by cases h⟩
    | ok a =>
        rw [apduDispatchProcess_served hcmd, swp_bind]
        have hserve := held_serve hA rfl hcmd h₁ out
        by_cases ha : a.setsPermanent
        · apply swp_mono (swp_and hserve (swp_serve_permanent hA h₁ ha)) _ fun _ h => h.1
          rintro r u' b' ⟨h', hperm⟩
          exact ⟨h', fun _ _ _ hok => hperm (isOk_of_answered hok)⟩
        · apply swp_mono hserve _ fun _ h => h
          intro r u' b' h'
          refine ⟨h', fun a' ha' hset => ?_⟩
          cases ha'
          exact absurd hset ha
  rw [cardApdu, swp_bind]
  apply swp_leave
  rw [swp_bind]
  apply swp_mono hprocess _ fun _ h => h
  rintro r u' b' ⟨h', hack⟩
  rw [swp_bind]
  apply swp_leave
  exact ⟨h'.ram, h'.synced.same rfl fun _ => Iff.rfl, h'.board.answer hack⟩

omit hA in
theorem held_cardReset :
    Keeps (pgpBoard F) A (Held F Guarded (Ledger F)) (Ledger F) openpgpAppletCardReset := by
  apply keeps_bind
  · exact held_leave (fun h => by cases h) (fun h => by cases h) fun _ _ h => by cases h
  · exact fun _ => held_drop lasting_guarded _

omit hA in
theorem held_powerUp (h : Ledger F b) :
    Held F Guarded (Ledger F) .boot ({ b with now := 0 }.jot .powerUp) where
  ram := .inr rfl
  synced := synced_of_not_usable rfl
  board := by
    have hstart : Ledger F { b with now := 0 } := h.same rfl fun _ => Iff.rfl
    exact hstart.jot (fun h => by cases h) (fun h => by cases h) fun _ _ h => by cases h

end Serve

/-- A board of which nothing was noted yet. -/
theorem ledger_start (F : PgpPrims) (b : Board Note) : Ledger F { b with notes := [] } where
  preceded := trivial
  terminated _ _ _ := rfl
  counted _ _ _ := Nat.zero_le _
  permanent := by
    rintro ⟨e, he, -⟩
    cases he

/-- The invariant, over every run. -/
theorem card_held {F : PgpPrims} {A : BoardFate → Prop} (hA : ∀ f, A f → Honest F f)
    (hquiet : A .quiet) (b : Board Note) {acts : List Action} (hacts : ∀ a ∈ acts, a.Within A) :
    ((card F b).run acts).Meets (Held F Guarded (Ledger F)) (Ledger F) :=
  meets_run hquiet (ledger_start F b) (fun _ _ h => h.board) (fun _ h => held_powerUp h)
    held_cardReset (held_cardApdu hA) hacts

/-- The count in the three bytes of DO 93. -/
def countOf (s : Bytes) : ℕ := byteAt s 0 * 2 ^ 16 + byteAt s 1 * 2 ^ 8 + byteAt s 2

theorem countOf_sigCounter {r : O3Ram} (hu : r.usable = true) :
    countOf r.sigCounter = sigCount r.cur := by
  have hbyte : ∀ i < sigCounterLen, (slice r.cur offSigcnt sigCounterLen).getD i 0 =
      r.cur.getD (offSigcnt + i) 0 := by
    intro i hi
    rw [List.getD_eq_getElem?_getD, List.getD_eq_getElem?_getD, slice,
      List.getElem?_take_of_lt hi, List.getElem?_drop]
  rw [O3Ram.sigCounter, O3Ram.copyOut, if_pos hu, countOf, sigCount]
  simp only [byteAt, hbyte 0 (by decide), hbyte 1 (by decide), hbyte 2 (by decide)]
  rfl

/-- The touch policy and the count of signatures over every run of the card, with
calls that fail, tear or cut the run. A use of a key that is answered with 9000 had a
touch of its own inside the command, unless the copy of O3 was usable and O3 holds the
flag 0. A permanent flag that was acknowledged is in O3 until a wipe. Every signature
has a command of its own, and behind it an increment of its own that is in both copies
of O3. As long as no command for a signature came at the largest count since the last
wipe, O3 counts at least the signatures since then, and so does DO 93. -/
theorem card_touch_and_count (F : PgpPrims) (b : Board Note) (acts : List Action)
    (hacts : ∀ a ∈ acts, a.Within (Honest F)) :
    let d := (card F b).run acts
    (∀ u inp out fs a answer u' b', d.ram = some u → (∀ f ∈ fs, Honest F f) →
        framed inp = .ok a → a.usesKey →
        run (pgpBoard F) ((cardApdu F inp out).run u) fs d.board = .done (answer, u') b' →
        AnsweredOk answer → Touched d.board b' ∨
          (u.o3.usable = true ∧ ∃ p, O3At F d.board.chip.rmem p ∧ p.getD offUif 0 = 0)) ∧
      (Permanent d.board → ∃ p, O3At F d.board.chip.rmem p ∧ p.getD offUif 0 = 2) ∧
      Preceded F d.board.notes ∧
      (Unwrapped F d.board →
        (∀ p, O3At F d.board.chip.rmem p → signatures d.board ≤ sigCount p) ∧
        ∀ u, d.ram = some u → u.o3.usable = true →
          signatures d.board ≤ countOf u.o3.sigCounter) := by
  have hall : ((card F b).run acts).Meets (Held F Guarded (Ledger F)) (Ledger F) :=
    card_held (fun _ h => h) (honest_quiet F) b hacts
  generalize (card F b).run acts = d at hall ⊢
  have hledger : Ledger F d.board := hall.off fun _ _ h => h.board
  have hon : ∀ u, d.ram = some u → Held F Guarded (Ledger F) u d.board := by
    intro u hu
    rw [Card.Meets, hu] at hall
    exact hall
  refine ⟨?_, ?_, hledger.preceded, fun hun => ⟨hledger.counted hun, ?_⟩⟩
  · intro u inp out fs a answer u' b' hu hfs hcmd ha hrun hok
    have hsat := run_of_swp (m := cardApdu F inp out) (honest_quiet F)
      (swp_cardApdu_touch (fun _ h => h) (hon u hu) hcmd ha) hfs
    rw [hrun] at hsat
    rcases hsat hok with ⟨h0, hat⟩ | htouch
    · obtain ⟨husable, hflag⟩ := uif_zero h0
      exact .inr ⟨husable, _, hat, hflag⟩
    · exact .inl htouch
  · intro hperm
    obtain ⟨p, hp, h2, -⟩ := hledger.permanent hperm
    exact ⟨p, hp, h2⟩
  · intro u hu husable
    rw [countOf_sigCounter husable]
    exact hledger.counted hun _ ((hon u hu).synced husable).1

/-- PSO:CDS over one byte. -/
def cds : Bytes := [0x00, 0x2A, 0x9E, 0x9A, 0x01, 0x2A]

/-- The buffer of the caller. -/
def room : Bytes := List.replicate apduMaxLen 0

/-- PUT DATA of the touch flag for signatures, the permanent one. -/
def putPermanent : Bytes := [0x00, 0xDA, 0x00, 0xD6, 0x02, 0x02, 0x20]

/-- A new card: both PINs, the permanent touch flag, a key, and a signature. -/
def signTouched : List Action :=
  [.powerUp, .apdu ([0x00, 0x20, 0x00, 0x81, 0x06] ++ factoryPw1) room [],
    .apdu ([0x00, 0x20, 0x00, 0x83, 0x08] ++ factoryPw3) room [], .apdu putPermanent room [],
    .apdu [0x00, 0x47, 0x80, 0x00, 0x02, 0xB6, 0x00] room [], .apdu cds room []]

theorem honest_signTouched : ∀ a ∈ signTouched, a.Within (Honest mixPgp) := by
  have hnil : ∀ f ∈ ([] : List BoardFate), Honest mixPgp f := fun f hf => by cases hf
  simp only [signTouched, List.forall_mem_cons]
  exact ⟨trivial, hnil, hnil, hnil, hnil, hnil, fun a ha => by cases ha⟩

theorem permanent_of_any {b : Board Note} (h : (sinceWipe b.notes).any
    (fun e => decide (e.note = .answer putPermanent (some (be16 swOk)))) = true) :
    Permanent b := by
  obtain ⟨e, he, hnote⟩ := List.any_eq_true.mp h
  exact ⟨e, he, putPermanent, _, ⟨insPutData, 0x00, 0xD6, [0x02, 0x20]⟩, of_decide_eq_true hnote,
    rfl, ⟨rfl, by decide, rfl⟩, [], rfl⟩

/-- With the flag set, the second signature has a touch of its own. -/
theorem card_touch_and_count_demo : ∃ u answer u' b',
    ((card mixPgp blankBoard).run signTouched).ram = some u ∧
      run (pgpBoard mixPgp) ((cardApdu mixPgp cds room).run u) []
        ((card mixPgp blankBoard).run signTouched).board = .done (answer, u') b' ∧
      AnsweredOk answer ∧ Touched ((card mixPgp blankBoard).run signTouched).board b' ∧
      signatures ((card mixPgp blankBoard).run signTouched).board = 1 ∧
      Preceded mixPgp ((card mixPgp blankBoard).run signTouched).board.notes := by
  have hdemo : (((card mixPgp blankBoard).run signTouched).ram.bind fun u =>
      (returnOf (run (pgpBoard mixPgp) ((cardApdu mixPgp cds room).run u) []
        ((card mixPgp blankBoard).run signTouched).board)).map fun x =>
          x.1.map fun out => out.drop (out.length - 2)) = some (some (be16 swOk)) ∧
      signatures ((card mixPgp blankBoard).run signTouched).board = 1 ∧
      (sinceWipe ((card mixPgp blankBoard).run signTouched).board.notes).any
        (fun e => decide (e.note = .answer putPermanent (some (be16 swOk)))) = true := by
    decide +kernel
  obtain ⟨hram, hone, hany⟩ := hdemo
  have hperm := permanent_of_any hany
  have h := card_touch_and_count mixPgp blankBoard signTouched honest_signTouched
  generalize (card mixPgp blankBoard).run signTouched = d at hram hone hperm h ⊢
  obtain ⟨htouch, hflag, hpreceded, -⟩ := h
  obtain ⟨p, hp, h2⟩ := hflag hperm
  obtain ⟨u, hu, hx⟩ := Option.bind_eq_some_iff.mp hram
  obtain ⟨⟨answer, u'⟩, hret, hout⟩ := Option.map_eq_some_iff.mp hx
  obtain ⟨out, rfl, hend⟩ := Option.map_eq_some_iff.mp hout
  have hok : AnsweredOk (some out) :=
    ⟨out.take (out.length - 2), by rw [← hend, List.take_append_drop]⟩
  refine ⟨u, some out, u', _, hu, eq_done hret, hok, ?_, hone, hpreceded⟩
  rcases htouch u cds room [] ⟨insPso, 0x9E, 0x9A, [0x2A]⟩ _ _ _ hu (by simp) rfl
    (.inl ⟨rfl, rfl, rfl⟩) (eq_done hret) hok with h | ⟨-, q, hq, h0⟩
  · exact h
  · rw [hp.unique hq, h0] at h2
    cases h2

/-!
### Counts without signatures

PSO:CDS counts before it asks for the signature. On a card without a signature key it
counts and fails, as often as it is sent, and behind the largest count it starts again
at zero, below the signatures that were made when there was a key.
-/

/-- The signature key signed, which takes a key in its slot. -/
def isSigned (e : Entry Note) : Bool := isSignature e && (e.ecc sigSlot).isSome

/-- The signatures made since the last wipe. -/
def signed (b : Board Note) : ℕ := (sinceWipe b.notes).countP isSigned

def cdsApdu : Apdu := ⟨insPso, 0x9E, 0x9A, [0x2A]⟩

/-- A card without a signature key that serves PSO:CDS without a touch: its count is
`c`, and O3 is in its generation `g`. -/
structure Keyless (F : PgpPrims) (c g n : ℕ) (u : PgpRam) (b : Board Note) : Prop where
  loaded : u.o3.loaded = true
  certain : u.o3.uncertain = false
  access : u.auth.a81 = true
  record : ∃ r, Mirrored F.chip o3 b.chip.rmem r ∧ genOf r = g ∧ payloadOf r = u.o3.cur
  length : u.o3.cur.length = o3Len
  lc : u.o3.cur.getD offLc 0 = Lifecycle.operational.code
  untouched : u.o3.cur.getD offUif 0 = 0
  multi : u.o3.cur.getD offC4 0 = 1
  count : sigCount u.o3.cur = c
  empty : b.ecc sigSlot = none
  made : signed b = n

section Keyless

variable {F : PgpPrims} {u : PgpRam} {b : Board Note}

theorem signed_jot {n : Note} (hn : n ≠ .wipe) (he : b.ecc sigSlot = none) :
    signed (b.jot n) = signed b := by
  rw [signed, sinceWipe_jot hn, List.countP_cons_of_neg]
  · rfl
  · simp [isSigned, he]

/-- An undisturbed commit over a mirrored record. -/
theorem swp_commit_calm {next r : Bytes} (hu : u.o3.usable = true)
    (hlc : u.o3.cur.getD offLc 0 = Lifecycle.operational.code)
    (hm : Mirrored F.chip o3 b.chip.rmem r) (hg : genOf r < uint32Max)
    (hnext : next.length ≤ recPayloadMax) :
    swp (pgpBoard F) CalmBoard (commit F next) (fun ok u' b' => ok = true ∧ u' = u.withCur next ∧
      ∃ w, b' = b.setChip w ∧ Mirrored F.chip o3 w.rmem (encode F.chip o3 (genOf r + 1) next))
      (fun _ => False) u b := by
  have hleaves : ∀ f, chipFates CalmBoard f → f.leaves (Invalid F.chip o3) :=
    honest_o3 fun _ hf => honest_of_calm hf
  have hcell : o3Cell.get u = false := (usable_iff.mp hu).2
  have hput : o3Cell.put u false = u := by
    rw [← hcell]
    rfl
  rw [commit, swp_bind, swp_get, if_pos ⟨hu, hlc⟩, swp_bind]
  apply swp_onPair
  apply swp_mono (swp_recPairWrite hleaves (o := some r) hm.current) _
    fun _ h => not_stormyBoard_calm (stormy_chipFates.mp h.2.1)
  rintro res v w ⟨-, hres⟩
  cases res with
  | ok =>
      obtain ⟨rfl, r', hr, -, -, hw⟩ := hres
      cases hr
      refine ⟨rfl, ?_, w, rfl, hw⟩
      rw [hput]
      rfl
  | absent => cases hres.1
  | corrupt => cases hres.1
  | error =>
      rcases hres.2 with hun | hst | hlong | ⟨r', hr, hmax⟩
      · rw [hcell] at hun
        cases hun
      · exact absurd (stormy_chipFates.mp hst) not_stormyBoard_calm
      · omega
      · cases hr
        omega

theorem sigCount_lt (p : Bytes) : sigCount p < 2 ^ 24 := by
  have h₀ := UInt8.toNat_lt (p.getD offSigcnt 0)
  have h₁ := UInt8.toNat_lt (p.getD (offSigcnt + 1) 0)
  have h₂ := UInt8.toNat_lt (p.getD (offSigcnt + 2) 0)
  simp only [sigCount, byteAt]
  omega

theorem Keyless.jot {c g n : ℕ} {note : Note} (h : Keyless F c g n u b) (hn : note ≠ .wipe) :
    Keyless F c g n u (b.jot note) where
  loaded := h.loaded
  certain := h.certain
  access := h.access
  record := h.record
  length := h.length
  lc := h.lc
  untouched := h.untouched
  multi := h.multi
  count := h.count
  empty := h.empty
  made := (signed_jot hn h.empty).trans h.made

/-- The counter goes up by one, with one generation of O3. -/
theorem keyless_increment {c g n : ℕ} (h : Keyless F c g n u b) (hg : g < uint32Max) :
    swp (pgpBoard F) CalmBoard (openpgpStateSigCounterIncrement F)
      (fun ok u' b' => ok = true ∧ Keyless F ((c + 1) % 2 ^ 24) (g + 1) n u' b') (fun _ => False)
      u b := by
  have hu : u.o3.usable = true := usable_iff.mpr ⟨h.loaded, h.certain⟩
  have hc : (sigCount u.o3.cur + 1) % 2 ^ 24 < 2 ^ 24 := Nat.mod_lt _ (by decide)
  have hl : o3Len ≤ u.o3.cur.length := h.length.ge
  obtain ⟨r, hm, rfl, -⟩ := h.record
  obtain rfl : sigCount u.o3.cur = c := h.count
  rw [openpgpStateSigCounterIncrement, swp_bind, swp_get]
  dsimp only
  generalize hnext : (sigCount u.o3.cur + 1) % 2 ^ 24 = v at hc ⊢
  have hat : ∀ i < offSigcnt, (patch u.o3.cur offSigcnt [UInt8.ofNat (v / 2 ^ 16),
      UInt8.ofNat (v / 2 ^ 8), UInt8.ofNat v]).getD i 0 = u.o3.cur.getD i 0 :=
    fun i hi => getD_patch (Nat.le_trans (by decide) hl) (.inl hi)
  have hcount := sigCount_patch hl hc
  have hlen : (patch u.o3.cur offSigcnt [UInt8.ofNat (v / 2 ^ 16), UInt8.ofNat (v / 2 ^ 8),
      UInt8.ofNat v]).length = u.o3.cur.length :=
    length_patch (Nat.le_trans (by simp [offSigcnt, o3Len]) hl)
  generalize patch u.o3.cur offSigcnt
    [UInt8.ofNat (v / 2 ^ 16), UInt8.ofNat (v / 2 ^ 8), UInt8.ofNat v] = next at hat hcount hlen ⊢
  have hfits : next.length ≤ recPayloadMax := by
    rw [hlen, h.length]
    decide
  apply swp_mono (swp_commit_calm hu h.lc hm hg hfits) _ fun _ h => h
  rintro _ _ _ ⟨rfl, rfl, w, rfl, hw⟩
  have hmax : genOf r + 1 < 2 ^ 32 := Nat.lt_of_le_of_lt hg (by decide)
  have hgen := genOf_encode F.chip o3 next hmax
  refine ⟨rfl, h.loaded, h.certain, h.access, ?_, hlen.trans h.length, ?_, ?_, ?_, hcount,
    h.empty, h.made⟩
  · exact ⟨_, hw, hgen, payloadOf_encode F.chip o3 _ hfits⟩
  · exact (hat _ (by decide)).trans h.lc
  · exact (hat _ (by decide)).trans h.untouched
  · exact (hat _ (by decide)).trans h.multi

/-- One PSO:CDS more on such a card. -/
theorem keyless_cds {c g n : ℕ} (h : Keyless F c g n u b) (hg : g < uint32Max) (out : Bytes) :
    swp (pgpBoard F) CalmBoard (cardApdu F cds out)
      (fun _ u' b' => Keyless F ((c + 1) % 2 ^ 24) (g + 1) n u' b') (fun _ => False) u b := by
  have hu : u.o3.usable = true := usable_iff.mpr ⟨h.loaded, h.certain⟩
  have hensure : swp (pgpBoard F) CalmBoard (pgpLifecycleEnsure F) (fun _ u' b' => u' = u ∧
      b' = b.jot (.apdu cds)) (fun _ => False) u (b.jot (.apdu cds)) := by
    rw [pgpLifecycleEnsure, swp_bind, swp_get, if_pos (.inl h.loaded)]
    exact ⟨rfl, rfl⟩
  have huif : u.o3.uif = 0 := by rw [O3Ram.uif, if_pos hu, h.untouched]
  have hmulti : ¬u.o3.c4Multi = 0 := by
    rw [O3Ram.c4Multi, O3Ram.field, if_pos hu, h.multi]
    decide
  have hgate : gate u.o3.lifecycle cdsApdu = none := by
    rw [lifecycle_operational.mpr ⟨hu, h.lc⟩]
    rfl
  have h₁ : Keyless F c g n u (b.jot (.apdu cds)) := h.jot fun h => by cases h
  rw [cardApdu, swp_bind]
  apply swp_leave
  rw [apduDispatchProcess_served (show framed cds = .ok cdsApdu from rfl), bind_assoc, swp_bind,
    serve, swp_bind]
  apply swp_mono hensure _ fun _ h => h
  rintro _ u _ ⟨rfl, rfl⟩
  rw [swp_bind, swp_get]
  simp only [hgate]
  rw [handle_cds ⟨rfl, rfl, rfl⟩, psoCds, swp_bind, swp_get, if_neg (by simp [h.access])]
  dsimp only
  rw [if_neg hmulti, swp_bind, requireTouchIfEnabled, swp_bind, swp_get, if_pos huif, swp_pure,
    if_pos rfl, if_neg (by decide), swp_bind]
  apply swp_mono (keyless_increment h₁ hg) _ fun _ h => h
  rintro _ u' b' ⟨rfl, h'⟩
  rw [if_pos rfl, swp_bind, pgpKeysSignWithSig, signWith, if_neg (by decide), swp_bind]
  apply swp_leave
  rw [swp_bind]
  apply swp_sign (.inl rfl) _ not_stormyBoard_calm
  intro reply
  have hanswer : ∀ msg, swp (pgpBoard F) CalmBoard (leave (.answer cds msg) >>= fun _ => pure msg)
      (fun _ u'' b'' => Keyless F ((c + 1) % 2 ^ 24) (g + 1) n u'' b'') (fun _ => False) u'
      (b'.jot (.sign sigSlot)) := by
    intro msg
    rw [swp_bind]
    exact swp_leave ((h'.jot fun h => by cases h).jot fun h => by cases h)
  cases reply with
  | error e => exact hanswer _
  | ok sig => exact hanswer _

/-- Any number of PSO:CDS on such a card. -/
theorem keyless_run {c g n k : ℕ} {d : Card} (b₀ : Board Note) (out : Bytes)
    (hu : d.ram = some u) (h : Keyless F c g n u d.board) (hg : g + k ≤ uint32Max) :
    ∃ u', ((card F b₀).runFrom d (List.replicate k (.apdu cds out []))).ram = some u' ∧
      Keyless F ((c + k) % 2 ^ 24) (g + k) n u'
        ((card F b₀).runFrom d (List.replicate k (.apdu cds out []))).board := by
  induction k generalizing c g u d with
  | zero =>
      have hc : c % 2 ^ 24 = c := by
        have hlt : c < 2 ^ 24 := by
          rw [← h.count]
          exact sigCount_lt _
        exact Nat.mod_eq_of_lt hlt
      exact ⟨u, hu, by rwa [Nat.add_zero, Nat.add_zero, hc]⟩
  | succ k ih =>
      have hstep : (run (pgpBoard F) ((cardApdu F cds out).run u) [] d.board).Satisfies
          (fun x b' => Keyless F ((c + 1) % 2 ^ 24) (g + 1) n x.2 b') (fun _ => False) :=
        run_of_swp calm_quiet (keyless_cds h (by omega) out) fun _ hf => by cases hf
      rw [List.replicate_succ, System.runFrom_cons]
      have hd : (card F b₀).step d (.apdu cds out []) =
          .settle (run (pgpBoard F) ((cardApdu F cds out).run u) [] d.board) := by
        show Card.step F d (.apdu cds out []) = _
        rw [Card.step, hu]
      rw [hd]
      generalize run (pgpBoard F) ((cardApdu F cds out).run u) [] d.board = o at hstep ⊢
      rcases o with ⟨⟨r, u'⟩, b'⟩ | b'
      · have hrun := ih (d := ⟨some u', b'⟩) rfl hstep (by omega)
        have hmod : ((c + 1) % 2 ^ 24 + k) % 2 ^ 24 = (c + (k + 1)) % 2 ^ 24 := by omega
        rwa [hmod, Nat.add_assoc g 1 k, Nat.add_comm 1 k] at hrun
      · exact hstep.elim

end Keyless

/-- A new card: both PINs, no touch, a key, and two signatures. Then the chip erases
the key and fails to generate another one. -/
def signThenLose : List Action :=
  [.powerUp, .apdu ([0x00, 0x20, 0x00, 0x81, 0x06] ++ factoryPw1) room [],
    .apdu ([0x00, 0x20, 0x00, 0x83, 0x08] ++ factoryPw3) room [],
    .apdu [0x00, 0xDA, 0x00, 0xD6, 0x02, 0x00, 0x20] room [],
    .apdu [0x00, 0x47, 0x80, 0x00, 0x02, 0xB6, 0x00] room [], .apdu cds room [],
    .apdu cds room [],
    .apdu [0x00, 0x47, 0x80, 0x00, 0x02, 0xB6, 0x00] room [.quiet, .quiet, ⟨.fail, 0, .ok⟩]]

theorem honest_signThenLose : ∀ a ∈ signThenLose, a.Within (Honest mixPgp) := by
  have hnil : ∀ f ∈ ([] : List BoardFate), Honest mixPgp f := fun f hf => by cases hf
  have hlost : ∀ f ∈ [BoardFate.quiet, .quiet, ⟨.fail, 0, .ok⟩], Honest mixPgp f := by
    intro f hf
    simp only [List.mem_cons, List.not_mem_nil, or_false] at hf
    rcases hf with rfl | rfl | rfl <;> trivial
  simp only [signThenLose, List.forall_mem_cons]
  exact ⟨trivial, hnil, hnil, hnil, hnil, hnil, hnil, hlost, fun a ha => by cases ha⟩

theorem keyless_start : ∃ u, ((card mixPgp blankBoard).run signThenLose).ram = some u ∧
    Keyless mixPgp 2 4 2 u ((card mixPgp blankBoard).run signThenLose).board := by
  have hall : ((card mixPgp blankBoard).run signThenLose).ram.map (fun u => decide
      (u.o3.loaded = true ∧ u.o3.uncertain = false ∧ u.auth.a81 = true ∧
        ((card mixPgp blankBoard).run signThenLose).board.chip.rmem o3.slotA =
          .data (encode mixPgp.chip o3 4 u.o3.cur) ∧
        ((card mixPgp blankBoard).run signThenLose).board.chip.rmem o3.slotB =
          .data (encode mixPgp.chip o3 4 u.o3.cur) ∧
        u.o3.cur.length = o3Len ∧ u.o3.cur.getD offLc 0 = Lifecycle.operational.code ∧
        u.o3.cur.getD offUif 0 = 0 ∧ u.o3.cur.getD offC4 0 = 1 ∧ sigCount u.o3.cur = 2 ∧
        ((card mixPgp blankBoard).run signThenLose).board.ecc sigSlot = none ∧
        signed ((card mixPgp blankBoard).run signThenLose).board = 2)) = some true := by
    decide +kernel
  generalize (card mixPgp blankBoard).run signThenLose = d at hall ⊢
  obtain ⟨u, hu, hdec⟩ := Option.map_eq_some_iff.mp hall
  obtain ⟨hl, hc, h81, ha, hb, hlen, hlc, huif, hc4, hcount, hkey, hmade⟩ := of_decide_eq_true hdec
  have hfits : u.o3.cur.length ≤ recPayloadMax := by
    rw [hlen]
    decide
  refine ⟨u, hu, hl, hc, h81, ⟨_, ⟨ha, hb, ?_⟩, ?_, ?_⟩, hlen, hlc, huif, hc4, hcount, hkey, hmade⟩
  · exact valid_encode _ _ (by decide) (by decide) hfits
  · exact genOf_encode _ _ _ (by decide)
  · exact payloadOf_encode _ _ _ hfits

/-- Behind it, PSO:CDS until the count is round. -/
def countRound : List Action := signThenLose ++ List.replicate (2 ^ 24 - 2) (.apdu cds room [])

/-- Two signatures were made since the wipe of the first boot, and O3 counts none. -/
theorem count_behind_signatures :
    (∀ a ∈ countRound, a.Within (Honest mixPgp)) ∧
      signed ((card mixPgp blankBoard).run countRound).board = 2 ∧
      ∃ p, O3At mixPgp ((card mixPgp blankBoard).run countRound).board.chip.rmem p ∧
        sigCount p = 0 := by
  obtain ⟨u, hu, h⟩ := keyless_start
  obtain ⟨u', -, h'⟩ := keyless_run (k := 2 ^ 24 - 2) blankBoard room hu h (by decide)
  have hacts : ∀ a ∈ countRound, a.Within (Honest mixPgp) := by
    rw [countRound, List.forall_mem_append]
    refine ⟨honest_signThenLose, fun a ha => ?_⟩
    rw [List.eq_of_mem_replicate ha]
    exact fun f hf => by cases hf
  rw [countRound, System.run_append]
  obtain ⟨r, hm, -, hp⟩ := h'.record
  exact ⟨hacts, h'.made, _, ⟨r, hm.current, hp⟩, h'.count⟩

end Nixtropic.Pgp
