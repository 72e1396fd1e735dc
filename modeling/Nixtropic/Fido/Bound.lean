import Nixtropic.Fido.Deletion

/-!
The device under a management token that is bound to one RP: what it answers
tells of that RP only, and no credential of another is touched.
-/

namespace Nixtropic.Fido

open Crash Runs

/-! ### A whole payload -/

/-- What a payload of the credential management tells, and what it leaves. -/
structure Held (F : FidoPrims) (s : Shelf) (u : FidoRam) (b : Board Note) (a : Answer)
    (u' : FidoRam) (b' : Board Note) : Prop where
  confined : Confined (shelf F u' b') u'.token u'.iter
  only : ∀ rpHash, u.token.BoundTo rpHash → a.OnlyOf s rpHash
  spares : ∀ rpHash, u.token.BoundTo rpHash → Spares F s rpHash b b'

section Payload

variable {F : FidoPrims} {A : BoardFate → Prop} {s : Shelf} {u : FidoRam} {b : Board Note}

theorem spares_still {b' : Board Note} (h : Still b b') :
    ∀ rpHash, u.token.BoundTo rpHash → Spares F s rpHash b b' := fun _ _ i _ _ _ => h.spared i

theorem Tells.held {a : Answer} {u' : FidoRam} {b' : Board Note} (hs : Shows F s u b)
    (h : Tells F s u b a u' b') : Held F s u b a u' b' := by
  obtain ⟨i, rfl, hi⟩ := h.iter
  refine ⟨?_, h.only, spares_still h.still⟩
  rw [(rests_setIter i h.still).shelf, hs.shelf]
  exact hi

theorem held_cmSwitch (hA : ∀ f, A f → Honest F f) (hs : Serves F s u b) (hsync : Synced F u b)
    (h : Confined s u.token u.iter) (q : CmReq) {sub : ℕ}
    (hdel : sub = subDeleteCredential → u.iter.kind = .none) :
    swp (fidoBoard F) A (cmSwitch F q sub) (Held F s u b)
      (fun b' => ∀ rpHash, u.token.BoundTo rpHash → Spares F s rpHash b b') u b := by
  have tells : ∀ {m : FidoM Answer}, swp (fidoBoard F) A m (Tells F s u b) (Still b) u b →
      swp (fidoBoard F) A m (Held F s u b)
        (fun b' => ∀ rpHash, u.token.BoundTo rpHash → Spares F s rpHash b b') u b :=
    fun hm => swp_mono hm (fun _ _ _ h => h.held hs.toShows) fun _ h => spares_still h
  rw [cmSwitch]
  by_cases h1 : sub = subGetCredsMetadata
  · rw [if_pos h1]
    exact tells (tells_doGetCredsMetadata h)
  rw [if_neg h1]
  by_cases h2 : sub = subEnumRpsBegin
  · rw [if_pos h2]
    exact tells (tells_doEnumRpsBegin h)
  rw [if_neg h2]
  by_cases h3 : sub = subEnumRpsGetNext
  · rw [if_pos h3]
    exact tells (tells_doEnumRpsNext h)
  rw [if_neg h3]
  by_cases h4 : sub = subEnumCredsBegin
  · rw [if_pos h4]
    exact tells (tells_doEnumCredsBegin hs.toShows h q.rpHash)
  rw [if_neg h4]
  by_cases h5 : sub = subEnumCredsGetNext
  · rw [if_pos h5]
    exact tells (tells_doEnumCredsNext hs.toShows h)
  rw [if_neg h5]
  by_cases h6 : sub = subDeleteCredential
  · rw [if_pos h6]
    apply swp_mono (deletes_doDeleteCredential hA hs hsync q.credId) _ fun _ h => h
    intro a u' b' hd
    refine ⟨confined_idle (hd.iter ▸ hdel h6), fun _ _ => ?_, hd.spares⟩
    obtain ⟨st, rfl⟩ := hd.answer
    trivial
  · rw [if_neg h6]
    exact (tells_refusal h .invalidCommand).held hs.toShows

theorem held_cmRun (hA : ∀ f, A f → Honest F f) (hs : Serves F s u b) (hsync : Synced F u b)
    (h : Confined s u.token u.iter) (q : CmReq) (sub : ℕ) :
    swp (fidoBoard F) A (cmRun F q sub) (Held F s u b)
      (fun b' => ∀ rpHash, u.token.BoundTo rpHash → Spares F s rpHash b b') u b := by
  have hkept : Confined s u.token (u.iter.keptFor sub) := h.keptFor sub
  have hidle : sub = subDeleteCredential → (u.iter.keptFor sub).kind = .none := by
    rintro rfl
    exact keptFor_idle (by decide) (by decide)
  apply swp_cmRun_kept
  apply swp_mono (held_cmSwitch hA (hs.setIter (u.iter.keptFor sub)) hsync hkept q hidle) _
    fun _ h => h
  exact fun a u' b' hh => ⟨hh.confined, hh.only, hh.spares⟩

theorem held_credmgmtHandleCbor (hA : ∀ f, A f → Honest F f) (hs : Serves F s u b)
    (hsync : Synced F u b) (h : Confined s u.token u.iter) (c : Except Status CmReq) :
    swp (fidoBoard F) A (credmgmtHandleCbor F c) (Held F s u b)
      (fun b' => ∀ rpHash, u.token.BoundTo rpHash → Spares F s rpHash b b') u b := by
  have refuse : ∀ (st : Status) (u' : FidoRam) b', Rests u b u' b' →
      Confined s u'.token u'.iter → Held F s u b (.status st) u' b' := by
    intro st u' b' hr hc
    refine ⟨?_, fun _ _ => trivial, spares_still hr.still⟩
    rw [hr.shelf, hs.shelf]
    exact hc
  -- the sub-command is run under the token that was found
  have run : ∀ q sub (u₁ : FidoRam) b₁, Rests u b u₁ b₁ → u.token.Goes u₁.token →
      Confined s u₁.token u₁.iter → swp (fidoBoard F) A (cmRun F q sub) (Held F s u b)
        (fun b' => ∀ rpHash, u.token.BoundTo rpHash → Spares F s rpHash b b') u₁ b₁ := by
    intro q sub u₁ b₁ hr hgoes hc
    have hspares : ∀ {b'}, (∀ R, u₁.token.BoundTo R → Spares F s R b₁ b') →
        ∀ R, u.token.BoundTo R → Spares F s R b b' := by
      intro b' hsp R hR i m hi hne
      exact (hr.still.spared i).trans (hsp R (hgoes.boundTo.mpr hR) i m hi hne)
    apply swp_mono (held_cmRun hA (hs.rests hr) (hsync.rests hr) hc q sub)
    · intro a u' b' hh
      exact ⟨hh.confined, fun R hR => hh.only R (hgoes.boundTo.mpr hR), hspares hh.spares⟩
    · exact fun b' hsp => hspares hsp
  cases c with
  | error st => exact refuse st u b (Rests.refl u b) h
  | ok q =>
  rw [credmgmtHandleCbor]
  dsimp only
  cases hsub : q.sub with
  | none => exact refuse _ u b (Rests.refl u b) h
  | some sub =>
  dsimp only
  split
  · rw [swp_bind]
    apply swp_mono (swp_and ((rests_ground u b).checkCmToken shelfScope_tokens q sub u b
      (Rests.refl u b)) swp_checkCmToken_decides) _ fun _ h => spares_still h.1
    rintro rc u₁ b₁ ⟨hr, hd⟩
    have hc : Confined s u₁.token u₁.iter := by
      rw [hd.iter]
      exact h.token hd.token
    split
    · exact refuse rc u₁ b₁ hr hc
    · rename_i hrc
      have hin := (hd.ok.mp (not_not.mp hrc)).1
      rw [swp_bind, swp_get, swp_bind]
      apply swp_setIter
      exact run q sub _ b₁ (hr.trans (rests_setIter _ (Still.refl b₁))) (hd.token hin) (hc.gen _)
  · rw [swp_bind]
    apply swp_mono (swp_and ((rests_ground u b).cmContinues shelfScope_tokens u b
      (Rests.refl u b)) swp_cmContinues_decides) _ fun _ h => spares_still h.1
    rintro ok u₁ b₁ ⟨hr, hiter, hgoes, hok⟩
    have hc : Confined s u₁.token u₁.iter := by
      rw [hiter]
      exact h.token hgoes
    cases ok with
    | true =>
        rw [if_pos rfl]
        exact run q sub u₁ b₁ hr (hgoes (hok.mp rfl).1) hc
    | false =>
        rw [if_neg Bool.false_ne_true, swp_bind]
        apply swp_setIter
        exact refuse _ _ b₁ (hr.trans (rests_setIter _ (Still.refl b₁))) (confined_idle rfl)

/-- A payload that does not get to the handler. -/
theorem swp_cmPayload_refused {c : Except Status CmReq} {valid : Bool}
    (hno : valid = false ∨ u.ready = false) {C : Board Note → Prop}
    {Q : Answer → FidoRam → Board Note → Prop}
    (h : ∀ b', Still b b' → Q (.status (if valid then .notAllowed else .invalidCbor))
      (u.setGa .zero) b') :
    swp (fidoBoard F) A (fidoHidCborDispatch F ⟨.credentialMgmt c, valid⟩) Q C u b := by
  have hempty : ¬(Command.credentialMgmt c).isEmpty = true := Bool.false_ne_true
  have hcm : (Command.credentialMgmt c).isCredentialMgmt = true := rfl
  have hga : ¬(Command.credentialMgmt c).isAssertion = true := Bool.false_ne_true
  rw [fidoHidCborDispatch, swp_bind]
  apply swp_leave
  rw [swp_bind, dispatch, if_neg hempty, swp_bind, endEnumeration, if_pos hcm, swp_pure, swp_bind,
    endIteration, if_neg hga]
  apply swp_setGa
  rw [serveChecked]
  have answer := h _ ((still_jot b (.request ⟨.credentialMgmt c, valid⟩)).trans (still_jot _
    (.answer ⟨.credentialMgmt c, valid⟩ (.status (if valid then .notAllowed else .invalidCbor)))))
  cases valid with
  | false =>
      rw [if_pos rfl, swp_pure, swp_bind]
      exact swp_leave answer
  | true =>
      have hoff : u.ready = false := hno.resolve_left (by simp)
      rw [if_neg (by simp), swp_bind, swp_get, if_pos ⟨rfl, hoff⟩, swp_pure, swp_bind]
      exact swp_leave answer

end Payload

/-! ### The device -/

/-- Everything but the iterator. -/
def beyondIter : Scope where
  rmem _ := True
  ecc _ := True
  ram u u' := u'.iter = u.iter
  note _ := True

theorem beyondIter_base : beyondIter.Base where
  creds := ⟨fun _ _ => trivial, fun _ _ => trivial⟩
  storeInitted _ _ := rfl
  mutating _ _ := rfl
  pin _ _ := rfl
  note _ _ := trivial
  o1 := ⟨fun _ _ => trivial, fun _ _ => rfl⟩
  o2 := ⟨fun _ _ => trivial, fun _ _ => rfl⟩

theorem beyondIter_tokens : beyondIter.Tokens := ⟨fun _ _ => rfl, fun _ _ => trivial⟩

section Device

variable {F : FidoPrims} {A : BoardFate → Prop} {u : FidoRam} {b : Board Note}

/-- No enumeration is open. -/
theorem noEnumeration_ground :
    Ground beyondIter (fun u _ => u.iter.kind = .none) (fun _ => True) where
  cut _ _ _ := trivial
  chip _ _ _ _ h := h
  ecc _ _ _ _ _ h := h
  keygen _ _ _ _ _ h := h
  counter _ _ _ h := h
  wait _ _ _ h := h
  note _ _ _ _ h := h
  ram _ _ _ hu h := (congrArg IterState.kind hu).trans h

theorem noEnumeration_around :
    Around F A beyondIter (fun u _ => u.iter.kind = .none) fun _ => True :=
  noEnumeration_ground.around beyondIter_base

theorem eq_credentialMgmt {r : Request} (hr : r.command.isCredentialMgmt = true) :
    ∃ c valid, r = ⟨.credentialMgmt c, valid⟩ := by
  rcases r with ⟨command, valid⟩
  cases command with
  | credentialMgmt c => exact ⟨c, valid, rfl⟩
  | _ => cases hr

/-- Any other command ends an enumeration, but for an empty one. -/
theorem swp_otherPayload {r : Request} (hr : r.command.isCredentialMgmt = false) :
    swp (fidoBoard F) A (fidoHidCborDispatch F r)
      (fun _ u' b' => if r.command.isEmpty then
          u'.iter = u.iter ∧ u'.token = u.token ∧ Rests u b u' b'
        else u'.iter.kind = .none)
      (fun _ => True) u b := by
  have a : Around F A beyondIter (fun u _ => u.iter.kind = .none) fun _ => True :=
    noEnumeration_around
  rw [fidoHidCborDispatch, swp_bind]
  apply swp_leave
  rw [swp_bind, dispatch]
  split
  · rw [swp_pure, swp_bind]
    apply swp_leave
    exact ⟨rfl, rfl, ⟨rfl, rfl, rfl⟩, rfl, rfl⟩
  have hchecked : Keeps (fidoBoard F) A (fun u _ => u.iter.kind = .none) (fun _ => True) (do
      endIteration r.command
      serveChecked F r) := by
    apply keeps_bind
    · exact keeps_ite (keeps_pure _) (a.ground.vars fun _ => rfl)
    · intro _
      apply keeps_ite (keeps_pure _)
      apply keeps_get_bind
      intro u
      apply keeps_ite (keeps_pure _)
      apply a.serve beyondIter_tokens ⟨trivial, trivial⟩
        fun _ => ⟨fun _ _ => rfl, trivial, trivial, trivial⟩
      intro hcm
      rw [hr] at hcm
      cases hcm
  rw [swp_bind, endEnumeration, if_neg (by simp [hr]), credmgmtResetIterator]
  apply swp_setIter
  apply swp_mono (hchecked _ _ rfl) _ fun _ h => h
  intro ans u' b' h
  rw [swp_bind]
  exact swp_leave h

theorem o1Scope_served : o1Scope.Served where
  tokens := ⟨fun _ _ => rfl, fun _ _ => trivial⟩
  resets := ⟨trivial, trivial⟩
  assertions := ⟨fun _ _ => rfl, trivial, trivial, trivial⟩
  iter _ _ := rfl
  powerUp := trivial
  request _ := trivial
  answer _ _ := trivial

/-- The variables and the store belong together, and so does the iterator. -/
def Kempt (F : FidoPrims) (u : FidoRam) (b : Board Note) : Prop :=
  Synced F u b ∧ Confined (shelf F u b) u.token u.iter

theorem Kempt.rests {u' : FidoRam} {b' : Board Note} (h : Kempt F u b) (hr : Rests u b u' b')
    (ht : u'.token = u.token) (hi : u'.iter = u.iter) : Kempt F u' b' := by
  refine ⟨h.1.rests hr, ?_⟩
  rw [hr.shelf, ht, hi]
  exact h.2

theorem serves_ready (h : u.ready = true) : Serves F (shelf F u b) u b := by
  refine ⟨⟨?_, rfl⟩, h⟩
  simp only [FidoRam.ready, Bool.and_eq_true] at h
  exact h.1.2

/-- A payload of the credential management, at any time. -/
theorem held_payload (hA : ∀ f, A f → Honest F f) (h : Kempt F u b) (c : Except Status CmReq)
    (valid : Bool) :
    swp (fidoBoard F) A (fidoHidCborDispatch F ⟨.credentialMgmt c, valid⟩)
      (Held F (shelf F u b) u b)
      (fun b' => ∀ rpHash, u.token.BoundTo rpHash → Spares F (shelf F u b) rpHash b b') u b := by
  by_cases hgo : valid = true ∧ u.ready = true
  · obtain ⟨rfl, hready⟩ := hgo
    have hr : Rests u b (u.setGa .zero) (b.jot (.request ⟨.credentialMgmt c, true⟩)) :=
      ⟨⟨rfl, rfl, rfl⟩, still_jot _ _⟩
    have hspares : ∀ {b'}, (∀ R, (u.setGa .zero).token.BoundTo R → Spares F (shelf F u b) R
        (b.jot (.request ⟨.credentialMgmt c, true⟩)) b') →
        ∀ R, u.token.BoundTo R → Spares F (shelf F u b) R b b' :=
      fun hsp R hR i m hi hne => (hr.still.spared i).trans (hsp R hR i m hi hne)
    apply swp_cmPayload hready
    apply swp_mono (held_credmgmtHandleCbor hA ((serves_ready hready).rests hr)
      (h.1.rests hr) h.2 c)
    · intro a u' b' hh
      refine ⟨hh.confined, hh.only, fun R hR i m hi hne => ?_⟩
      exact (hspares hh.spares R hR i m hi hne).trans ((still_jot b' _).spared i)
    · exact fun b' hsp => hspares hsp
  · apply swp_cmPayload_refused
    · rw [not_and_or, Bool.not_eq_true, Bool.not_eq_true] at hgo
      exact hgo
    · intro b' hb
      have hr : Rests u b (u.setGa .zero) b' := ⟨⟨rfl, rfl, rfl⟩, hb⟩
      exact ⟨(h.rests hr rfl rfl).2, fun _ _ => trivial, spares_still hb⟩

theorem kempt_payload (hA : ∀ f, A f → Honest F f) (r : Request) :
    Keeps (fidoBoard F) A (Kempt F) (fun _ => True) (fidoHidCborDispatch F r) := by
  intro u b h
  have hsync := (synced_around hA).fidoHidCborDispatch o1Scope_served r u b h.1
  have hiter : swp (fidoBoard F) A (fidoHidCborDispatch F r)
      (fun _ u' b' => Confined (shelf F u' b') u'.token u'.iter) (fun _ => True) u b := by
    cases hr : r.command.isCredentialMgmt with
    | false =>
        apply swp_mono (swp_otherPayload hr) _ fun _ _ => trivial
        intro _ u' b' hother
        split at hother
        · obtain ⟨hi, ht, hrest⟩ := hother
          exact (h.rests hrest ht hi).2
        · exact confined_idle hother
    | true =>
        obtain ⟨c, valid, rfl⟩ := eq_credentialMgmt hr
        exact swp_mono (held_payload hA h c valid) (fun _ _ _ hh => hh.confined) fun _ _ => trivial
  exact swp_mono (swp_and hsync hiter) (fun _ _ _ h => h) fun _ _ => trivial

theorem kempt_bringUp (hA : ∀ f, A f → Honest F f) :
    swp (fidoBoard F) A (bringUp F) (fun _ => Kempt F) (fun _ => True) .boot b := by
  have hsync := (synced_around hA).bringUp o1Scope_served .boot b
    (synced_of_not_usable (not_usable_of_off rfl))
  have hnone : swp (fidoBoard F) A (bringUp F) (fun _ u' _ => u'.iter.kind = .none)
      (fun _ => True) .boot b := by
    rw [bringUp, swp_bind]
    apply swp_leave
    exact noEnumeration_around.initialised beyondIter_tokens .boot _ rfl
  exact swp_mono (swp_and hsync hnone) (fun _ _ _ h => ⟨h.1, confined_idle h.2⟩) fun _ _ => trivial

/-- Whatever the device has been through. -/
theorem kempt_run (F : FidoPrims) (b : Board Note) {acts : List Action}
    (hacts : ∀ a ∈ acts, a.Within (Honest F)) {d : Device} (hd : (device F b).run acts = d)
    {u : FidoRam} (hu : d.ram = some u) : Kempt F u d.board := by
  have h := meets_run (F := F) (A := Honest F) (b := b) (J := Kempt F) (C := fun _ => True)
    trivial trivial (fun _ _ _ => trivial) (fun b _ => kempt_bringUp fun _ h => h)
    (kempt_payload fun _ h => h) hacts
  rw [hd, Device.Meets, hu] at h
  exact h

end Device

end Nixtropic.Fido
