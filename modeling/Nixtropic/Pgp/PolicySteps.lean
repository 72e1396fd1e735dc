import Nixtropic.Pgp.Policy

/-!
What the commands do to the touch flag and the count.

An edit of O3 that has nothing to do with them keeps the invariant, and so does a
touch flag that is set as long as a permanent one is not lowered. An activation
starts from a terminated card, of which no signature and no acknowledgement is on
record; a wipe begins with such a record. The signature itself needs that the count
went up before it.
-/

namespace Nixtropic.Pgp

open Crash Runs

/-! ### Edits -/

/-- An edit that leaves the life cycle, the touch flag and the count alone. -/
structure Mild (f : Bytes → Bytes) : Prop where
  length : ∀ p, o3Len ≤ p.length → o3Len ≤ (f p).length
  lc : ∀ p, o3Len ≤ p.length → (f p).getD offLc 0 = p.getD offLc 0
  uif : ∀ p, o3Len ≤ p.length → (f p).getD offUif 0 = p.getD offUif 0
  count : ∀ p, o3Len ≤ p.length → sigCount (f p) = sigCount p

theorem sigCount_congr {p p' : Bytes} (h₀ : p'.getD offSigcnt 0 = p.getD offSigcnt 0)
    (h₁ : p'.getD (offSigcnt + 1) 0 = p.getD (offSigcnt + 1) 0)
    (h₂ : p'.getD (offSigcnt + 2) 0 = p.getD (offSigcnt + 2) 0) : sigCount p' = sigCount p := by
  rw [sigCount, sigCount, byteAt, byteAt, byteAt, h₀, h₁, h₂]
  rfl

theorem Steady.mild {f : Bytes → Bytes} (h : Steady f) : Mild f where
  length := h.length
  lc p hp := h.byte p _ hp (by decide)
  uif p hp := h.byte p _ hp (by decide)
  count p hp := sigCount_congr (h.byte p _ hp (by decide)) (h.byte p _ hp (by decide))
    (h.byte p _ hp (by decide))

/-- A byte that is stored at another place. -/
theorem getD_patch_byte {p : Bytes} {off i : ℕ} (v : UInt8) (hp : o3Len ≤ p.length)
    (hoff : off ≤ o3Len) (hi : i ≠ off) : (patch p off [v]).getD i 0 = p.getD i 0 := by
  apply getD_patch (hoff.trans hp)
  rw [List.length_singleton]
  omega

theorem getD_patch_self {p : Bytes} {off : ℕ} (v : UInt8) (hp : o3Len ≤ p.length)
    (hoff : off < o3Len) : (patch p off [v]).getD off 0 = v :=
  getD_patch_inside (i := 0) (hoff.le.trans hp) Nat.one_pos

/-- The count that was stored. -/
theorem sigCount_patch {p : Bytes} {c : ℕ} (hp : o3Len ≤ p.length) (hc : c < 2 ^ 24) :
    sigCount (patch p offSigcnt
      [UInt8.ofNat (c / 2 ^ 16), UInt8.ofNat (c / 2 ^ 8), UInt8.ofNat c]) = c := by
  have hoff : offSigcnt ≤ p.length := Nat.le_trans (by decide) hp
  have h₀ := getD_patch_inside (i := 0) (v := [UInt8.ofNat (c / 2 ^ 16), UInt8.ofNat (c / 2 ^ 8),
    UInt8.ofNat c]) hoff (by simp)
  have h₁ := getD_patch_inside (i := 1) (v := [UInt8.ofNat (c / 2 ^ 16), UInt8.ofNat (c / 2 ^ 8),
    UInt8.ofNat c]) hoff (by simp)
  have h₂ := getD_patch_inside (i := 2) (v := [UInt8.ofNat (c / 2 ^ 16), UInt8.ofNat (c / 2 ^ 8),
    UInt8.ofNat c]) hoff (by simp)
  rw [Nat.add_zero] at h₀
  rw [sigCount, byteAt, byteAt, byteAt, h₀, h₁, h₂]
  simp only [List.getD_cons_zero, List.getD_cons_succ, UInt8.toNat_ofNat']
  omega

theorem mild_rcSet (v : UInt8) : Mild fun p => patch p offRcSet [v] where
  length p hp := hp.trans (le_length_patch (Nat.le_trans (by decide) hp))
  lc p hp := getD_patch_byte v hp (by decide) (by decide)
  uif p hp := getD_patch_byte v hp (by decide) (by decide)
  count p hp := sigCount_congr (getD_patch_byte v hp (by decide) (by decide))
    (getD_patch_byte v hp (by decide) (by decide)) (getD_patch_byte v hp (by decide) (by decide))

section Steps

variable {F : PgpPrims} {A : BoardFate → Prop} {R : PgpRam → Prop} {u : PgpRam} {b : Board Note}

theorem calmer_withCur (u : PgpRam) (p : Bytes) : Calmer u (u.withCur p) := ⟨rfl, id⟩

theorem calmer_uncertain (u : PgpRam) (v : Bool) : Calmer u (o3Cell.put u v) := ⟨rfl, id⟩

variable (hA : ∀ f, A f → Honest F f) (hR : Lasting R)
include hA hR

/-- A commit that keeps the life cycle, does not fall behind and keeps a permanent
flag. -/
theorem held_commit {next : Bytes} (h : Held F R (Ledger F) u b)
    (hlen : o3Len ≤ u.o3.cur.length → o3Len ≤ next.length)
    (hlc : o3Len ≤ u.o3.cur.length → next.getD offLc 0 = u.o3.cur.getD offLc 0)
    (hcount : u.o3.usable = true → o3Len ≤ u.o3.cur.length → Unwrapped F b →
      sigCount u.o3.cur ≤ sigCount next)
    (huif : u.o3.usable = true → u.o3.cur.getD offUif 0 = 2 → o3Len ≤ u.o3.cur.length →
      next.getD offUif 0 = 2) :
    swp (pgpBoard F) A (commit F next) (fun _ u' b' => Held F R (Ledger F) u' b')
      (Ledger F) u b := by
  have hsync : u.o3.usable = true → O3At F b.chip.rmem u.o3.cur := fun hu => (h.synced hu).1
  have hmove : u.o3.lifecycle = .operational → ∀ w, O3At F w.rmem u.o3.cur ∨ O3At F w.rmem next →
      Ledger F (b.setChip w) := by
    intro hop w hat
    obtain ⟨hu, -⟩ := lifecycle_operational.mp hop
    obtain ⟨h₀, hl⟩ := h.synced hu
    rcases hat with hat | hat
    · exact h.board.move h₀ hat rfl (fun _ => le_rfl) id
    · exact h.board.move h₀ hat (hlc hl) (hcount hu hl) fun h2 => huif hu h2 hl
  have hlong : u.o3.lifecycle = .operational → o3Len ≤ next.length := fun hop =>
    hlen (h.synced (lifecycle_operational.mp hop).1).2
  apply swp_commit hA hsync
  · exact fun _ => h
  · intro w hop hboth _
    exact ⟨hR u _ (calmer_withCur u next) h.ram, fun _ => ⟨hboth.at, hlong hop⟩,
      hmove hop w (.inr hboth.at)⟩
  · intro w v hop hat _
    obtain ⟨hu, -⟩ := lifecycle_operational.mp hop
    exact ⟨hR u _ (calmer_uncertain u v) h.ram, fun _ => ⟨hat, (h.synced hu).2⟩,
      hmove hop w (.inl hat)⟩
  · intro w hop hat _
    refine ⟨hR u _ (calmer_uncertain u true) h.ram, synced_of_not_usable ?_, hmove hop w (.inr hat)⟩
    simp [O3Ram.usable, o3Cell]
  · exact fun w hop hat _ => hmove hop w hat

theorem held_edit {f : Bytes → Bytes} (hf : Mild f) (h : Held F R (Ledger F) u b) :
    swp (pgpBoard F) A (commit F (f u.o3.cur)) (fun _ u' b' => Held F R (Ledger F) u' b')
      (Ledger F) u b := by
  apply held_commit hA hR h (hf.length _) (hf.lc _)
  · exact fun _ hl _ => (hf.count _ hl).ge
  · exact fun _ h2 hl => (hf.uif _ hl).trans h2

theorem held_setRcSet (v : UInt8) :
    Keeps (pgpBoard F) A (Held F R (Ledger F)) (Ledger F) (openpgpStateSetRcSet F v) := by
  apply keeps_ite _ (keeps_pure _)
  intro u b h
  rw [setBytes, swp_bind, swp_get]
  exact held_edit (f := fun p => patch p offRcSet [v]) hA hR (mild_rcSet v) h

theorem held_pinSetRc (rc : Bytes) :
    Keeps (pgpBoard F) A (Held F R (Ledger F)) (Ledger F) (pgpPinSetRc F rc) := by
  have hL := ofO3_ledger F
  apply keeps_get_bind
  intro u
  apply keeps_ite (keeps_pure _)
  apply keeps_ite (keeps_pure _)
  apply keeps_bind (held_clearPin hR hL _)
  intro ok
  apply keeps_ite _ (keeps_pure _)
  apply keeps_get_bind
  intro u
  have hrest : ∀ dropped : Bool, Keeps (pgpBoard F) A (Held F R (Ledger F)) (Ledger F)
      (if dropped then if rc.length = 0 then pure PinRc.ok else bindRc F rc else pure .err) := by
    intro dropped
    apply keeps_ite _ (keeps_pure _)
    apply keeps_ite (keeps_pure _)
    apply keeps_bind (held_bindPin hR hL _ _)
    intro ok
    apply keeps_ite _ (keeps_pure _)
    apply keeps_bind (held_setRcSet hA hR 1)
    intro ok
    exact keeps_ite (keeps_pure _) (keeps_pure _)
  apply keeps_ite
  · exact keeps_bind (held_setRcSet hA hR 0) hrest
  · exact keeps_bind (keeps_pure _) hrest

/-- A permanent touch flag is never lowered. -/
theorem held_setUif (v : UInt8) :
    Keeps (pgpBoard F) A (Held F R (Ledger F)) (Ledger F) (openpgpStateSetUif F v) := by
  intro u b h
  rw [openpgpStateSetUif, swp_bind, swp_get]
  split
  · exact h
  split
  · exact h
  · rename_i hkeep
    rw [swp_bind, setBytes, swp_bind, swp_get]
    have hstore : swp (pgpBoard F) A (commit F (patch u.o3.cur offUif [v]))
        (fun _ u' b' => Held F R (Ledger F) u' b') (Ledger F) u b := by
      apply held_commit hA hR h
      · exact fun hl => hl.trans (le_length_patch (Nat.le_trans (by decide) hl))
      · exact fun hl => getD_patch_byte v hl (by decide) (by decide)
      · intro _ hl _
        exact (sigCount_congr (getD_patch_byte v hl (by decide) (by decide))
          (getD_patch_byte v hl (by decide) (by decide))
          (getD_patch_byte v hl (by decide) (by decide))).ge
      · intro hu h2 hl
        rw [getD_patch_self v hl (by decide)]
        by_contra hv
        exact hkeep ⟨hu, h2, hv⟩
    apply swp_mono hstore _ fun _ h => h
    intro ok u' b' h'
    split <;> exact h'

/-- An activation is over a terminated card only. -/
theorem held_activate :
    Keeps (pgpBoard F) A (Held F R (Ledger F)) (Ledger F) (pgpLifecycleActivate F) := by
  intro u b h
  rw [pgpLifecycleActivate, swp_bind, swp_get]
  split
  · exact h
  · rename_i hterm
    obtain ⟨hu, hlc⟩ := lifecycle_terminated.mp (of_not_not hterm)
    have h₀ := (h.synced hu).1
    have hfresh : Fresh F b := by
      refine ⟨h.board.preceded, h.board.terminated _ h₀ hlc, fun hperm => ?_⟩
      obtain ⟨p, hp, -, hop⟩ := h.board.permanent hperm
      rw [← h₀.unique hp, hlc] at hop
      cases hop
    have hL := ofO3_fresh F
    have hlast : Keeps (pgpBoard F) A (Held F R (Fresh F)) (Fresh F) (openpgpStateActivate F) := by
      intro u b h
      have hmove : ∀ w, Fresh F (b.setChip w) := h.board.setChip
      apply swp_openpgpStateActivate hA fun hu => (h.synced hu).1
      · exact fun _ => h
      · intro w _ hboth _
        exact ⟨hR u _ (calmer_withCur u _) h.ram,
          fun _ => ⟨hboth.at, (defaults_length .operational).ge⟩, hmove w⟩
      · intro w v hop hat _
        obtain ⟨hu, -⟩ := lifecycle_terminated.mp hop
        exact ⟨hR u _ (calmer_uncertain u v) h.ram, fun _ => ⟨hat, (h.synced hu).2⟩, hmove w⟩
      · intro w _ _ _
        refine ⟨hR u _ (calmer_uncertain u true) h.ram, synced_of_not_usable ?_, hmove w⟩
        simp [O3Ram.usable, o3Cell]
      · exact fun w _ _ _ => hmove w
    have hall : Keeps (pgpBoard F) A (Held F R (Fresh F)) (Fresh F) (do
        if ← pgpPinClearAll then
          if ← pgpPinBindFactory F then
            if ← openpgpStateActivate F then pure ActivateResult.ok else pure .failed
          else pure .failed
        else pure .failed) := by
      apply keeps_bind (held_clearAll hR hL)
      intro ok
      apply keeps_ite _ (keeps_pure _)
      apply keeps_bind (held_bindFactory hR hL)
      intro ok
      apply keeps_ite _ (keeps_pure _)
      apply keeps_bind hlast
      intro ok
      exact keeps_ite (keeps_pure _) (keeps_pure _)
    exact hall.swp ⟨h.ram, h.synced, hfresh⟩
      (fun _ _ _ h => ⟨h.ram, h.synced, h.board.ledger⟩) fun _ h => h.ledger

omit hA hR in
/-- A note that says nothing of signatures, wipes and answers. -/
theorem held_leave {n : Note} (hn : n ≠ .wipe) (hs : n ≠ .sign sigSlot)
    (hans : ∀ inp out, n ≠ .answer inp out) :
    Keeps (pgpBoard F) A (Held F R (Ledger F)) (Ledger F) (leave n) := by
  intro u b h
  exact swp_leave ⟨h.ram, h.synced, h.board.jot hn hs hans⟩

omit hA hR in
theorem held_touch :
    Keeps (pgpBoard F) A (Held F R (Ledger F)) (Ledger F) requireTouchIfEnabled := by
  apply keeps_get_bind
  intro u
  apply keeps_ite (keeps_pure _)
  apply keeps_bind
  · intro u b h
    apply swp_userPresenceCheck
    · exact fun _ _ => ⟨h.ram, h.synced, h.board.same rfl fun _ => Iff.rfl⟩
    · exact fun _ => h.board
  · intro r
    apply keeps_bind _ fun _ => keeps_pure _
    exact held_leave (fun h => by cases h) (fun h => by cases h) fun _ _ h => by cases h

/-- What the handlers are made of keeps the invariant. -/
theorem policy_frame : Frame F A (Held F R (Ledger F)) (Ledger F) where
  status _ := held_pin hR (ofO3_ledger F) footprint_pinMdKernelStatus
  verify _ _ := held_pin hR (ofO3_ledger F) footprint_pinMdKernelVerify
  change _ _ _ _ _ := held_pin hR (ofO3_ledger F) footprint_pinMdKernelChange
  setPw1 _ _ := held_pin hR (ofO3_ledger F) footprint_pinMdKernelSetup
  setRc := held_pinSetRc hA hR
  edit _ hf _ _ h := held_edit hA hR hf.mild h
  setUif := held_setUif hA hR
  activate := held_activate hA hR
  random _ := held_perform hR (ofO3_ledger F) trivial
  hmac _ _ := held_perform hR (ofO3_ledger F) trivial
  eccErase := held_eccErase (ofO3_ledger F)
  eccGenerate := held_eccGenerate (ofO3_ledger F)
  pubkeyRead := held_pubkeyRead (ofO3_ledger F)
  signAut msg := by
    apply keeps_ite (keeps_pure _)
    apply keeps_bind
    · exact held_leave (fun h => by cases h) (fun h => by cases h) fun _ _ h => by cases h
    · intro _
      apply keeps_bind (held_eddsaSign (ofO3_ledger F) _ _)
      intro r
      cases r with
      | error _ => exact keeps_pure _
      | ok sig => exact keeps_pure _
  touch := held_touch
  unwrap := held_leave (fun h => by cases h) (fun h => by cases h) fun _ _ h => by cases h
  drop := held_drop hR

end Steps

/-! ### Wipes, boots and TERMINATE -/

/-- Nobody has access by PW1. -/
def Locked (u : PgpRam) : Prop := u.auth.hasPw1 = false

theorem Locked.guarded {u : PgpRam} (h : Locked u) : Guarded u := .inr h

theorem Locked.shut {u u' : PgpRam} (h : Locked u) (hs : u.Shut u') : Locked u' := by
  obtain ⟨s, -, rfl⟩ := hs
  exact h

theorem Held.ledger {F : PgpPrims} {R : PgpRam → Prop} {u : PgpRam} {b : Board Note}
    (h : Held F R (Fresh F) u b) : Held F R (Ledger F) u b := ⟨h.ram, h.synced, h.board.ledger⟩

theorem Held.imp {F : PgpPrims} {R R' : PgpRam → Prop} {L : Board Note → Prop} {u : PgpRam}
    {b : Board Note} (h : Held F R L u b) (hR : R u → R' u) : Held F R' L u b :=
  ⟨hR h.ram, h.synced, h.board⟩

section Wipes

variable {F : PgpPrims} {A : BoardFate → Prop} {u : PgpRam} {b : Board Note}
  (hA : ∀ f, A f → Honest F f)
include hA

theorem held_stateClear :
    Keeps (pgpBoard F) A (Held F Locked (Fresh F)) (Fresh F) openpgpStateClear := by
  intro u b h
  apply swp_openpgpStateClear hA
  · exact fun _ u' w hs _ _ _ =>
      ⟨h.ram.shut hs, synced_of_not_usable hs.not_usable, h.board.setChip w⟩
  · exact fun w _ _ => h.board.setChip w

theorem held_stateInit (lc : Lifecycle) :
    Keeps (pgpBoard F) A (Held F Locked (Fresh F)) (Fresh F) (openpgpStateInit F lc) := by
  intro u b h
  apply swp_openpgpStateInit hA
  · exact fun w hboth _ => ⟨h.ram, fun _ => ⟨hboth.at, (defaults_length lc).ge⟩, h.board.setChip w⟩
  · exact fun u' w hs _ => ⟨h.ram.shut hs, synced_of_not_usable hs.not_usable, h.board.setChip w⟩
  · exact fun w _ => h.board.setChip w

/-- From the note on there is nothing on record that a wipe could contradict. -/
theorem swp_wipe (hu : Locked u) (hs : Synced F u b) (hp : Preceded F b.notes) :
    swp (pgpBoard F) A pgpLifecycleWipe (fun _ u' b' => Held F Locked (Fresh F) u' b') (Fresh F)
      u b := by
  have hL := ofO3_fresh F
  have hrest : Keeps (pgpBoard F) A (Held F Locked (Fresh F)) (Fresh F) (do
      if ← eraseKeys then
        if ← openpgpStateClear then pgpPinClearAll else pure false
      else pure false) := by
    have hkeys : Keeps (pgpBoard F) A (Held F Locked (Fresh F)) (Fresh F) eraseKeys := by
      apply keeps_bind (held_eccErase hL _)
      rintro (_ | _)
      · exact keeps_pure _
      · apply keeps_bind (held_eccErase hL _)
        rintro (_ | _)
        · exact keeps_pure _
        · apply keeps_bind (held_eccErase hL _)
          rintro (_ | _) <;> exact keeps_pure _
    apply keeps_bind hkeys
    intro ok
    apply keeps_ite _ (keeps_pure _)
    apply keeps_bind (held_stateClear hA)
    intro ok
    exact keeps_ite (held_clearAll lasting_locked hL) (keeps_pure _)
  rw [pgpLifecycleWipe, swp_bind]
  apply swp_leave
  exact hrest u _ ⟨hu, hs, fresh_wipe hp⟩

theorem held_terminate :
    Keeps (pgpBoard F) A (Held F Locked (Ledger F)) (Ledger F) (pgpLifecycleTerminate F) := by
  intro u b h
  rw [pgpLifecycleTerminate, swp_bind]
  generalize Lifecycle.terminated = lc
  apply swp_mono (swp_wipe hA h.ram h.synced h.board.preceded) _ fun _ h => h.ledger
  intro ok u₁ b₁ h₁
  split
  · exact (held_stateInit hA lc).swp h₁ (fun _ _ _ h => h.ledger) fun _ h => h.ledger
  · exact h₁.ledger

theorem held_boot :
    Keeps (pgpBoard F) A (Held F Locked (Ledger F)) (Ledger F) (pgpLifecycleBoot F) := by
  apply keeps_bind (held_session (ofO3_ledger F))
  rintro (_ | _)
  · exact keeps_pure _
  · intro u b h
    have hkept : ∀ {w : World}, Kept F b.chip w → Ledger F (b.setChip w) :=
      fun hk => h.board.same rfl hk.2
    dsimp only
    rw [swp_bind]
    refine swp_openpgpStateLoad hA ?_ ?_ ?_ ?_
    · exact fun p w _ hboth hlen _ hk => ⟨h.ram, fun _ => ⟨hboth.at, hlen.ge⟩, hkept hk⟩
    · intro u' w hs _ _
      dsimp only
      rw [swp_bind]
      have hsync : Synced F u' (b.setChip w) := synced_of_not_usable hs.not_usable
      apply swp_mono (swp_wipe hA (h.ram.shut hs) hsync h.board.preceded) _ fun _ h => h.ledger
      intro ok u₁ b₁ h₁
      have hrest : Keeps (pgpBoard F) A (Held F Locked (Fresh F)) (Fresh F) (do
          if ← pgpPinBindFactory F then openpgpStateInit F .operational else pure false) := by
        apply keeps_bind (held_bindFactory lasting_locked (ofO3_fresh F))
        intro ok
        exact keeps_ite (held_stateInit hA _) (keeps_pure _)
      split
      · exact hrest.swp h₁ (fun _ _ _ h => h.ledger) fun _ h => h.ledger
      · exact h₁.ledger
    · intro u' w hs hk
      exact ⟨h.ram.shut hs, synced_of_not_usable hs.not_usable, hkept hk⟩
    · exact fun w hk => hkept hk

omit hA in
theorem locked_dropAll (u : PgpRam) : Locked (u.dropAuth .all) := by
  simp [Locked, PgpRam.dropAuth, Auth.without, Auth.all, Auth.hasPw1]

theorem held_handleTerminateDf (p1 p2 : UInt8) :
    Keeps (pgpBoard F) A (Held F Guarded (Ledger F)) (Ledger F) (handleTerminateDf F p1 p2) := by
  apply keeps_ite (keeps_pure _)
  apply keeps_bind ((policy_frame hA lasting_guarded).pinStatus _)
  intro pw3
  apply keeps_get_bind
  intro u
  apply keeps_ite (keeps_pure _)
  intro u b h
  rw [swp_bind, authDrop, swp_modify]
  have h₁ : Held F Locked (Ledger F) (u.dropAuth .all) b :=
    ⟨locked_dropAll u, h.synced.same rfl fun _ => Iff.rfl, h.board⟩
  exact (Frame.answerSet (held_terminate hA)).swp h₁ (fun _ _ _ h => h.imp Locked.guarded)
    fun _ h => h

end Wipes

end Nixtropic.Pgp
