import Nixtropic.Fido.CredReuse

/-!
The ids of the store, over any run.

A run is any calls of `slots.h` with any fates, power cuts included, and with
the rest of the firmware in between. What a call leaves is said once for each
kind: `swp_alloc_allocated` for an allocation that answers, `swp_call_drops` for one
that drops a credential. The runs after it keep that.
-/

namespace Nixtropic.Fido

open Crash Runs

/-! ### The generator -/

/-- The random bytes are used up in their order. -/
def Spends (w w' : World) : Prop := w'.rng = w.rng ∧ w.drawn ≤ w'.drawn

theorem Spends.refl (w : World) : Spends w w := ⟨rfl, Nat.le_refl _⟩

theorem Spends.trans {w w₁ w₂ : World} (h : Spends w w₁) (h' : Spends w₁ w₂) : Spends w w₂ :=
  ⟨h'.1.trans h.1, Nat.le_trans h.2 h'.2⟩

theorem spends_exec (P : Prims) (o : Op) (w : World) : Spends w (exec P o w).2 := by
  cases o with
  | random len => exact ⟨rfl, Nat.le_add_right _ _⟩
  | rmemWrite slot data =>
      rw [exec]
      split <;> exact ⟨rfl, Nat.le_refl _⟩
  | _ => exact ⟨rfl, Nat.le_refl _⟩

theorem spends_tear (left : RSlot) (o : Op) (w : World) : Spends w (tear left o w) := by
  cases o <;> exact ⟨rfl, Nat.le_refl _⟩

theorem spends_act (P : Prims) (f : Fate) (o : Op) (w : World) : Spends w (act P f o w).2 := by
  have hexec : Spends w (exec P o (w.note o)).2 := spends_exec P o (w.note o)
  have htear : ∀ left, Spends w (tear left o (w.note o)) :=
    fun left => spends_tear left o (w.note o)
  cases o with
  | hmac key msg => exact ⟨rfl, Nat.le_refl _⟩
  | _ =>
      cases f with
      | none => exact hexec
      | lost => exact hexec
      | cutAfter => exact hexec
      | torn left acked => exact htear left
      | cutTorn left => exact htear left
      | _ => exact ⟨rfl, Nat.le_refl _⟩

theorem boardExec_chip {N : Type} (K : KeyPrims) (o : BoardOp N) (b : Board N) :
    (boardExec K o b).2.chip = b.chip := by
  cases o with
  | eccGenerate slot curve =>
      rw [boardExec]
      split <;> rfl
  | eccPubkeyRead slot =>
      rw [boardExec]
      cases b.ecc slot <;> rfl
  | eddsaSign slot msg =>
      rw [boardExec]
      cases b.ecc slot with
      | none => rfl
      | some k => dsimp only; split <;> rfl
  | ecdsaSign slot msg =>
      rw [boardExec]
      cases b.ecc slot with
      | none => rfl
      | some k => dsimp only; split <;> rfl
  | mcounterUpdate =>
      rw [boardExec]
      rcases b.counter with _ | _ | n <;> rfl
  | mcounterGet =>
      rw [boardExec]
      cases b.counter <;> rfl
  | _ => rfl

theorem boardAct_chip {N : Type} (K : KeyPrims) (f : BoardFate) (o : BoardOp N) (b : Board N) :
    (boardAct K f o b).2.chip = b.chip := by
  have hexec := boardExec_chip K o b
  cases o with
  | tick => rfl
  | note n => rfl
  | touch t =>
      rw [boardAct]
      cases f.chip <;> rfl
  | _ =>
      rw [boardAct_onTropic (by trivial)]
      cases f.chip <;> first | exact hexec | rfl

section Programs

variable {F : FidoPrims} {A : BoardFate → Prop} {u : FidoRam} {b : Board Note}

/-- Every program spends. -/
theorem swp_spends {α : Type} (m : FidoM α) :
    swp (fidoBoard F) A m (fun _ _ b' => Spends b.chip b'.chip) (fun b' => Spends b.chip b'.chip)
      u b := by
  apply swp_rel (R := fun b b' : Board Note => Spends b.chip b'.chip)
  · exact fun b => .refl b.chip
  · exact fun h h' => Spends.trans h h'
  · intro f o b
    cases o with
    | inl o => exact spends_act F.chip f.chip o b.chip
    | inr o =>
        rw [boardMachine_act, boardAct_chip]
        exact .refl b.chip

theorem NoRepeat.spends {nonce : Bytes} {w w' : World} (h : NoRepeat nonce w) (hw : Spends w w') :
    NoRepeat nonce w' := by
  intro n hn
  rw [hw.1]
  exact h n (Nat.le_trans hw.2 hn)

/-! ### What the calls leave -/

theorem publishedBitmap_new {bitmap mask : BitVec 32} {slot : ℕ} (hlt : slot < fidoSlotsMax)
    (hmask : mask.getLsbD slot = false) :
    (publishedBitmap bitmap mask slot).getLsbD slot = true := by
  simp only [fidoSlotsMax] at hlt
  have hlt' : slot < 32 := by omega
  rw [publishedBitmap, BitVec.getLsbD_and, BitVec.getLsbD_or, BitVec.getLsbD_not,
    BitVec.getLsbD_and, hmask]
  simp [hlt']

theorem publishedBitmap_dropped {bitmap mask : BitVec 32} {slot i : ℕ} (hlt : i < fidoSlotsMax)
    (hmask : mask.getLsbD i = true) : (publishedBitmap bitmap mask slot).getLsbD i = false := by
  have hall : ∀ i < fidoSlotsMax, fidoMask.getLsbD i = true := by decide
  have hin := hall i hlt
  rw [publishedBitmap, BitVec.getLsbD_and, BitVec.getLsbD_not, BitVec.getLsbD_and, hmask, hin]
  simp

/-- An allocation answered: the credential is in the store under its id, and
what it replaces is out of both copies of O1. -/
structure Allocated (F : FidoPrims) (q : NewCred) (credId : Bytes) (i : ℕ) (b : Board Note) :
    Prop where
  lt : i < fidoSlotsMax
  id_eq : credId = makeCredId i (credId.drop 2)
  stored : q.replaceMask.getLsbD i = false → InStore F i (q.entry (credId.drop 2)) b
  replaced : ∀ j < fidoSlotsMax, q.replaceMask.getLsbD j = true → NoBit F j b

theorem swp_alloc_allocated (hA : ∀ f, A f → SoundFate F f) (hs : Synced F u b) (q : NewCred) :
    swp (fidoBoard F) A (q.alloc F)
      (fun r _ b' => ∀ credId i, r = .ok credId i → Allocated F q credId i b')
      (fun _ => True) u b := by
  have hrefused : ∀ {r b'}, SlotsAlloc.isOk r = false →
      ∀ credId i, r = .ok credId i → Allocated F q credId i b' := by
    rintro _ _ h _ _ rfl
    cases h
  apply swp_alloc hA board_leaves_any
  · exact fun r hr => hrefused hr
  · exact fun slot r c w _ hr _ _ _ => hrefused hr
  · exact fun _ _ _ _ _ _ _ => trivial
  · intro slot w hu hfree hst hw
    have hlt := firstFree_lt hfree
    have hat : GlobalAt F ((b.setChip w).jot (.publish slot q.created)).chip.rmem u.global := by
      apply (hs hu).away hw.away
      rintro _ rfl
      exact o1_not_meta ⟨slot, hlt, rfl⟩
    have hcred : credAt w.rmem slot = .ok (q.entry (b.chip.draw 16)) := by
      rw [credAt_eq, hw.self]
      exact entryOf_bytes hst
    rw [publishes, swp_bind]
    apply swp_writeGlobal (fun f hf => (hA f hf).1) hat
    · rintro w' - hboth hb _ _ ⟨⟩
      refine ⟨hlt, rfl, fun hmask => ?_, fun j hj hmask => ?_⟩
      · exact ⟨_, hboth.at, publishedBitmap_new hlt hmask, (credAt_beside hb hlt).trans hcred⟩
      · exact GlobalBoth.noBit hboth (publishedBitmap_dropped hj hmask)
    · exact fun _ _ _ _ => hrefused rfl
    · exact fun _ _ _ => hrefused rfl
    · exact fun _ _ _ => trivial

theorem swp_prog_allocated (hA : ∀ f, A f → SoundFate F f) (hs : Synced F u b) (q : NewCred) :
    swp (fidoBoard F) A (StoreCall.prog F (.alloc q))
      (fun r _ b' => ∀ credId i, r = .alloc (.ok credId i) → Allocated F q credId i b')
      (fun _ => True) u b := by
  rw [StoreCall.prog, swp_bind]
  apply swp_mono (swp_alloc_allocated hA hs q) _ fun _ h => h
  rintro r u' b' h credId i ⟨⟩
  exact h credId i rfl

theorem swp_slotsErase_done (hA : ∀ f, A f → Truthful f) (slot : ℕ) :
    swp (fidoBoard F) A (slotsErase F slot)
      (fun ok _ b' => ok = true → credAt b'.chip.rmem slot = .empty) (fun _ => True) u b := by
  have rest : ∀ (ok : Bool) u b, swp (fidoBoard F) A (erasesRecord slot ok)
      (fun ok _ b' => ok = true → credAt b'.chip.rmem slot = .empty) (fun _ => True) u b := by
    intro ok u b
    cases ok with
    | false => exact fun h => by cases h
    | true =>
        rw [erasesRecord, if_pos rfl, swp_bind]
        apply swp_erase_truthful hA board_leaves_any
        · intro _
          rw [Board.setChip_chip, credAt_eq, World.setR_rmem, Function.update_self]
          rfl
        · exact fun _ _ h => by cases h
        · exact fun _ _ => trivial
  rw [slotsErase, swp_bind, swp_get]
  split
  · exact fun h => by cases h
  dsimp only
  split
  · exact rest true u b
  · rw [swp_bind]
    exact swp_mono (swp_spends _) (fun ok u' b' _ => rest ok u' b') fun _ _ => trivial

/-- The call has dropped the credential in the slot. -/
def StoreCall.drops (i : ℕ) (c : StoreCall) (r : StoreReply) : Prop :=
  c.mayDrop i ∧ (r = .done true ∨ ∃ credId j, r = .alloc (.ok credId j))

/-- The slot has no entry, or neither copy of O1 has its bit. -/
def Dropped (F : FidoPrims) (i : ℕ) (b : Board Note) : Prop :=
  credAt b.chip.rmem i = .empty ∨ NoBit F i b

theorem Dropped.gone {i : ℕ} (h : Dropped F i b) (nonce : Bytes) : Gone F i nonce b := by
  rcases h with h | h
  · refine .inl ?_
    rw [Lost, h]
    exact fun h => h
  · exact .inr h

theorem swp_call_drops (hA : ∀ f, A f → SoundFate F f) {i : ℕ} (hi : i < fidoSlotsMax)
    (hs : Synced F u b) (c : StoreCall) :
    swp (fidoBoard F) A (c.prog F) (fun r _ b' => c.drops i r → Dropped F i b') (fun _ => True)
      u b := by
  have hkeeps : ¬c.mayDrop i → swp (fidoBoard F) A (c.prog F)
      (fun r _ b' => c.drops i r → Dropped F i b') (fun _ => True) u b := fun hno =>
    swp_mono (swp_spends _) (fun _ _ _ _ h => absurd h.1 hno) fun _ _ => trivial
  have hfalse : ∀ {c : StoreCall} {b'}, c.drops i (.done false) → Dropped F i b' := by
    rintro c b' ⟨-, h | ⟨_, _, h⟩⟩ <;> cases h
  cases c with
  | initFresh =>
      rw [StoreCall.prog, swp_bind]
      apply swp_slotsInitFresh fun f hf => (hA f hf).1
      · exact fun w hboth _ _ => .inr (GlobalBoth.noBit hboth (by simp [Global.fresh]))
      · exact fun _ _ _ _ _ => hfalse
      · exact fun _ _ => trivial
  | wipeMeta =>
      rw [StoreCall.prog, swp_bind]
      apply swp_slotsWipeMeta
      · exact fun w _ _ hnone _ => .inl (hnone i hi)
      · exact fun _ _ _ _ => hfalse
      · exact fun _ _ _ => trivial
  | alloc q =>
      rw [StoreCall.prog, swp_bind]
      apply swp_mono (swp_alloc_allocated hA hs q) _ fun _ h => h
      rintro r u' b' h ⟨hmask, hr | ⟨credId, j, hr⟩⟩
      · cases hr
      · cases hr
        exact .inr ((h credId j rfl).replaced i hi hmask)
  | erase slot =>
      rw [StoreCall.prog, swp_bind]
      apply swp_mono (swp_slotsErase_done (fun f hf => (hA f hf).2) slot) _ fun _ h => h
      rintro ok u' b' h ⟨rfl, hr | ⟨_, _, hr⟩⟩
      · cases hr
        exact .inl (h rfl)
      · cases hr
  | _ => exact hkeeps fun h => h

end Programs

/-! ### Runs -/

section Outlasts

variable {F : FidoPrims} {A : BoardFate → Prop} {i : ℕ} {nonce : Bytes} {m : SlotMeta}

theorem away_elsewhere (b b' : Board Note) :
    Away (fun slot => ¬storeSlot slot) b.chip (elsewhere b b').chip := fun _ hs =>
  elsewhere_rmem b b' (not_not.mp hs)

theorem credAt_elsewhere (b b' : Board Note) (hi : i < fidoSlotsMax) :
    credAt (elsewhere b b').chip.rmem i = credAt b.chip.rmem i :=
  credAt_away (away_elsewhere b b') (not_not.mpr (.inr ⟨i, hi, rfl⟩))

theorem not_o1_elsewhere {slot : ℕ} (h : ¬storeSlot slot) : ¬o1.owns slot := fun ho => h (.inl ho)

/-- The copy in RAM is in step, and names slots that exist. -/
def Tracked (F : FidoPrims) (u : FidoRam) (b : Board Note) : Prop := Synced F u b ∧ u.Fits

theorem outlasts_tracked (F : FidoPrims) : Outlasts (Tracked F) fun _ => True where
  boot b _ := ⟨synced_of_not_usable rfl, fresh_fits⟩
  beside u u' b b' h := by
    refine ⟨h.1.congr rfl ?_, h.2.congr rfl⟩
    exact Away.mono (away_elsewhere b b') fun _ => not_o1_elsewhere
  lose _ _ _ := trivial

theorem outlasts_inStore (F : FidoPrims) (hi : i < fidoSlotsMax) :
    Outlasts (fun u b => Tracked F u b ∧ InStore F i m b) (InStore F i m) where
  boot b h := ⟨(outlasts_tracked F).boot b trivial, h⟩
  beside u u' b b' h := by
    refine ⟨(outlasts_tracked F).beside u u' b b' h.1, ?_⟩
    obtain ⟨g, hg, hbit, hm⟩ := h.2
    exact ⟨g, hg.away (away_elsewhere b b') fun _ => not_o1_elsewhere, hbit,
      (credAt_elsewhere b b' hi).trans hm⟩
  lose _ _ h := h.2

theorem outlasts_gone (F : FidoPrims) (hi : i < fidoSlotsMax) :
    Outlasts (fun u b => Tracked F u b ∧ NoRepeat nonce b.chip ∧ Gone F i nonce b)
      (fun b => NoRepeat nonce b.chip ∧ Gone F i nonce b) where
  boot b h := ⟨(outlasts_tracked F).boot b trivial, h⟩
  beside u u' b b' h := by
    refine ⟨(outlasts_tracked F).beside u u' b b' h.1, ?_, ?_⟩
    · exact h.2.1.spends ⟨rfl, Nat.le_add_right _ _⟩
    · rcases h.2.2 with hlost | hno
      · refine .inl ?_
        rw [Lost, credAt_elsewhere b b' hi]
        exact hlost
      · exact .inr (Carries.away hno (away_elsewhere b b') fun _ => not_o1_elsewhere)
  lose _ _ h := h.2

theorem tracked_call (hA : ∀ f, A f → Honest F f) (c : StoreCall) :
    Keeps (fidoBoard F) A (Tracked F) (fun _ => True) (c.prog F) := fun u b h =>
  swp_mono (swp_and ((synced_rules hA).call c u b h.1) (fits_rules.call c u b h.2))
    (fun _ _ _ h => h) fun _ _ => trivial

/-- What each call keeps, the actions keep. -/
theorem slotStore_keeps {J : FidoRam → Board Note → Prop} {C : Board Note → Prop} {b : Board Note}
    (hquiet : A .quiet) (ho : Outlasts J C) {d : Device} {acts : List StoreAction}
    (hwithin : ∀ a ∈ acts, a.Within A)
    (hcalls : ∀ c fs, StoreAction.call c fs ∈ acts → Keeps (fidoBoard F) A J C (c.prog F))
    (h : d.Meets J C) : ((slotStore F b).runFrom d acts).Meets J C := by
  apply System.runFrom_keeps_of (C := fun _ a => a ∈ acts) _ h
  · intro pre a hpre
    exact hpre.subset (List.mem_append_right _ List.mem_cons_self)
  · intro d a hd ha
    apply storeStep_keeps hquiet ho (hwithin a ha) _ hd
    rintro c fs rfl
    exact hcalls c fs ha

end Outlasts

/-! ### Answers -/

section Answers

variable {F : FidoPrims} {A : BoardFate → Prop} {d : Device} {c : StoreCall} {fs : List BoardFate}
  {r : StoreReply}

theorem spends_storeStep (F : FidoPrims) (d : Device) (a : StoreAction) :
    Spends d.board.chip (storeStep F d a).board.chip := by
  rcases d with ⟨_ | u, b⟩
  · cases a <;> exact .refl b.chip
  · cases a with
    | powerUp => exact .refl b.chip
    | call c fs =>
        have hall : ∀ f ∈ fs, (fun _ : BoardFate => True) f := fun _ _ => trivial
        have hpost := run_of_swp (M := fidoBoard F) trivial
          (swp_spends (u := u) (b := b) (c.prog F)) hall
        show Spends b.chip (Device.settle (run (fidoBoard F) ((c.prog F).run u) fs b)).board.chip
        cases hrun : run (fidoBoard F) ((c.prog F).run u) fs b with
        | done x b' =>
            rw [hrun] at hpost
            exact hpost
        | cut b' =>
            rw [hrun] at hpost
            exact hpost
    | elsewhere u' b' => exact ⟨rfl, Nat.le_add_right _ _⟩

/-- The generator of a run goes on where the last call left it. -/
theorem spends_run (F : FidoPrims) (b : Board Note) (acts : List StoreAction) :
    Spends b.chip ((slotStore F b).run acts).board.chip :=
  System.run_keeps (I := fun d => Spends b.chip d.board.chip) (.refl b.chip)
    (fun d a h => h.trans (spends_storeStep F d a)) acts

theorem meets_of_ram {J : FidoRam → Board Note → Prop} {C : Board Note → Prop} {u : FidoRam}
    (h : d.Meets J C) (hu : d.ram = some u) : J u d.board := by
  rw [Device.Meets, hu] at h
  exact h

/-- A call that answered ran to its end. -/
theorem reply_some (h : d.reply F c fs = some r) :
    ∃ u u' b', d.ram = some u ∧
      run (fidoBoard F) ((c.prog F).run u) fs d.board = .done (r, u') b' ∧
      storeStep F d (.call c fs) = ⟨some u', b'⟩ := by
  rcases d with ⟨_ | u, b⟩
  · cases h
  · rw [Device.reply, Device.calls, Option.map_some] at h
    rcases hrun : run (fidoBoard F) ((c.prog F).run u) fs b with ⟨⟨r', u'⟩, b'⟩ | b'
    · rw [hrun] at h
      cases h
      refine ⟨u, u', _, rfl, hrun, ?_⟩
      rw [storeStep, Device.calls, Option.map_some, hrun]
      rfl
    · rw [hrun] at h
      cases h

/-- What a call that answered has done. -/
theorem answered {J : FidoRam → Board Note → Prop} {C C' : Board Note → Prop}
    {Q : StoreReply → FidoRam → Board Note → Prop} (hquiet : A .quiet) (hfs : ∀ f ∈ fs, A f)
    (hd : d.Meets J C) (hr : d.reply F c fs = some r)
    (h : ∀ u b, J u b → swp (fidoBoard F) A (c.prog F) Q C' u b) :
    ∃ u' b', storeStep F d (.call c fs) = ⟨some u', b'⟩ ∧ Q r u' b' := by
  obtain ⟨u, u', b', hu, hrun, hstep⟩ := reply_some hr
  have hJ : J u d.board := meets_of_ram hd hu
  have hpost := run_of_swp (M := fidoBoard F) hquiet (h u d.board hJ) hfs
  rw [hrun] at hpost
  exact ⟨u', b', hstep, hpost⟩

/-- The answer to a lookup is the result of the lookup. -/
theorem reply_lookup {u : FidoRam} (hu : d.ram = some u) {credId : Bytes}
    {res : Option (ℕ × SlotMeta)} :
    d.reply F (.lookup credId) fs = some (.lookup res) ↔
      ∃ u' b', run (fidoBoard F) ((slotsLookupByCredid credId).run u) fs d.board =
        .done (res, u') b' := by
  rw [Device.reply, Device.calls, hu, Option.map_some, StoreCall.prog]
  rcases hrun : run (fidoBoard F) ((slotsLookupByCredid credId).run u) fs d.board with
      ⟨⟨res', u'⟩, b'⟩ | b'
  · obtain ⟨n, hn⟩ := run_stBind_done hrun
    rw [hn]
    constructor
    · intro h
      cases h
      exact ⟨_, _, rfl⟩
    · rintro ⟨_, _, h⟩
      cases h
      rfl
  · rw [StateT.run_bind, run_bind_cut hrun]
    constructor
    · intro h
      cases h
    · rintro ⟨_, _, h⟩
      cases h

/-- Where nothing happens to it, an entry reads. -/
theorem readsEntry_calm {u : FidoRam} {b : Board Note} {i : ℕ} {m : SlotMeta}
    (hm : credAt b.chip.rmem i = .ok m) (hfs : ∀ f ∈ fs, CalmBoard f) :
    ReadsEntry F u b fs i m := by
  have hread : swp (fidoBoard F) CalmBoard (readCred i) (fun r _ _ => r = .ok m) (fun _ => False)
      u b := by
    apply swp_readCred
    · exact fun _ _ => hm
    · exact fun h => absurd h not_stormyBoard_calm
    · exact fun h => absurd h not_stormyBoard_calm
  have hpost := run_of_swp (M := fidoBoard F) calm_quiet hread hfs
  rcases hrun : run (fidoBoard F) ((readCred i).run u) fs b with ⟨⟨r, u'⟩, b'⟩ | b'
  · rw [hrun] at hpost
    obtain rfl : r = .ok m := hpost
    exact ⟨_, _, hrun⟩
  · rw [hrun] at hpost
    cases hpost

theorem makeCredId_inj {i j : ℕ} {nonce nonce' : Bytes} (hi : i < fidoSlotsMax)
    (hj : j < fidoSlotsMax) (h : makeCredId i nonce = makeCredId j nonce') :
    i = j ∧ nonce = nonce' := by
  simp only [makeCredId, List.cons_append, List.nil_append, List.cons.injEq, true_and] at h
  refine ⟨?_, h.2⟩
  have hnat := congrArg UInt8.toNat h.1
  simp only [UInt8.toNat_ofNat', fidoSlotsMax] at hnat hi hj
  omega

end Answers

theorem soundFate_quiet (F : FidoPrims) : SoundFate F .quiet := ⟨trivial, fun _ h => by cases h⟩

section Kept

variable {F : FidoPrims} {b : Board Note} {d : Device} {i : ℕ} {acts : List StoreAction}

/-- What is in the store stays while no call may drop it. -/
theorem inStore_kept {m : SlotMeta} (hi : i < fidoSlotsMax)
    (hacts : ∀ a ∈ acts, a.Within (SoundFate F))
    (hno : ∀ c fs, StoreAction.call c fs ∈ acts → ¬c.mayDrop i)
    (h : d.Meets (fun u b => Tracked F u b ∧ InStore F i m b) (InStore F i m)) :
    ((slotStore F b).runFrom d acts).Meets (fun u b => Tracked F u b ∧ InStore F i m b)
      (InStore F i m) := by
  apply slotStore_keeps (soundFate_quiet F) (outlasts_inStore F hi) hacts _ h
  intro c fs hc u b ⟨ht, hin⟩
  have hin' := (inStore_guards (fun _ hf => hf) hi).call (hno c fs hc) ht.1 trivial hin
  exact swp_mono (swp_and (tracked_call (fun f hf => hf.1) c u b ht) hin') (fun _ _ _ h => h)
    fun _ h => h.2

/-- What is gone stays gone. -/
theorem gone_kept {nonce : Bytes} (hi : i < fidoSlotsMax)
    (hacts : ∀ a ∈ acts, a.Within fun f => SoundFate F f ∧ Forgets nonce f)
    (h : d.Meets (fun u b => Tracked F u b ∧ NoRepeat nonce b.chip ∧ Gone F i nonce b)
      fun b => NoRepeat nonce b.chip ∧ Gone F i nonce b) :
    ((slotStore F b).runFrom d acts).Meets
      (fun u b => Tracked F u b ∧ NoRepeat nonce b.chip ∧ Gone F i nonce b)
      fun b => NoRepeat nonce b.chip ∧ Gone F i nonce b := by
  apply slotStore_keeps ⟨soundFate_quiet F, trivial⟩ (outlasts_gone F hi) hacts _ h
  intro c fs hc u b ⟨ht, hnew, hgone⟩
  have htracked := tracked_call (A := fun f => SoundFate F f ∧ Forgets nonce f)
    (fun f hf => hf.1.1) c u b ht
  have hgone' := (gone_guards (A := fun f => SoundFate F f ∧ Forgets nonce f) (fun f hf => hf.1)
    (fun f hf => hf.2) hi).call (c := c) trivial ht.1 hnew hgone
  apply swp_mono (swp_and htracked (swp_and (swp_spends (c.prog F)) hgone'))
  · exact fun _ _ _ h => ⟨h.1, hnew.spends h.2.1, h.2.2⟩
  · exact fun _ h => ⟨hnew.spends h.2.1, h.2.2⟩

/-- The id of what is in the store finds it. -/
theorem inStore_found {m : SlotMeta} {u : FidoRam} {credId : Bytes} {fs : List BoardFate}
    (hu : d.ram = some u) (ht : Tracked F u d.board) (hin : InStore F i m d.board)
    (hon : u.slotsUsable = true) (hid : credId = makeCredId i m.nonce)
    (hfs : ∀ f ∈ fs, CalmBoard f) :
    d.reply F (.lookup credId) fs = some (.lookup (some (i, m))) := by
  have hbit : u.bitmap.getLsbD i = true := by
    rw [FidoRam.bitmap, if_pos hon]
    exact hin.bit ht.1 hon
  have hm : credAt d.board.chip.rmem i = .ok m := by
    obtain ⟨g, -, -, hm⟩ := hin
    exact hm
  rw [reply_lookup hu, lookup_iff ht.2]
  exact ⟨hbit, readsEntry_calm hm hfs, hid⟩

/-- An id with the nonce of what is gone finds nothing. -/
theorem gone_not_found {nonce : Bytes} {u : FidoRam} {fs : List BoardFate} {found : ℕ × SlotMeta}
    (hi : i < fidoSlotsMax) (hu : d.ram = some u) (ht : Tracked F u d.board)
    (hgone : Gone F i nonce d.board) :
    d.reply F (.lookup (makeCredId i nonce)) fs ≠ some (.lookup (some found)) := by
  obtain ⟨j, m⟩ := found
  rw [Ne, reply_lookup hu, lookup_iff ht.2]
  rintro ⟨hbit, hread, hid⟩
  obtain ⟨hon, hslot, hj⟩ := listed_slot ht.2 hbit
  obtain ⟨rfl, rfl⟩ := makeCredId_inj hi hj hid
  rcases hgone with hlost | hno
  · apply hlost
    rw [hread.credAt]
    rfl
  · rw [hno.bit ht.1 hon] at hslot
    cases hslot

end Kept

/-- Ids resolve exactly. After any run of the store, a lookup answers with slot
`i` if and only if the bit of `i` is set, its entry reads, and the id is the one
made for it. The id of a new credential finds what was asked to be stored until a
call that may drop the credential; and once a call has dropped it, no run after
that makes the id find anything, as long as its nonce is not drawn again. -/
theorem cred_ids_exact (F : FidoPrims) (b : Board Note) (acts : List StoreAction)
    (hacts : ∀ a ∈ acts, a.Within (SoundFate F)) :
    (∀ u, ((slotStore F b).run acts).ram = some u → ∀ credId fs i m,
      ((slotStore F b).run acts).reply F (.lookup credId) fs = some (.lookup (some (i, m))) ↔
        u.bitmap.getLsbD i = true ∧ ReadsEntry F u ((slotStore F b).run acts).board fs i m ∧
          credId = makeCredId i m.nonce) ∧
    (∀ q fs credId i, (∀ f ∈ fs, SoundFate F f) → q.replaceMask.getLsbD i = false →
      ((slotStore F b).run acts).reply F (.alloc q) fs = some (.alloc (.ok credId i)) →
      ∀ acts', (∀ a ∈ acts', a.Within (SoundFate F)) →
        (∀ c fs, StoreAction.call c fs ∈ acts' → ¬c.mayDrop i) →
        ∀ u, ((slotStore F b).run (acts ++ .call (.alloc q) fs :: acts')).ram = some u →
          u.slotsUsable = true → ∀ fs', (∀ f ∈ fs', CalmBoard f) →
          ((slotStore F b).run (acts ++ .call (.alloc q) fs :: acts')).reply F
            (.lookup credId) fs' = some (.lookup (some (i, q.entry (credId.drop 2))))) ∧
    (∀ c fs r i, (∀ f ∈ fs, SoundFate F f) → i < fidoSlotsMax →
      ((slotStore F b).run acts).reply F c fs = some r → c.drops i r →
      ∀ nonce, NoRepeat nonce ((slotStore F b).run (acts ++ [.call c fs])).board.chip →
        ∀ acts', (∀ a ∈ acts', a.Within fun f => SoundFate F f ∧ Forgets nonce f) →
          ∀ fs' found, ((slotStore F b).run (acts ++ .call c fs :: acts')).reply F
            (.lookup (makeCredId i nonce)) fs' ≠ some (.lookup (some found))) := by
  have hquiet := soundFate_quiet F
  have hhonest : ∀ f, SoundFate F f → Honest F f := fun f hf => hf.1
  have hstart : ((slotStore F b).run acts).Meets (Tracked F) fun _ => True :=
    slotStore_keeps hquiet (outlasts_tracked F) hacts (fun c _ _ => tracked_call hhonest c) trivial
  have happend : ∀ c fs acts', (slotStore F b).run (acts ++ .call c fs :: acts') =
      (slotStore F b).runFrom (storeStep F ((slotStore F b).run acts) (.call c fs)) acts' :=
    fun c fs acts' => System.run_append (slotStore F b) acts (.call c fs :: acts')
  generalize (slotStore F b).run acts = d at hstart happend ⊢
  refine ⟨fun u hu credId fs i m => ?_, ?_, ?_⟩
  · rw [reply_lookup hu]
    exact lookup_iff (meets_of_ram hstart hu).2 credId fs i m
  · intro q fs credId i hfs hmask hr acts' hacts' hno u hu hon fs' hcalm
    -- the answer says that the credential is in the store, and there it stays
    rw [happend] at hu ⊢
    obtain ⟨u₁, b₁, hstep, h₁⟩ := answered hquiet hfs hstart hr fun u b h =>
      swp_and (tracked_call hhonest (.alloc q) u b h) (swp_prog_allocated (fun _ hf => hf) h.1 q)
    have hnew : Allocated F q credId i b₁ := h₁.2 credId i rfl
    have hin := inStore_kept (b := b) hnew.lt hacts' hno
      (d := storeStep F d (.call (.alloc q) fs)) (by
        rw [hstep]
        exact ⟨h₁.1, hnew.stored hmask⟩)
    have hlast := meets_of_ram hin hu
    exact inStore_found hu hlast.1 hlast.2 hon hnew.id_eq hcalm
  · intro c fs r i hfs hi hr hdrops nonce hnew acts' hacts' fs' found
    -- the answer says that the entry or the bit is gone; a later entry has another nonce
    rw [happend] at hnew ⊢
    obtain ⟨u₁, b₁, hstep, h₁⟩ := answered hquiet hfs hstart hr fun u b h =>
      swp_and (tracked_call hhonest c u b h) (swp_call_drops (fun _ hf => hf) hi h.1 c)
    rw [hstep] at hnew
    have hgone := gone_kept (b := b) hi hacts' (d := storeStep F d (.call c fs)) (by
        rw [hstep]
        exact ⟨h₁.1, hnew, (h₁.2 hdrops).gone nonce⟩)
    generalize (slotStore F b).runFrom (storeStep F d (.call c fs)) acts' = d' at hgone ⊢
    cases hu : d'.ram with
    | none =>
        rw [Device.reply, Device.calls, hu]
        exact fun h => by cases h
    | some u =>
        have hlast := meets_of_ram hgone hu
        exact gone_not_found hi hu hlast.1 hlast.2.2

/-- A generator that gives ones first, and never again. -/
def onesFirst : Board Note :=
  { blankBoard with chip := { World.blank with rng := fun n => if n < 16 then 1 else 0 } }

def onesNonce : Bytes := List.replicate 16 1

def someCred : NewCred := ⟨List.replicate 32 7, 1, 0, [9], 5, 0, by decide, by decide⟩

def openStore : List StoreAction := [.powerUp, .call .initFresh []]

theorem onesFirst_noRepeat (w : World) (hrng : w.rng = onesFirst.chip.rng) (hd : 16 ≤ w.drawn) :
    NoRepeat onesNonce w := by
  intro n hn h
  have hhead := congrArg (fun l => l.getD 0 0) h
  have hlate : ¬n < 16 := by omega
  simp [hrng, onesFirst, onesNonce, hlate] at hhead

/-- The slot is taken again after an erase, and the first id finds nothing. -/
theorem cred_ids_exact_demo :
    ((slotStore mixFido onesFirst).run (openStore ++ [.call (.alloc someCred) []])).reply mixFido
        (.lookup (makeCredId 0 onesNonce)) [] =
          some (.lookup (some (0, someCred.entry onesNonce))) ∧
      ((slotStore mixFido onesFirst).run ((openStore ++ [.call (.alloc someCred) []]) ++
        .call (.erase 0) [] :: [.call (.alloc someCred) []])).reply mixFido
        (.lookup (makeCredId 0 onesNonce)) [] ≠
          some (.lookup (some (0, someCred.entry onesNonce))) := by
  have hopen : ∀ a ∈ openStore, a.Within (SoundFate mixFido) := by
    simp [openStore, StoreAction.Within]
  have hfilled : ∀ a ∈ openStore ++ [.call (.alloc someCred) []],
      a.Within (SoundFate mixFido) := by
    simp [openStore, StoreAction.Within]
  have hmade : ((slotStore mixFido onesFirst).run openStore).reply mixFido (.alloc someCred) [] =
      some (.alloc (.ok (makeCredId 0 onesNonce) 0)) := by decide +kernel
  have herased : ((slotStore mixFido onesFirst).run
      (openStore ++ [.call (.alloc someCred) []])).reply mixFido (.erase 0) [] =
      some (.done true) := by decide +kernel
  obtain ⟨-, hfinds, -⟩ := cred_ids_exact mixFido onesFirst openStore hopen
  obtain ⟨-, -, hgone⟩ := cred_ids_exact mixFido onesFirst _ hfilled
  constructor
  · have hram : ((slotStore mixFido onesFirst).run
        (openStore ++ [.call (.alloc someCred) []])).ram.map FidoRam.slotsUsable = some true := by
      decide +kernel
    obtain ⟨u, hu, hon⟩ := Option.map_eq_some_iff.mp hram
    exact hfinds someCred [] _ 0 (by simp) (by decide) hmade [] (by simp) (by simp) u hu hon []
      (by simp)
  · apply hgone (.erase 0) [] _ 0 (by simp) (by decide) herased ⟨rfl, .inl rfl⟩ onesNonce
    · apply onesFirst_noRepeat
      · exact (spends_run mixFido onesFirst _).1
      · decide +kernel
    · simp [StoreAction.Within]

end Nixtropic.Fido
