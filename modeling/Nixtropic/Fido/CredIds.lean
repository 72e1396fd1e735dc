import Nixtropic.Fido.StoreCalls
import Nixtropic.Fido.Deletion
import Nixtropic.Crash.Returns

/-!
Credential ids resolve exactly.

A lookup compares the id with the entry of the slot it names, and so finds a
credential by its own id only. What an allocation has published stays `InStore`
until a call that may drop it; what was dropped is `Gone`, either because its
entry is, or because neither copy of O1 has its bit, and no later allocation
brings it back as long as the nonces drawn are new.
-/

namespace Nixtropic.Fido

open Crash Runs

/-! ### What a lookup finds -/

/-- `read_cred` reads the entry of the slot. -/
def ReadsEntry (F : FidoPrims) (u : FidoRam) (b : Board Note) (fs : List BoardFate) (i : ℕ)
    (m : SlotMeta) : Prop :=
  ∃ u' b', run (fidoBoard F) ((readCred i).run u) fs b = .done (.ok m, u') b'

theorem decodeCred_nonce {buf : Bytes} {m : SlotMeta} (h : decodeCred buf = .ok m) :
    m.nonce.length = 16 := by
  rw [decodeCred] at h
  split at h
  · cases h
  split at h
  · cases h
  rename_i hlen
  split at h
  · cases h
  cases h
  show ((buf.drop 40).take 16).length = 16
  rw [List.length_take, List.length_drop]
  omega

theorem credAt_nonce {R : ℕ → RSlot} {i : ℕ} {m : SlotMeta} (h : credAt R i = .ok m) :
    m.nonce.length = 16 := by
  rw [credAt] at h
  split at h
  · cases h
  · cases h
  · exact decodeCred_nonce h

/-- What reads is what the slot holds. -/
theorem ReadsEntry.credAt {F : FidoPrims} {u : FidoRam} {b : Board Note} {fs : List BoardFate}
    {i : ℕ} {m : SlotMeta} (h : ReadsEntry F u b fs i m) : credAt b.chip.rmem i = .ok m := by
  obtain ⟨u', b', h⟩ := h
  have hread : swp (fidoBoard F) (fun _ => True) (readCred i)
      (fun r _ _ => ∀ m, r = .ok m → Fido.credAt b.chip.rmem i = .ok m) (fun _ => True) u b := by
    apply swp_readCred
    · exact fun _ _ _ hm => hm
    · exact fun _ _ _ => nofun
    · exact fun _ _ _ => trivial
  have hall : ∀ f ∈ fs, (fun _ : BoardFate => True) f := fun _ _ => trivial
  have hrun := run_of_swp (M := fidoBoard F) trivial hread hall
  rw [h] at hrun
  exact hrun m rfl

theorem makeCredId_split {credId : Bytes} (hlen : credId.length = slotsCredIdLen)
    (h₀ : credId.getD 0 0 = 0x01) :
    credId = makeCredId (byteAt credId 1) (credId.drop 2) := by
  rw [slotsCredIdLen] at hlen
  rcases credId with _ | ⟨a, _ | ⟨c, rest⟩⟩
  · cases hlen
  · cases hlen
  · have ha : a = 0x01 := h₀
    simp [makeCredId, byteAt, ha]

/-- What the bitmap lists is a slot that exists, in an open store. -/
theorem listed_slot {u : FidoRam} {i : ℕ} (hfits : u.Fits) (hbit : u.bitmap.getLsbD i = true) :
    u.slotsUsable = true ∧ u.slots.bitmap.getLsbD i = true ∧ i < fidoSlotsMax := by
  cases hu : u.slotsUsable with
  | false => simp [FidoRam.bitmap, hu] at hbit
  | true =>
      rw [FidoRam.bitmap, if_pos hu] at hbit
      refine ⟨rfl, hbit, ?_⟩
      apply Nat.lt_of_not_le
      intro hle
      have hno := fits_iff.mp hfits i hle
      rw [show u.global.bitmap = u.slots.bitmap from rfl, hbit] at hno
      cases hno

/-- The checks of a lookup before it reads. -/
theorem lookup_passes {u : FidoRam} {i : ℕ} {nonce : Bytes} (hfits : u.Fits)
    (hbit : u.bitmap.getLsbD i = true) (hnonce : nonce.length = 16) :
    byteAt (makeCredId i nonce) 1 = i ∧
      ¬(u.slotsUsable = false ∨ (makeCredId i nonce).length ≠ slotsCredIdLen ∨
        (makeCredId i nonce).getD 0 0 ≠ 0x01 ∨ fidoSlotsMax ≤ i ∨
        u.slots.bitmap.getLsbD i = false) := by
  obtain ⟨hu, hslot, hlt⟩ := listed_slot hfits hbit
  constructor
  · simp only [fidoSlotsMax] at hlt
    simp only [byteAt, makeCredId, List.cons_append, List.getD_cons_succ, List.getD_cons_zero,
      UInt8.toNat_ofNat']
    omega
  · simp [makeCredId, hnonce, hu, hslot, slotsCredIdLen, hlt]

/-- A lookup answers with slot `i` exactly if the bit of `i` is set, its entry
reads, and the id is the one made of them. -/
theorem lookup_iff {F : FidoPrims} {u : FidoRam} {b : Board Note} (hfits : u.Fits)
    (credId : Bytes) (fs : List BoardFate) (i : ℕ) (m : SlotMeta) :
    (∃ u' b', run (fidoBoard F) ((slotsLookupByCredid credId).run u) fs b =
        .done (some (i, m), u') b') ↔
      u.bitmap.getLsbD i = true ∧ ReadsEntry F u b fs i m ∧ credId = makeCredId i m.nonce := by
  constructor
  · rintro ⟨u', b', h⟩
    rw [slotsLookupByCredid, StateT.run_bind, StateT.run_get, Prog.pure_def, Prog.pure_bind'] at h
    dsimp only at h
    split at h
    · cases h
    rename_i hok
    simp only [not_or, Bool.not_eq_false, Decidable.not_not, Nat.not_le] at hok
    obtain ⟨hu, hlen, h₀, hlt, hbit⟩ := hok
    -- all that is left is the read, and the nonce it gives
    obtain ⟨r, x', hr, hrest⟩ := returns_of_bind (x := (u, fs, b)) h
    have hread := hr.run_eq
    cases r with
    | ok m' =>
        dsimp only at hrest
        by_cases hnonce : m'.nonce = credId.drop 2
        · rw [if_pos hnonce] at hrest
          cases hrest
          refine ⟨?_, ⟨_, _, hread⟩, ?_⟩
          · rw [FidoRam.bitmap, if_pos hu]
            exact hbit
          · rw [hnonce]
            exact makeCredId_split hlen h₀
        · rw [if_neg hnonce] at hrest
          cases hrest
    | _ => cases hrest
  · rintro ⟨hbit, hread, rfl⟩
    obtain ⟨hidx, hpass⟩ := lookup_passes hfits hbit (credAt_nonce hread.credAt)
    obtain ⟨u', b', hread⟩ := hread
    obtain ⟨n, hn⟩ := run_stBind_done hread
    refine ⟨u', b', ?_⟩
    rw [slotsLookupByCredid, StateT.run_bind, StateT.run_get, Prog.pure_def, Prog.pure_bind']
    dsimp only
    rw [hidx, if_neg hpass, hn]
    dsimp only
    rw [if_pos (show m.nonce = (makeCredId i m.nonce).drop 2 from rfl)]
    rfl

/-- In an open store `credstore_find` answers with slot `i` exactly if a lookup does, and the
entry is one of the RP. -/
theorem find_iff {F : FidoPrims} {u : FidoRam} {b : Board Note} (hfits : u.Fits)
    (hopen : u.storeInitted = true) (credId rpIdHash : Bytes) (fs : List BoardFate) (i : ℕ) :
    (∃ u' b', run (fidoBoard F) ((credstoreFind F credId rpIdHash).run u) fs b =
        .done (some i, u') b') ↔
      ∃ m, u.bitmap.getLsbD i = true ∧ ReadsEntry F u b fs i m ∧
        credId = makeCredId i m.nonce ∧ m.rpIdHash = rpIdHash := by
  have hopened : (credstoreFind F credId rpIdHash).run u = (slotsLookupByCredid credId >>= fun r =>
      pure (r.bind fun x => if x.2.rpIdHash = rpIdHash then some x.1 else none) :
      FidoM (Option ℕ)).run u := by
    rw [credstoreFind, credstoreInit, StateT.run_bind, StateT.run_bind, StateT.run_get,
      Prog.pure_def, Prog.pure_bind']
    dsimp only
    rw [if_pos hopen, StateT.run_pure, LawfulMonad.pure_bind, if_pos rfl]
    congr 2
    funext r
    cases r <;> rfl
  rw [hopened]
  constructor
  · rintro ⟨u', b', h⟩
    obtain ⟨r, x', hr, hrest⟩ := returns_of_bind (x := (u, fs, b)) h
    rcases r with _ | ⟨slot, m⟩
    · cases hrest
    by_cases hrp : m.rpIdHash = rpIdHash
    · rw [Option.bind_some, if_pos hrp] at hrest
      cases hrest
      obtain ⟨hbit, hread, hid⟩ := (lookup_iff hfits credId fs _ m).mp ⟨_, _, hr.run_eq⟩
      exact ⟨m, hbit, hread, hid, hrp⟩
    · rw [Option.bind_some, if_neg hrp] at hrest
      cases hrest
  · rintro ⟨m, hbit, hread, hid, hrp⟩
    obtain ⟨u', b', h⟩ := (lookup_iff hfits credId fs i m).mpr ⟨hbit, hread, hid⟩
    obtain ⟨n, hn⟩ := run_stBind_done h
    refine ⟨u', b', ?_⟩
    rw [hn, Option.bind_some, if_pos hrp]
    rfl

/-! ### What an allocation does -/

/-- Torn changes leave no record, and an OK is the truth. -/
def SoundFate (F : FidoPrims) (f : BoardFate) : Prop := Honest F f ∧ Truthful f

/-- The end of an allocation, once the entry is written. -/
def publishes (F : FidoPrims) (q : NewCred) (u : FidoRam) (slot : ℕ) (nonce : Bytes) :
    FidoM SlotsAlloc := do
  if ← writeGlobal F { u.global with
      bitmap := publishedBitmap u.slots.bitmap q.replaceMask slot } then
    pure (.ok (makeCredId slot nonce) slot)
  else pure .unknown

/-- The answer is a new credential. -/
def SlotsAlloc.isOk : SlotsAlloc → Bool
  | .ok _ _ => true
  | _ => false

section Alloc

variable {F : FidoPrims} {A : BoardFate → Prop} {J : RSlot → Prop} {u : FidoRam} {b : Board Note}
  {C : Board Note → Prop}

theorem board_leaves_any : ∀ f, A f → f.leaves fun _ => True := by
  intro f _
  rw [BoardFate.leaves]
  cases f.chip <;> trivial

theorem firstFree_free {bitmap : BitVec 32} {slot : ℕ} (h : firstFree bitmap = some slot) :
    bitmap.getLsbD slot = false := by
  simpa using List.find?_some h

/-- An allocation that is not published changed at most the entry of a free
slot; one that is has its entry written by then. -/
theorem swp_alloc (hA : ∀ f, A f → SoundFate F f) (hJ : ∀ f, A f → f.leaves J) {q : NewCred}
    {Q : SlotsAlloc → FidoRam → Board Note → Prop} (hrefused : ∀ r, r.isOk = false → Q r u b)
    (hbad : ∀ slot r c w, firstFree u.slots.bitmap = some slot → r.isOk = false →
      (q.entry (b.chip.draw 16)).Storable → Unfinished J (b.chip.rmem (rmemSlotFor slot))
        [.empty, .data (q.entry (b.chip.draw 16)).bytes] c →
      Rewrites (rmemSlotFor slot) c b.chip w → Q r u (b.setChip w))
    (hcut : ∀ slot c w, firstFree u.slots.bitmap = some slot →
      (q.entry (b.chip.draw 16)).Storable → Unfinished J (b.chip.rmem (rmemSlotFor slot))
        [.empty, .data (q.entry (b.chip.draw 16)).bytes] c →
      Rewrites (rmemSlotFor slot) c b.chip w → C (b.setChip w))
    (hpublish : ∀ slot w, u.slotsUsable = true → firstFree u.slots.bitmap = some slot →
      (q.entry (b.chip.draw 16)).Storable →
      Rewrites (rmemSlotFor slot) (.data (q.entry (b.chip.draw 16)).bytes) b.chip w →
      swp (fidoBoard F) A (publishes F q u slot (b.chip.draw 16)) Q C u
        ((b.setChip w).jot (.publish slot q.created))) :
    swp (fidoBoard F) A (q.alloc F) Q C u b := by
  rw [NewCred.alloc, slotsAlloc, swp_bind, swp_get]
  split
  · exact hrefused _ rfl
  rename_i hu
  have hu : u.slotsUsable = true := by simpa using hu
  split
  · exact hrefused _ rfl
  rename_i huser
  cases hfree : firstFree u.slots.bitmap with
  | none => exact hrefused _ rfl
  | some slot =>
      have hspent : ∀ n, Rewrites (rmemSlotFor slot) (b.chip.rmem (rmemSlotFor slot)) b.chip
          ((b.chip.note (.random 16)).spend n) :=
        fun n => .spent _ rfl rfl (Nat.le_add_right _ n)
      have hstored : (q.entry (b.chip.draw 16)).Storable :=
        ⟨q.rpIdHash_length, World.draw_length _ 16, Nat.le_of_not_lt huser, q.created_lt⟩
      dsimp only
      rw [swp_bind]
      apply swp_onChip
      apply swp_random
      · generalize hw : (b.chip.note (.random 16)).spend 16 = w
        have hr : w.rmem = b.chip.rmem := hw ▸ rfl
        have hrng : w.rng = b.chip.rng := hw ▸ rfl
        have hd : b.chip.drawn ≤ w.drawn := hw ▸ Nat.le_add_right _ 16
        have hold : w.rmem (rmemSlotFor slot) = b.chip.rmem (rmemSlotFor slot) := by rw [hr]
        dsimp only
        rw [swp_bind]
        apply swp_writeCred (b := b.setChip w) (fun f hf => (hA f hf).2) hJ hstored
        · intro w' hw'
          rw [if_pos rfl, swp_bind]
          apply swp_leave
          exact hpublish slot w' hu hfree hstored (hw'.after hr hrng hd)
        · intro c w' hc hw'
          exact hbad slot _ c w' hfree rfl hstored (hold ▸ hc) (hw'.after hr hrng hd)
        · intro c w' hc hw'
          exact hcut slot c w' hfree hstored (hold ▸ hc) (hw'.after hr hrng hd)
      · exact fun _ n => hbad slot _ _ _ hfree rfl hstored (.inl rfl) (hspent n)
      · exact fun _ n => hcut slot _ _ hfree hstored (.inl rfl) (hspent n)

end Alloc

/-! ### What stays -/

/-- The credential is in the store: O1 has its bit, and its entry is there. -/
def InStore (F : FidoPrims) (i : ℕ) (m : SlotMeta) (b : Board Note) : Prop :=
  ∃ g, GlobalAt F b.chip.rmem g ∧ g.bitmap.getLsbD i = true ∧ credAt b.chip.rmem i = .ok m

/-- A call that may drop the credential in a slot. -/
def StoreCall.mayDrop (i : ℕ) : StoreCall → Prop
  | .initFresh => True
  | .wipeMeta => True
  | .alloc q => q.replaceMask.getLsbD i = true
  | .erase slot => slot = i
  | _ => False

section Stays

variable {F : FidoPrims} {A : BoardFate → Prop} {i : ℕ} {m : SlotMeta} {u : FidoRam}
  {b : Board Note}

theorem InStore.setChip (h : InStore F i m b) {w : World} {S : ℕ → Prop}
    (hw : Away S b.chip w) (hO : ∀ slot, S slot → ¬o1.owns slot)
    (hslot : ¬S (rmemSlotFor i)) : InStore F i m (b.setChip w) := by
  obtain ⟨g, hg, hbit, hm⟩ := h
  exact ⟨g, hg.away hw hO, hbit, (credAt_away hw hslot).trans hm⟩

theorem InStore.same {w : World} (h : InStore F i m b) (hw : SameMem b.chip w) :
    InStore F i m (b.setChip w) := by
  obtain ⟨g, hg, hbit, hm⟩ := h
  refine ⟨g, hw.globalAt hg, hbit, ?_⟩
  rw [Board.setChip_chip, credAt, hw.rmem]
  exact hm

/-- A change of another entry. -/
theorem InStore.rewrites {w : World} {slot : ℕ} {c : RSlot} (h : InStore F i m b)
    (hslot : slot < fidoSlotsMax) (hne : slot ≠ i) (hw : Rewrites (rmemSlotFor slot) c b.chip w) :
    InStore F i m (b.setChip w) := by
  apply h.setChip hw.away
  · rintro _ rfl
    exact o1_not_meta ⟨slot, hslot, rfl⟩
  · simp only [rmemSlotFor]
    omega

/-- Writes that keep the bit. -/
theorem inStore_writeGlobal (hA : ∀ f, A f → Honest F f) (hi : i < fidoSlotsMax) {g : Global}
    (hg : u.slotsUsable = true → g.bitmap.getLsbD i = true) (h : InStore F i m b) :
    swp (fidoBoard F) A (writeGlobal F g) (fun _ _ b' => InStore F i m b') (InStore F i m) u b := by
  cases hu : u.slotsUsable with
  | false =>
      rw [writeGlobal, swp_bind, swp_get, hu]
      exact h
  | true =>
      obtain ⟨g₀, hg₀, hbit, hm⟩ := h
      have hcred : ∀ {w}, Beside o1 b.chip w → credAt w.rmem i = .ok m :=
        fun hb => (credAt_beside hb hi).trans hm
      apply swp_writeGlobal hA hg₀
      · exact fun w _ hboth hb => ⟨g, hboth.at, hg hu, hcred hb⟩
      · exact fun w _ hat hb => ⟨g₀, hat, hbit, hcred hb⟩
      · exact fun w hat hb => ⟨g, hat, hg hu, hcred hb⟩
      · rintro w (hat | hat) hb
        · exact ⟨g₀, hat, hbit, hcred hb⟩
        · exact ⟨g, hat, hg hu, hcred hb⟩

/-- The bit is set in RAM too. -/
theorem InStore.bit (h : InStore F i m b) (hs : Synced F u b) (hu : u.slotsUsable = true) :
    u.slots.bitmap.getLsbD i = true := by
  obtain ⟨g, hg, hbit, -⟩ := h
  obtain rfl := hg.unique (hs hu)
  exact hbit

theorem inStore_slotsInit (hA : ∀ f, A f → Honest F f) (hi : i < fidoSlotsMax)
    (h : InStore F i m b) :
    swp (fidoBoard F) A (slotsInit F) (fun _ _ b' => InStore F i m b') (InStore F i m) u b := by
  cases hon : u.slots.initted with
  | true => exact swp_slotsInit_on hon h
  | false =>
      obtain ⟨g, hg, hbit, hm⟩ := h
      have hstay : ∀ w g', GlobalAt F w.rmem g' → Scrubbed b.chip.rmem g g' → Beside o1 b.chip w →
          InStore F i m (b.setChip w) := by
        intro w g' hg' hs hb
        refine ⟨g', hg', ?_, (credAt_beside hb hi).trans hm⟩
        -- only a bit without an entry is scrubbed
        rcases hs.gone i hbit with h' | ⟨-, h'⟩
        · exact h'
        · rw [hm] at h'
          cases h'
      apply swp_slotsInit_at hA hg hon
      · exact fun w g' hg' hs _ hb => hstay w g' hg' hs hb
      · exact fun w g' _ hg' hs hb _ _ => hstay w g' hg' hs hb
      · exact hstay

theorem publishedBitmap_kept {bitmap mask : BitVec 32} {slot : ℕ}
    (hbit : bitmap.getLsbD i = true) (hmask : mask.getLsbD i = false) :
    (publishedBitmap bitmap mask slot).getLsbD i = true := by
  have hlt : i < 32 := BitVec.lt_of_getLsbD hbit
  rw [publishedBitmap, BitVec.getLsbD_and, BitVec.getLsbD_or, hbit, BitVec.getLsbD_not,
    BitVec.getLsbD_and, hmask]
  simp [hlt]

theorem inStore_alloc (hA : ∀ f, A f → SoundFate F f) (hi : i < fidoSlotsMax) {q : NewCred}
    (hq : q.replaceMask.getLsbD i = false) (hs : Synced F u b) (h : InStore F i m b) :
    swp (fidoBoard F) A (q.alloc F) (fun _ _ b' => InStore F i m b') (InStore F i m) u b := by
  cases hu : u.slotsUsable with
  | false =>
      rw [NewCred.alloc, slotsAlloc, swp_bind, swp_get, if_pos hu]
      exact h
  | true =>
      have hbit := h.bit hs hu
      have hother : ∀ {slot c w}, firstFree u.slots.bitmap = some slot →
          Rewrites (rmemSlotFor slot) c b.chip w → InStore F i m (b.setChip w) := by
        intro slot c w hfree hw
        apply h.rewrites (firstFree_lt hfree) _ hw
        rintro rfl
        rw [firstFree_free hfree] at hbit
        cases hbit
      apply swp_alloc hA board_leaves_any
      · exact fun _ _ => h
      · exact fun slot r c w hfree _ _ _ hw => hother hfree hw
      · exact fun slot c w hfree _ _ hw => hother hfree hw
      · intro slot w _ hfree _ hw
        have h₁ : InStore F i m ((b.setChip w).jot (.publish slot q.created)) := hother hfree hw
        rw [publishes, swp_bind]
        apply swp_mono (inStore_writeGlobal (fun f hf => (hA f hf).1) hi _ h₁) _ fun _ hb => hb
        · exact fun _ => publishedBitmap_kept hbit hq
        · rintro (_ | _) u' b' hb <;> exact hb

theorem inStore_erase (hA : ∀ f, A f → Honest F f) (hi : i < fidoSlotsMax) {slot : ℕ}
    (hne : slot ≠ i) (hs : Synced F u b) (h : InStore F i m b) :
    swp (fidoBoard F) A (slotsErase F slot) (fun _ _ b' => InStore F i m b')
      (InStore F i m) u b := by
  cases hu : u.slotsUsable with
  | false =>
      rw [slotsErase, swp_bind, swp_get, if_pos (.inr hu)]
      exact h
  | true =>
      have hstay : ∀ b', SparesBut F slot b b' → InStore F i m b' := by
        intro b' hb
        obtain ⟨g, hg, hbit, hm⟩ := h
        have hspared := hb i hi hne.symm
        obtain ⟨g', hg', hbit'⟩ := hspared.listed g hg
        refine ⟨g', hg', hbit'.trans hbit, ?_⟩
        rw [credAt, hspared.entry]
        exact hm
      apply swp_mono (swp_slotsErase_spares hA hs hu slot)
      · exact fun _ _ b' hb => hstay b' hb.2.2
      · exact hstay

theorem inStore_readCred (slot : ℕ) :
    Keeps (fidoBoard F) A (fun _ b => InStore F i m b) (InStore F i m) (readCred slot) := by
  intro u b h
  apply swp_readCred
  · exact fun w hw => h.same hw
  · exact fun _ w hw => h.same hw
  · exact fun _ w hw => h.same hw

theorem synced_rules (hA : ∀ f, A f → Honest F f) :
    CallRules F A (Synced F) fun _ => True where
  init := synced_slotsInit hA
  initFresh := synced_slotsInitFresh hA
  wipeMeta := (synced_ground F).slotsWipeMeta o1Scope_creds
  alloc _ :=
    (synced_ground F).slotsAlloc_with o1Scope_outer.inner (synced_writeGlobal hA) _ _ _ _ _ _
  read := (synced_ground F).readCred
  erase := (synced_ground F).slotsErase_with o1Scope_outer.inner (synced_writeGlobal hA)
  setPinBound _ _ := keeps_get_bind fun _ => synced_writeGlobal hA _
  forceUvSet _ := keeps_get_bind fun _ => synced_writeGlobal hA _

theorem fits_rules : CallRules F A (fun u _ => u.Fits) fun _ => True where
  init := fits_slotsInit
  initFresh := fits_slotsInitFresh
  wipeMeta := fits_ground.slotsWipeMeta fitsScope_creds
  alloc _ := fits_slotsAlloc _ _ _ _ _ _
  read := fits_ground.readCred
  erase := fits_slotsErase
  setPinBound := fits_slotsSetPinBound
  forceUvSet := fits_slotsForceUvSet

/-- A call that does not drop the credential keeps it. -/
theorem inStore_guards (hA : ∀ f, A f → SoundFate F f) (hi : i < fidoSlotsMax) :
    Safeguards F A (fun _ => True) (InStore F i m) (fun c => ¬c.mayDrop i) where
  init _ _ h := inStore_slotsInit (fun f hf => (hA f hf).1) hi h
  initFresh hc := absurd trivial hc
  wipeMeta hc := absurd trivial hc
  alloc _ hq _ _ hs _ h := inStore_alloc hA hi (by simpa [StoreCall.mayDrop] using hq) hs h
  read := inStore_readCred
  erase _ hne _ _ hs h := inStore_erase (fun f hf => (hA f hf).1) hi hne hs h
  flags _ _ _ hs h hg :=
    inStore_writeGlobal (fun f hf => (hA f hf).1) hi (fun hu => hg ▸ h.bit hs hu) h

end Stays

end Nixtropic.Fido
