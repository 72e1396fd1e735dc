import Nixtropic.Fido.Confined

/-!
What a deletion leaves alone.

The key goes first, then the bit in O1, then the entry; a credential in another
slot keeps all three, wherever the deletion stops.
-/

namespace Nixtropic.Fido

open Crash

/-- The credential in the slot is not touched: neither its entry, nor its key,
nor its bit in O1. -/
structure Spared (F : FidoPrims) (i : ℕ) (b b' : Board Note) : Prop where
  entry : b'.chip.rmem (rmemSlotFor i) = b.chip.rmem (rmemSlotFor i)
  key : b'.ecc i = b.ecc i
  listed : ∀ g, GlobalAt F b.chip.rmem g →
    ∃ g', GlobalAt F b'.chip.rmem g' ∧ g'.bitmap.getLsbD i = g.bitmap.getLsbD i

/-- The credentials of all other RPs are not touched. -/
def Spares (F : FidoPrims) (s : Shelf) (rpHash : Bytes) (b b' : Board Note) : Prop :=
  ∀ i m, s.read i = .ok m → m.rpIdHash ≠ rpHash → Spared F i b b'

theorem Still.spared {F : FidoPrims} {b b' : Board Note} (h : Still b b') (i : ℕ) :
    Spared F i b b' := ⟨congrFun h.rmem _, congrFun h.ecc _, fun g hg => ⟨g, h.rmem ▸ hg, rfl⟩⟩

theorem Spared.trans {F : FidoPrims} {i : ℕ} {b₁ b₂ b₃ : Board Note} (h : Spared F i b₁ b₂)
    (h' : Spared F i b₂ b₃) : Spared F i b₁ b₃ where
  entry := h'.entry.trans h.entry
  key := h'.key.trans h.key
  listed g hg := by
    obtain ⟨g₁, hg₁, he₁⟩ := h.listed g hg
    obtain ⟨g₂, hg₂, he₂⟩ := h'.listed g₁ hg₁
    exact ⟨g₂, hg₂, he₂.trans he₁⟩

theorem spared_setEcc {F : FidoPrims} {i slot : ℕ} (hi : i ≠ slot) (b : Board Note)
    (k : Option EccKey) : Spared F i b (b.setEcc slot k) :=
  ⟨rfl, Function.update_of_ne hi .., fun g hg => ⟨g, hg, rfl⟩⟩

section Delete

variable {F : FidoPrims} {A : BoardFate → Prop} {s : Shelf} {u : FidoRam} {b : Board Note}

/-- Every credential but the one in the slot. -/
def SparesBut (F : FidoPrims) (slot : ℕ) (b b' : Board Note) : Prop :=
  ∀ i < fidoSlotsMax, i ≠ slot → Spared F i b b'

theorem SparesBut.trans {slot : ℕ} {b₁ b₂ b₃ : Board Note} (h : SparesBut F slot b₁ b₂)
    (h' : SparesBut F slot b₂ b₃) : SparesBut F slot b₁ b₃ :=
  fun i hi hne => (h i hi hne).trans (h' i hi hne)

theorem sparesBut_erase {slot : ℕ} (hslot : slot < fidoSlotsMax) {b : Board Note} {w : World}
    (hw : ∀ j, j ≠ rmemSlotFor slot → w.rmem j = b.chip.rmem j) :
    SparesBut F slot b (b.setChip w) := by
  intro i hi hne
  have hother : rmemSlotFor i ≠ rmemSlotFor slot := by
    simp only [rmemSlotFor]
    omega
  refine ⟨hw _ hother, rfl, fun g hg => ⟨g, hg.congr ?_ ?_, rfl⟩⟩
  · exact hw _ fun h => o1_not_meta ⟨slot, hslot, rfl⟩ (.inl h.symm)
  · exact hw _ fun h => o1_not_meta ⟨slot, hslot, rfl⟩ (.inr h.symm)

theorem sparesBut_write {slot : ℕ} {b : Board Note} {w : World} {g₀ g : Global}
    (hb : Beside o1 b.chip w) (h₀ : GlobalAt F b.chip.rmem g₀)
    (hg : GlobalAt F w.rmem g₀ ∨ GlobalAt F w.rmem g)
    (hbits : ∀ i < fidoSlotsMax, i ≠ slot → g.bitmap.getLsbD i = g₀.bitmap.getLsbD i) :
    SparesBut F slot b (b.setChip w) := by
  intro i hi hne
  refine ⟨hb.rmem _ fun h => not_globalSlot_rmem hi (.inl h), rfl, fun g' hg' => ?_⟩
  obtain rfl := hg'.unique h₀
  rcases hg with hg | hg
  · exact ⟨g', hg, rfl⟩
  · exact ⟨g, hg, hbits i hi hne⟩

/-- A credential goes, and no other. -/
theorem swp_slotsErase_spares (hA : ∀ f, A f → Honest F f) (hsync : Synced F u b)
    (hu : u.slotsUsable = true) (slot : ℕ) :
    swp (fidoBoard F) A (slotsErase F slot)
      (fun _ u' b' => u'.iter = u.iter ∧ u'.token = u.token ∧ SparesBut F slot b b')
      (SparesBut F slot b) u b := by
  have h₀ := hsync hu
  rw [slotsErase, swp_bind, swp_get]
  split
  · exact ⟨rfl, rfl, fun i _ _ => (Still.refl b).spared i⟩
  rename_i hno
  have hslot : slot < fidoSlotsMax := Nat.lt_of_not_le fun h => hno (.inl h)
  have rest : ∀ (ok : Bool) u' b', u'.iter = u.iter → u'.token = u.token →
      SparesBut F slot b b' → swp (fidoBoard F) A (erasesRecord slot ok)
        (fun _ u' b' => u'.iter = u.iter ∧ u'.token = u.token ∧ SparesBut F slot b b')
        (SparesBut F slot b) u' b' := by
    intro ok u' b' hi ht hb
    have herase : ∀ c, SparesBut F slot b (b'.setChip
        ((b'.chip.note (.rmemErase (rmemSlotFor slot))).setR (rmemSlotFor slot) c)) := by
      intro c
      apply hb.trans (sparesBut_erase hslot _)
      intro j hj
      exact Function.update_of_ne hj ..
    cases ok with
    | false => exact ⟨hi, ht, hb⟩
    | true =>
        rw [erasesRecord, if_pos rfl, swp_bind]
        apply swp_onChip
        apply swp_rmemErase leaves_any
        · exact ⟨hi, ht, herase _⟩
        · rintro _ (_ | _) c _ <;> exact ⟨hi, ht, herase c⟩
        · exact fun _ c _ => herase c
  have hwrite : ∀ w, Beside o1 b.chip w → (GlobalAt F w.rmem u.global ∨ GlobalAt F w.rmem
      { u.global with bitmap := u.slots.bitmap &&& ~~~BitVec.twoPow 32 slot }) →
      SparesBut F slot b (b.setChip w) := by
    intro w hb hat
    apply sparesBut_write hb h₀ hat
    intro i hi hne
    have hlt : i < 32 := Nat.lt_trans hi (by decide)
    show (u.slots.bitmap &&& ~~~BitVec.twoPow 32 slot).getLsbD i = u.slots.bitmap.getLsbD i
    simp only [BitVec.getLsbD_and, BitVec.getLsbD_not, BitVec.getLsbD_twoPow]
    simp [hlt, Ne.symm hne]
  dsimp only
  split
  · exact rest true u b rfl rfl fun i _ _ => (Still.refl b).spared i
  · rw [swp_bind]
    apply swp_writeGlobal hA h₀
    · exact fun w _ hboth hb => rest true _ _ rfl rfl (hwrite w hb (.inr hboth.at))
    · exact fun w v hat hb => rest false _ _ rfl rfl (hwrite w hb (.inl hat))
    · exact fun w hat hb => rest false _ _ rfl rfl (hwrite w hb (.inr hat))
    · exact fun w hat hb => hwrite w hb hat

theorem swp_credstoreEraseSlot_spares (hA : ∀ f, A f → Honest F f) (hsync : Synced F u b)
    (hu : u.slotsUsable = true) (slot : ℕ) :
    swp (fidoBoard F) A (credstoreEraseSlot F slot)
      (fun _ u' b' => u'.iter = u.iter ∧ u'.token = u.token ∧ SparesBut F slot b b')
      (SparesBut F slot b) u b := by
  have hkey : ∀ b', b' = b ∨ b' = b.setEcc slot none →
      Synced F { u with mutating := true } b' ∧ SparesBut F slot b b' := by
    rintro b' (rfl | rfl)
    · exact ⟨hsync, fun i _ _ => (Still.refl b').spared i⟩
    · exact ⟨hsync, fun i _ hne => spared_setEcc hne b none⟩
  rw [credstoreEraseSlot, swp_bind, swp_get]
  split
  · exact ⟨rfl, rfl, fun i _ _ => (Still.refl b).spared i⟩
  rw [swp_bind, setMutating, swp_modify, swp_bind]
  apply swp_tropicEccErase
  · obtain ⟨hs₁, hb₁⟩ := hkey _ (.inr rfl)
    rw [swp_bind]
    apply swp_mono (swp_slotsErase_spares hA hs₁ hu slot)
    · rintro ok u' b' ⟨hi, ht, hb'⟩
      exact ⟨hi, ht, hb₁.trans hb'⟩
    · exact fun b' hb' => hb₁.trans hb'
  · exact fun _ b' hb' => ⟨rfl, rfl, (hkey b' hb').2⟩
  · exact fun _ b' hb' => (hkey b' hb').2

/-- What a deletion answers, and what it leaves alone. -/
structure Deletes (F : FidoPrims) (s : Shelf) (u : FidoRam) (b : Board Note) (a : Answer)
    (u' : FidoRam) (b' : Board Note) : Prop where
  iter : u'.iter = u.iter
  token : u'.token = u.token
  answer : ∃ st, a = .status st
  spares : ∀ rpHash, u.token.BoundTo rpHash → Spares F s rpHash b b'

theorem deletes_refusal (h : Still b b') (st : Status) : Deletes F s u b (.status st) u b' :=
  ⟨rfl, rfl, ⟨st, rfl⟩, fun _ _ i _ _ _ => h.spared i⟩

/-- A credential that its id names can be read. -/
theorem swp_credstoreLookup (hs : Serves F s u b) {credId : Bytes}
    {Q : Option ℕ → FidoRam → Board Note → Prop} {C : Board Note → Prop}
    (hnone : ∀ w, SameMem b.chip w → Q none u (b.setChip w))
    (hsome : ∀ slot m w, SameMem b.chip w → s.read slot = .ok m → Q (some slot) u (b.setChip w))
    (hcut : ∀ w, SameMem b.chip w → C (b.setChip w)) :
    swp (fidoBoard F) A (credstoreLookup F credId) Q C u b := by
  have hopen : u.storeInitted = true := by
    have hready := hs.ready
    simp only [FidoRam.ready, Bool.and_eq_true] at hready
    exact hready.1.1
  rw [credstoreLookup, swp_bind, credstoreInit, swp_bind, swp_get, if_pos hopen, swp_pure,
    if_pos rfl, swp_bind, slotsLookupByCredid, swp_bind, swp_get]
  dsimp only
  split
  · exact hnone b.chip (SameMem.refl _)
  rename_i hno
  simp only [not_or, Nat.not_le, Bool.not_eq_false] at hno
  obtain ⟨-, -, -, hlt, hbit⟩ := hno
  rw [swp_bind]
  apply swp_readCred
  · intro w hw
    cases hc : credAt b.chip.rmem (byteAt credId 1) with
    | ok m =>
        have hread : s.read (byteAt credId 1) = .ok m := by
          have hcred : s.cred (byteAt credId 1) = .ok m := by
            rw [← hs.shelf]
            exact hc
          have hmap : s.bitmap.getLsbD (byteAt credId 1) = true := by
            rw [← hs.bitmap, FidoRam.bitmap, if_pos hs.usable]
            exact hbit
          rw [Shelf.read, if_neg (by simp [hlt, hmap]), hcred]
        dsimp only
        by_cases hnonce : m.nonce = credId.drop 2
        · rw [if_pos hnonce]
          exact hsome _ m w hw hread
        · rw [if_neg hnonce]
          exact hnone w hw
    | _ => exact hnone w hw
  · exact fun _ w hw => hnone w hw
  · exact fun _ w hw => hcut w hw

theorem deletes_doDeleteCredential (hA : ∀ f, A f → Honest F f) (hs : Serves F s u b)
    (hsync : Synced F u b) (credId : Except Status Bytes) :
    swp (fidoBoard F) A (doDeleteCredential F credId) (Deletes F s u b)
      (fun b' => ∀ rpHash, u.token.BoundTo rpHash → Spares F s rpHash b b') u b := by
  have hstill : ∀ {b'}, Still b b' → ∀ rpHash, u.token.BoundTo rpHash → Spares F s rpHash b b' :=
    fun h _ _ i _ _ _ => h.spared i
  cases credId with
  | error st => exact deletes_refusal (Still.refl b) st
  | ok credId =>
      rw [doDeleteCredential, swp_bind]
      apply swp_credstoreLookup hs
      · exact fun w hw => deletes_refusal hw.still _
      · intro slot m w hw hread
        have hslot := (Shelf.read_lt hread).1
        dsimp only
        rw [swp_bind]
        apply swp_slotsReadMeta (hs.toShows.setChip hw)
        · intro w' hw'
          have hw₂ := (hw.trans hw').still
          rw [hread]
          dsimp only
          rw [swp_bind, swp_get]
          split
          · rename_i hrp
            -- the slot that goes holds a credential of the RP
            have hout : ∀ {b'}, SparesBut F slot (b.setChip w') b' →
                ∀ rpHash, u.token.BoundTo rpHash → Spares F s rpHash b b' := by
              intro b' hb R hR i m' hi hne
              refine (hw₂.spared i).trans (hb i (Shelf.read_lt hi).1 ?_)
              rintro rfl
              rw [hread] at hi
              cases hi
              exact hne (hR.matches_iff.mp hrp)
            rw [swp_bind]
            apply swp_mono (swp_credstoreEraseSlot_spares hA
              (hsync.rests ⟨⟨rfl, rfl, rfl⟩, hw₂⟩) hs.usable slot)
            · rintro ok u' b' ⟨hi, ht, hb⟩
              split
              · exact ⟨hi, ht, ⟨_, rfl⟩, hout hb⟩
              · exact ⟨hi, ht, ⟨_, rfl⟩, hout hb⟩
            · exact fun b' hb => hout hb
          · exact deletes_refusal hw₂ _
        · exact fun _ w' hw' => deletes_refusal (hw.trans hw').still _
        · exact fun _ w' hw' => hstill (hw.trans hw').still
      · exact fun w hw => hstill hw.still

end Delete

end Nixtropic.Fido
