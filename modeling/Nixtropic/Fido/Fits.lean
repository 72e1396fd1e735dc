import Nixtropic.Fido.Commands
import Nixtropic.Fido.GlobalState

/-!
The bitmap in RAM names slots that exist, at any time.

`slots_init` refuses an O1 with any other bit, and every bitmap that is written
after it comes from the one in RAM by slots that exist.
-/

namespace Nixtropic.Fido

open Crash

/-- Everything but the bitmap in RAM. -/
def fitsScope : Scope where
  rmem _ := True
  ecc _ := True
  ram u u' := u'.slots.bitmap = u.slots.bitmap
  note _ := True

/-- The bitmap in RAM names slots that exist. -/
def FidoRam.Fits (u : FidoRam) : Prop := u.global.fits

theorem FidoRam.Fits.congr {u u' : FidoRam} (h : u.Fits)
    (hu : u'.slots.bitmap = u.slots.bitmap) : u'.Fits := by
  show u'.slots.bitmap.toNat < 2 ^ fidoSlotsMax
  rw [hu]
  exact h

theorem fits_ground : Ground fitsScope (fun u _ => u.Fits) (fun _ => True) where
  cut _ _ _ := trivial
  chip _ _ _ _ h := h
  ecc _ _ _ _ _ h := h
  keygen _ _ _ _ _ h := h
  counter _ _ _ h := h
  wait _ _ _ h := h
  note _ _ _ _ h := h
  ram _ _ _ hu h := h.congr hu

theorem fitsScope_o2 : fitsScope.O2 := ⟨fun _ _ => trivial, fun _ _ => rfl⟩

theorem fitsScope_creds : fitsScope.Creds := ⟨fun _ _ => trivial, fun _ _ => trivial⟩

theorem fitsScope_outer : fitsScope.Outer where
  creds := fitsScope_creds
  storeInitted _ _ := rfl
  mutating _ _ := rfl
  pin _ _ := rfl
  note _ _ := trivial

theorem fresh_fits : Global.fresh.fits := by
  show (0 : ℕ) < 2 ^ fidoSlotsMax
  decide

/-- Clearing bits keeps a bitmap of slots that exist. -/
theorem fits_and {g g' : Global} {mask : BitVec 32} (hg : g.fits)
    (h : g'.bitmap = g.bitmap &&& mask) : g'.fits := by
  rw [fits_iff] at hg ⊢
  intro i hi
  rw [h, BitVec.getLsbD_and, hg i hi, Bool.false_and]

/-- So does a new credential. -/
theorem fits_published {g : Global} {slot : ℕ} (hg : g.fits) (hslot : slot < fidoSlotsMax)
    (mask : BitVec 32) :
    Global.fits { g with bitmap := publishedBitmap g.bitmap mask slot } := by
  rw [fits_iff] at hg ⊢
  intro i hi
  have hne : slot ≠ i := by omega
  show (publishedBitmap g.bitmap mask slot).getLsbD i = false
  rw [publishedBitmap, BitVec.getLsbD_and, BitVec.getLsbD_or, hg i hi, BitVec.getLsbD_twoPow]
  simp [hne]

section Rules

variable {F : FidoPrims} {A : BoardFate → Prop} {u : FidoRam} {b : Board Note}

/-- What is done with O1 on the chip does not touch the bitmap in RAM. -/
theorem fits_onO1 {α : Type} {m : Fw Bool α} (hm : Footprint F.chip o1.owns m) :
    Keeps (fidoBoard F) A (fun u _ => u.Fits) (fun _ => True) (onPair o1Cell m) :=
  fits_ground.pair (c := o1Cell) hm (fun _ _ => trivial) fun _ _ => rfl

theorem swp_writeGlobal_fits {g : Global} (hg : g.fits) (h : u.Fits) :
    swp (fidoBoard F) A (writeGlobal F g) (fun _ u' _ => u'.Fits) (fun _ => True) u b := by
  rw [writeGlobal, swp_bind, swp_get]
  split
  · rw [swp_bind]
    apply swp_mono (fits_onO1 footprint_recPairWrite u b h) _ fun _ h => h
    intro res u' b' h'
    cases res with
    | ok => exact hg
    | _ => exact h'
  · exact h

theorem fits_slotsInit :
    Keeps (fidoBoard F) A (fun u _ => u.Fits) (fun _ => True) (slotsInit F) := by
  intro u b h
  rw [slotsInit, swp_bind, swp_get]
  split
  · exact h
  rw [swp_bind]
  apply swp_mono (fits_ground.session u b h) _ fun _ h => h
  rintro (_ | _) u₁ b₁ h₁
  · exact h₁
  dsimp only
  rw [swp_bind]
  apply swp_mono (fits_onO1 footprint_recPairRead u₁ b₁ h₁) _ fun _ h => h
  intro res u₂ b₂ h₂
  cases res with
  | ok buf gen =>
      dsimp only
      cases hp : parseGlobal buf with
      | none => exact h₂
      | some g =>
          have hg : g.fits := (parseGlobal_some hp).2
          show swp _ _ (slotsAdopt F g) _ _ _ _
          rw [slotsAdopt, swp_bind, swp_modify, swp_bind, setInitted, swp_modify, swp_bind]
          apply swp_orphanScrub g
          · intro bm w _ hs
            split
            · exact hg
            · rw [swp_bind]
              apply swp_mono (swp_writeGlobal_fits (hs.fits hg) _) _ fun _ h => h
              · exact hg
              · intro ok u₃ b₃ h₃
                cases ok <;> exact h₃
          · exact fun _ _ => trivial
  | _ => exact h₂

theorem fits_slotsInitFresh :
    Keeps (fidoBoard F) A (fun u _ => u.Fits) (fun _ => True) (slotsInitFresh F) := by
  intro u b h
  rw [slotsInitFresh, swp_bind, swp_modify, swp_bind]
  apply swp_mono (fits_onO1 footprint_recPairInit _ b _) _ fun _ h => h
  · exact h
  · intro res u' b' h'
    cases res with
    | ok => exact fresh_fits
    | _ => exact h'

theorem fits_slotsAlloc (rpIdHash : Bytes) (alg flags : UInt8) (userHandle : Bytes) (created : ℕ)
    (mask : BitVec 32) : Keeps (fidoBoard F) A (fun u _ => u.Fits) (fun _ => True)
      (slotsAlloc F rpIdHash alg flags userHandle created mask) := by
  intro u b h
  rw [slotsAlloc, swp_bind, swp_get]
  split
  · exact h
  split
  · exact h
  cases hfree : firstFree u.slots.bitmap with
  | none => exact h
  | some slot =>
      -- the variables are those of the bitmap read at the start
      have kept : Footing fitsScope (fun u' _ => u'.slots.bitmap = u.slots.bitmap)
          (fun _ => True) :=
        ⟨fun _ _ _ => trivial, fun _ _ _ _ h => h, fun _ _ _ _ _ h => h, fun _ _ _ _ _ h => h,
          fun _ _ _ h => h, fun _ _ _ _ h => h, fun _ _ _ hu h => hu.trans h⟩
      dsimp only
      rw [swp_bind]
      apply swp_mono (kept.perform (o := .random _) trivial u b rfl) _ fun _ h => h
      rintro (_ | nonce) u₁ b₁ h₁
      · exact h.congr h₁
      dsimp only
      rw [swp_bind]
      apply swp_mono (kept.writeCred trivial _ u₁ b₁ h₁) _ fun _ h => h
      intro ok u₂ b₂ h₂
      have hfits : u₂.Fits := h.congr h₂
      split
      · rw [swp_bind]
        apply swp_leave
        rw [swp_bind]
        apply swp_mono (swp_writeGlobal_fits (fits_published h (firstFree_lt hfree) mask) hfits) _
          fun _ h => h
        intro ok u₃ b₃ h₃
        split <;> exact h₃
      · exact hfits

theorem fits_slotsErase (slot : ℕ) :
    Keeps (fidoBoard F) A (fun u _ => u.Fits) (fun _ => True) (slotsErase F slot) := by
  have rest : ∀ ok : Bool, Keeps (fidoBoard F) A (fun u _ => u.Fits) (fun _ => True)
      (erasesRecord slot ok) := by
    intro ok
    apply keeps_ite _ (keeps_pure _)
    apply keeps_bind (fits_ground.perform (o := .rmemErase _) trivial)
    rintro (_ | _) <;> exact keeps_pure _
  intro u b h
  rw [slotsErase, swp_bind, swp_get]
  split
  · exact h
  dsimp only
  split
  · exact rest true u b h
  · rw [swp_bind]
    apply swp_mono (swp_writeGlobal_fits (fits_and h rfl) h) _ fun _ h => h
    exact fun ok u' b' h' => rest ok u' b' h'

theorem fits_slotsSetPinBound (bound uv : Bool) :
    Keeps (fidoBoard F) A (fun u _ => u.Fits) (fun _ => True) (slotsSetPinBound F bound uv) := by
  intro u b h
  rw [slotsSetPinBound, swp_bind, swp_get]
  exact swp_writeGlobal_fits h h

theorem fits_slotsForceUvSet (v : Bool) :
    Keeps (fidoBoard F) A (fun u _ => u.Fits) (fun _ => True) (slotsForceUvSet F v) := by
  intro u b h
  rw [slotsForceUvSet, swp_bind, swp_get]
  exact swp_writeGlobal_fits h h

theorem fits_store : Store F A (fun u _ => u.Fits) fun _ => True where
  status := fits_ground.o2 fitsScope_o2 footprint_pinMdKernelStatus
  setup _ _ := fits_ground.o2 fitsScope_o2 footprint_pinMdKernelSetup
  verify _ := fits_ground.o2 fitsScope_o2 footprint_pinMdKernelVerify
  verified _ _ := fits_ground.leave trivial
  change _ _ _ := fits_ground.o2 fitsScope_o2 footprint_pinMdKernelChange
  guard := fits_slotsSetPinBound true true
  init := fits_slotsInit
  wipe := keeps_fidoStateWipe (fits_ground.eraseKeys fitsScope_creds)
    (fits_ground.slotsWipeMeta fitsScope_creds) (fits_ground.leave trivial)
    (fits_ground.fidoPinClear fitsScope_o2) fits_slotsInitFresh fits_ground.mcounterInit
  counter := fits_ground.mcounterGet

theorem fits_around : Around F A fitsScope (fun u _ => u.Fits) fun _ => True :=
  fits_ground.around_of fitsScope_outer fits_store fits_slotsAlloc fits_slotsErase
    fits_slotsForceUvSet

theorem fitsScope_served : fitsScope.Served where
  tokens := ⟨fun _ _ => rfl, fun _ _ => trivial⟩
  resets := ⟨trivial, trivial⟩
  assertions := ⟨fun _ _ => rfl, trivial, trivial, trivial⟩
  iter _ _ := rfl
  powerUp := trivial
  request _ := trivial
  answer _ _ := trivial

end Rules

/-- Whatever the device has been through. -/
theorem fits_run (F : FidoPrims) (b : Board Note) (acts : List Action) {u : FidoRam}
    (hu : ((device F b).run acts).ram = some u) : u.Fits := by
  have h : ((device F b).run acts).Meets (fun u _ => u.Fits) (fun _ => True) := meets_run
    (A := fun _ => True) trivial trivial (fun _ _ _ => trivial)
    (fun b _ => fits_around.bringUp fitsScope_served .boot _ fresh_fits)
    (fun r => fits_around.fidoHidCborDispatch fitsScope_served r)
    (fun a _ => by cases a <;> exact fun _ _ => trivial)
  rw [Device.Meets, hu] at h
  exact h

end Nixtropic.Fido
