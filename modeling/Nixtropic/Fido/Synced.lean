import Nixtropic.Fido.StateLogic
import Nixtropic.Fido.Ground

/-!
Invariants about O1 and its copy in RAM.

What the PIN, the keys and the metadata do is out of their sight. `Synced` says
that the copy is what O1 holds whenever it is used, from any chip on; `Settled`
says more of the flags that O1 holds, and is kept until a wipe gets to O1.
-/

namespace Nixtropic.Fido

open Crash

/-- Everything but O1 and its copy in RAM. -/
def o1Scope : Scope where
  rmem slot := ¬o1.owns slot
  ecc _ := True
  ram u u' := u'.slots = u.slots
  note _ := True

theorem o1Scope_o2 : o1Scope.O2 := ⟨fun _ h => o1_not_o2 h, fun _ _ => rfl⟩

theorem o1Scope_creds : o1Scope.Creds :=
  ⟨fun i hi => o1_not_meta ⟨i, hi, rfl⟩, fun _ _ => trivial⟩

theorem GlobalAt.o1Scope {F : FidoPrims} {w w' : World} {g : Global} (h : GlobalAt F w.rmem g)
    (hw : Away o1Scope.rmem w w') : GlobalAt F w'.rmem g := by
  apply h.congr
  · exact hw _ fun hs => hs (.inl rfl)
  · exact hw _ fun hs => hs (.inr rfl)

theorem o1Scope_outer : o1Scope.Outer where
  creds := o1Scope_creds
  storeInitted _ _ := rfl
  mutating _ _ := rfl
  pin _ _ := rfl
  note _ _ := trivial

/-- The copy in RAM is what O1 holds, whenever it is used. -/
def Synced (F : FidoPrims) (u : FidoRam) (b : Board Note) : Prop :=
  u.slotsUsable = true → GlobalAt F b.chip.rmem u.global

theorem slotsUsable_congr {u u' : FidoRam} (h : u'.slots = u.slots) :
    u'.slotsUsable = u.slotsUsable := by
  rw [FidoRam.slotsUsable, FidoRam.slotsUsable, h]

theorem global_congr {u u' : FidoRam} (h : u'.slots = u.slots) : u'.global = u.global := by
  rw [FidoRam.global, FidoRam.global, h]

theorem Synced.congr {F : FidoPrims} {u u' : FidoRam} {b b' : Board Note} (h : Synced F u b)
    (hu : u'.slots = u.slots) (hw : Away o1Scope.rmem b.chip b'.chip) : Synced F u' b' := by
  intro hon
  rw [global_congr hu]
  exact (h (slotsUsable_congr hu ▸ hon)).o1Scope hw

theorem synced_ground (F : FidoPrims) : Ground o1Scope (Synced F) (fun _ => True) where
  cut _ _ _ := trivial
  chip _ _ _ hw h := h.congr rfl hw
  ecc _ _ _ _ _ h := h
  keygen _ _ _ _ _ h := h
  counter _ _ _ h := h
  wait _ _ _ h := h
  note _ _ _ _ h := h
  ram _ _ _ hu h := h.congr hu (Away.refl _ _)

theorem not_usable_of_closed {u u' : FidoRam} (h : u.Closed u') : u'.slotsUsable = false := by
  obtain ⟨s, hs, rfl⟩ := h
  simp [FidoRam.slotsUsable, hs]

theorem not_usable_of_uncertain (u : FidoRam) : (o1Cell.put u true).slotsUsable = false := by
  simp [FidoRam.slotsUsable, o1Cell]

theorem not_usable_of_off {u : FidoRam} (h : u.slots.initted = false) : u.slotsUsable = false := by
  simp [FidoRam.slotsUsable, h]

theorem synced_of_not_usable {F : FidoPrims} {u : FidoRam} {b : Board Note}
    (h : u.slotsUsable = false) : Synced F u b := by
  intro hon
  rw [h] at hon
  cases hon

section Rules

variable {F : FidoPrims} {A : BoardFate → Prop}

theorem synced_writeGlobal (hA : ∀ f, A f → Honest F f) (g : Global) :
    Keeps (fidoBoard F) A (Synced F) (fun _ => True) (writeGlobal F g) := by
  intro u b h
  cases hu : u.slotsUsable with
  | false =>
      rw [writeGlobal, swp_bind, swp_get, hu]
      exact synced_of_not_usable hu
  | true =>
      apply swp_writeGlobal hA (h hu)
      · exact fun w _ hboth _ _ => hboth.at
      · exact fun w v hat _ _ => hat
      · exact fun w _ _ => synced_of_not_usable (not_usable_of_uncertain u)
      · exact fun _ _ _ => trivial

theorem synced_slotsInit (hA : ∀ f, A f → Honest F f) :
    Keeps (fidoBoard F) A (Synced F) (fun _ => True) (slotsInit F) := by
  intro u b h
  cases hon : u.slots.initted with
  | true => exact swp_slotsInit_on hon h
  | false =>
      by_cases hat : ∃ g, GlobalAt F b.chip.rmem g
      · obtain ⟨g, hg⟩ := hat
        apply swp_slotsInit_at hA hg hon
        · exact fun w g' hg' _ _ _ _ => hg'
        · exact fun w g' u' _ _ _ hc _ => synced_of_not_usable (not_usable_of_closed hc)
        · exact fun _ _ _ _ _ => trivial
      · apply swp_slotsInit_closed hA (fun g hg => hat ⟨g, hg⟩) hon
        · exact fun r v w _ _ _ => synced_of_not_usable (not_usable_of_off hon)
        · exact fun _ _ _ => trivial

theorem synced_slotsInitFresh (hA : ∀ f, A f → Honest F f) :
    Keeps (fidoBoard F) A (Synced F) (fun _ => True) (slotsInitFresh F) := by
  intro u b _
  apply swp_slotsInitFresh hA
  · exact fun w hboth _ _ => hboth.at
  · exact fun _ u' w hc _ => synced_of_not_usable (not_usable_of_closed hc)
  · exact fun _ _ => trivial

theorem synced_store (hA : ∀ f, A f → Honest F f) : Store F A (Synced F) fun _ => True where
  status := (synced_ground F).o2 o1Scope_o2 footprint_pinMdKernelStatus
  setup _ _ := (synced_ground F).o2 o1Scope_o2 footprint_pinMdKernelSetup
  verify _ := (synced_ground F).o2 o1Scope_o2 footprint_pinMdKernelVerify
  verified _ _ := (synced_ground F).leave trivial
  change _ _ _ := (synced_ground F).o2 o1Scope_o2 footprint_pinMdKernelChange
  guard := keeps_get_bind fun _ => synced_writeGlobal hA _
  init := synced_slotsInit hA
  wipe := keeps_fidoStateWipe ((synced_ground F).eraseKeys o1Scope_creds)
    ((synced_ground F).slotsWipeMeta o1Scope_creds) ((synced_ground F).leave trivial)
    ((synced_ground F).fidoPinClear o1Scope_o2) (synced_slotsInitFresh hA)
    (synced_ground F).mcounterInit
  counter := (synced_ground F).mcounterGet

theorem synced_around (hA : ∀ f, A f → Honest F f) :
    Around F A o1Scope (Synced F) fun _ => True :=
  (synced_ground F).around_of o1Scope_outer (synced_store hA)
    ((synced_ground F).slotsAlloc_with o1Scope_outer.inner (synced_writeGlobal hA))
    ((synced_ground F).slotsErase_with o1Scope_outer.inner (synced_writeGlobal hA))
    fun _ => keeps_get_bind fun _ => synced_writeGlobal hA _

/-- An acknowledged write of O1 is in both copies and in RAM. -/
theorem swp_writeGlobal_acked (hA : ∀ f, A f → Honest F f) {u : FidoRam} {b : Board Note}
    (g : Global) :
    swp (fidoBoard F) A (writeGlobal F g)
      (fun ok u' b' => ok = true → u' = u.adopt g ∧ GlobalBoth F b'.chip.rmem g)
      (fun _ => True) u b := by
  rw [writeGlobal, swp_bind, swp_get]
  cases hu : u.slotsUsable with
  | false => exact fun h => by cases h
  | true =>
      have hput : o1Cell.put u false = u := by
        rw [← (slotsUsable_iff.mp hu).2]
        rfl
      rw [if_pos rfl, swp_bind]
      apply swp_onPair
      apply swp_mono (swp_recPairWrite_acked (honest_o1 hA)) _ fun _ _ => trivial
      intro res v w hres
      cases res with
      | ok =>
          obtain ⟨rfl, -, gen, hm⟩ := hres rfl
          rw [hput]
          exact fun _ => ⟨rfl, globalBoth_encode hm⟩
      | _ => exact fun h => by cases h

/-! ### The flags of O1 -/

/-- The flags in O1, Force-UV and the guard of the PIN, satisfy `P`. -/
def FlagsAt (F : FidoPrims) (P : Bool → Bool → Prop) (b : Board Note) : Prop :=
  ∃ g, GlobalAt F b.chip.rmem g ∧ P g.forceUv g.pinBound

/-- The same, and the copy in RAM agrees. -/
def Settled (F : FidoPrims) (P : Bool → Bool → Prop) (u : FidoRam) (b : Board Note) : Prop :=
  ∃ g, GlobalAt F b.chip.rmem g ∧ P g.forceUv g.pinBound ∧ (u.slotsUsable = true → u.global = g)

variable {P : Bool → Bool → Prop} {u : FidoRam} {b : Board Note}

theorem Settled.flags (h : Settled F P u b) : FlagsAt F P b := by
  obtain ⟨g, hg, hp, -⟩ := h
  exact ⟨g, hg, hp⟩

theorem FlagsAt.settled (h : FlagsAt F P b) (hu : u.slotsUsable = false) : Settled F P u b := by
  obtain ⟨g, hg, hp⟩ := h
  exact ⟨g, hg, hp, fun hon => by rw [hu] at hon; cases hon⟩

theorem Synced.settled (h : Synced F u b) (hu : u.slotsUsable = true)
    (hp : P u.slots.forceUv u.slots.pinBound) : Settled F P u b :=
  ⟨u.global, h hu, hp, fun _ => rfl⟩

theorem Settled.ram (h : Settled F P u b) (hu : u.slotsUsable = true) :
    P u.slots.forceUv u.slots.pinBound ∧ GlobalAt F b.chip.rmem u.global := by
  obtain ⟨g, hg, hp, hram⟩ := h
  obtain rfl := hram hu
  exact ⟨hp, hg⟩

theorem settled_ground (F : FidoPrims) (P : Bool → Bool → Prop) :
    Ground o1Scope (Settled F P) (FlagsAt F P) where
  cut _ _ h := h.flags
  chip _ _ _ hw h := by
    obtain ⟨g, hg, h⟩ := h
    exact ⟨g, hg.o1Scope hw, h⟩
  ecc _ _ _ _ _ h := h
  keygen _ _ _ _ _ h := h
  counter _ _ _ h := h
  wait _ _ _ h := h
  note _ _ _ _ h := h
  ram u u' _ hu h := by
    obtain ⟨g, hg, hp, hram⟩ := h
    refine ⟨g, hg, hp, fun hon => ?_⟩
    rw [global_congr hu]
    exact hram (slotsUsable_congr hu ▸ hon)

/-- A write of flags that satisfy `P`. -/
theorem settled_writeGlobal (hA : ∀ f, A f → Honest F f) {g : Global}
    (hp : P g.forceUv g.pinBound) (h : Settled F P u b) :
    swp (fidoBoard F) A (writeGlobal F g) (fun _ u' b' => Settled F P u' b') (FlagsAt F P) u b := by
  cases hu : u.slotsUsable with
  | false =>
      rw [writeGlobal, swp_bind, swp_get, hu]
      exact h
  | true =>
      obtain ⟨g₀, hg₀, hp₀, hram⟩ := h
      apply swp_writeGlobal hA hg₀
      · exact fun w _ hboth _ => ⟨g, hboth.at, hp, fun _ => rfl⟩
      · exact fun w v hat _ => ⟨g₀, hat, hp₀, fun _ => hram hu⟩
      · exact fun w hat _ => FlagsAt.settled ⟨g, hat, hp⟩ (not_usable_of_uncertain u)
      · rintro w (hat | hat) _
        · exact ⟨g₀, hat, hp₀⟩
        · exact ⟨g, hat, hp⟩

/-- The guard can be set: Force-UV comes on with it. -/
theorem settled_guard (hA : ∀ f, A f → Honest F f) (hp : P true true) :
    Keeps (fidoBoard F) A (Settled F P) (FlagsAt F P) (slotsSetPinBound F true true) := by
  intro u b h
  rw [slotsSetPinBound, swp_bind, swp_get]
  exact settled_writeGlobal hA hp h

theorem Scrubbed.flags {R : ℕ → RSlot} {g g' : Global} (h : Scrubbed R g g')
    (hp : P g.forceUv g.pinBound) : P g'.forceUv g'.pinBound := by
  rw [h.forceUv, h.pinBound]
  exact hp

/-- The store opens with what O1 held, or does not open. -/
theorem settled_slotsInit (hA : ∀ f, A f → Honest F f) (h : Settled F P u b) :
    swp (fidoBoard F) A (slotsInit F) (fun r u' b' => r ≠ .absent ∧ Settled F P u' b')
      (FlagsAt F P) u b := by
  cases hon : u.slots.initted with
  | true =>
      apply swp_slotsInit_on hon
      refine ⟨?_, h⟩
      split <;> exact nofun
  | false =>
      obtain ⟨g, hg, hp, -⟩ := h
      apply swp_slotsInit_at hA hg hon
      · exact fun w g' hg' hs _ _ => ⟨nofun, g', hg', hs.flags hp, fun _ => rfl⟩
      · intro w g' u' hg' hs _ hc _
        exact ⟨nofun, FlagsAt.settled ⟨g', hg', hs.flags hp⟩ (not_usable_of_closed hc)⟩
      · exact fun w g' hg' hs _ => ⟨g', hg', hs.flags hp⟩

end Rules

end Nixtropic.Fido
