import Nixtropic.Fido.CredIds

/-!
What was dropped does not come back.

A credential is gone when its entry is, or when neither copy of O1 has its bit.
A slot is taken again only with a new entry, and that one has a new nonce; so
the old id finds nothing, whatever the store goes through.
-/

namespace Nixtropic.Fido

open Crash Runs

/-! ### Being gone -/

/-- What a slot of the R-memory reads as. -/
def entryOf (c : RSlot) : CredRead :=
  match c.read slotsRmemPerCredSize with
  | .error .slotEmpty => .empty
  | .error .other => .chipError
  | .ok buf => decodeCred buf

theorem credAt_eq (R : ℕ → RSlot) (i : ℕ) : credAt R i = entryOf (R (rmemSlotFor i)) := rfl

/-- An entry with this nonce. -/
def CredRead.names (nonce : Bytes) : CredRead → Prop
  | .ok m => m.nonce = nonce
  | _ => False

/-- A torn change leaves no entry with this nonce. -/
def Forgets (nonce : Bytes) (f : BoardFate) : Prop := f.leaves fun c => ¬(entryOf c).names nonce

/-- The generator does not produce the nonce again. -/
def NoRepeat (nonce : Bytes) (w : World) : Prop :=
  ∀ n, w.drawn ≤ n → ((List.range 16).map fun k => w.rng (n + k)) ≠ nonce

/-- The entry of the slot has another nonce, or there is none. -/
def Lost (i : ℕ) (nonce : Bytes) (b : Board Note) : Prop :=
  ¬(credAt b.chip.rmem i).names nonce

/-- Neither copy of O1 has the bit of the slot. -/
def NoBit (F : FidoPrims) (i : ℕ) (b : Board Note) : Prop :=
  Carries F.chip o1 (fun payload => ∀ g : Global, payload = g.bytes → g.bitmap.getLsbD i = false)
    b.chip.rmem

/-- No id with this nonce finds the slot. -/
def Gone (F : FidoPrims) (i : ℕ) (nonce : Bytes) (b : Board Note) : Prop :=
  Lost i nonce b ∨ NoBit F i b

/-- Everything but the entry of one slot. -/
def besideEntry (i : ℕ) : Scope where
  rmem slot := slot ≠ rmemSlotFor i
  ecc _ := True
  ram _ _ := True
  note _ := True

/-- Everything but O1. -/
def besideO1 : Scope where
  rmem slot := ¬o1.owns slot
  ecc _ := True
  ram _ _ := True
  note _ := True

theorem besideEntry_o1 {i : ℕ} (hi : i < fidoSlotsMax) : (besideEntry i).O1 where
  rmem slot hs := by
    rintro rfl
    exact o1_not_meta ⟨i, hi, rfl⟩ hs
  ram _ _ := trivial

section Gone

variable {F : FidoPrims} {A : BoardFate → Prop} {i : ℕ} {nonce : Bytes} {u : FidoRam}
  {b : Board Note}

theorem lost_ground (i : ℕ) (nonce : Bytes) :
    Ground (besideEntry i) (fun _ b => Lost i nonce b) (Lost i nonce) where
  cut _ _ h := h
  chip _ b w hw h := by
    show ¬(credAt w.rmem i).names nonce
    rw [credAt_eq, hw _ (not_not.mpr rfl)]
    exact h
  ecc _ _ _ _ _ h := h
  keygen _ _ _ _ _ h := h
  counter _ _ _ h := h
  wait _ _ _ h := h
  note _ _ _ _ h := h
  ram _ _ _ _ h := h

theorem noBit_ground (F : FidoPrims) (i : ℕ) :
    Ground besideO1 (fun _ b => NoBit F i b) (NoBit F i) where
  cut _ _ h := h
  chip _ _ _ hw h := Carries.away h hw fun _ hs => hs
  ecc _ _ _ _ _ h := h
  keygen _ _ _ _ _ h := h
  counter _ _ _ h := h
  wait _ _ _ h := h
  note _ _ _ _ h := h
  ram _ _ _ _ h := h

theorem noBit_bytes {g : Global} (hg : g.bitmap.getLsbD i = false) :
    ∀ g' : Global, g.bytes = g'.bytes → g'.bitmap.getLsbD i = false := by
  intro g' h
  obtain rfl := global_bytes_inj h
  exact hg

theorem GlobalBoth.noBit {g : Global} (h : GlobalBoth F b.chip.rmem g)
    (hg : g.bitmap.getLsbD i = false) : NoBit F i b := by
  obtain ⟨r, hm, hr⟩ := h
  exact hm.carries (hr ▸ noBit_bytes hg)

/-- The bit is clear in RAM too. -/
theorem NoBit.bit (h : NoBit F i b) (hs : Synced F u b) (hu : u.slotsUsable = true) :
    u.slots.bitmap.getLsbD i = false := by
  obtain ⟨r, hr, hbytes⟩ := hs hu
  exact h.current hr u.global hbytes

theorem noBit_writeGlobal (hA : ∀ f, A f → Honest F f) {g : Global}
    (hg : g.bitmap.getLsbD i = false) (h : NoBit F i b) :
    swp (fidoBoard F) A (writeGlobal F g) (fun _ _ b' => NoBit F i b') (NoBit F i) u b := by
  rw [writeGlobal, swp_bind, swp_get]
  split
  · rw [swp_bind]
    apply swp_onPair
    apply swp_mono (swp_recPairWrite_carries (honest_o1 hA) (noBit_bytes hg) h) _ fun _ hw => hw
    intro res v w hw
    cases res with
    | ok => exact hw
    | _ => exact hw
  · exact h

theorem noBit_slotsInit (hA : ∀ f, A f → Honest F f) :
    Keeps (fidoBoard F) A (fun _ b => NoBit F i b) (NoBit F i) (slotsInit F) := by
  intro u b h
  rw [slotsInit, swp_bind, swp_get]
  split
  · exact h
  rw [swp_bind]
  apply swp_mono ((noBit_ground F i).session u b h) _ fun _ h => h
  rintro (_ | _) u₁ b₁ h₁
  · exact h₁
  dsimp only
  rw [swp_bind]
  apply swp_onPair
  apply swp_mono (swp_recPairRead_carries (honest_o1 hA) h₁) _ fun _ hw => hw
  rintro res v w ⟨hw, hres⟩
  cases res with
  | ok buf gen =>
      dsimp only
      cases hp : parseGlobal buf with
      | none => exact hw
      | some g =>
          have hg : g.bitmap.getLsbD i = false := (hres buf gen rfl).1 g (parseGlobal_some hp).1
          show swp _ _ (slotsAdopt F g) _ _ _ _
          rw [slotsAdopt, swp_bind, swp_modify, swp_bind, setInitted, swp_modify, swp_bind]
          apply swp_orphanScrub g
          · intro bm w' hw' hs
            have h₂ : NoBit F i ((b₁.setChip w).setChip w') := by
              rw [NoBit, Board.setChip_chip, hw'.rmem]
              exact hw
            -- the scrub takes bits away and sets none
            have hbm : bm.getLsbD i = false := by
              cases hbit : bm.getLsbD i with
              | false => rfl
              | true =>
                  have hold := hs.kept i hbit
                  rw [hg] at hold
                  cases hold
            split
            · exact h₂
            · rw [swp_bind]
              apply swp_mono (noBit_writeGlobal hA hbm h₂) _ fun _ h => h
              rintro (_ | _) u₃ b₃ h₃ <;> exact h₃
          · intro w' hw'
            rw [NoBit, Board.setChip_chip, hw'.rmem]
            exact hw
  | _ => exact hw

theorem noBit_slotsInitFresh (hA : ∀ f, A f → Honest F f) :
    Keeps (fidoBoard F) A (fun _ b => NoBit F i b) (NoBit F i) (slotsInitFresh F) := by
  intro u b h
  have hfresh : Global.fresh.bitmap.getLsbD i = false := by simp [Global.fresh]
  rw [slotsInitFresh, swp_bind, swp_modify, swp_bind]
  apply swp_onPair
  apply swp_mono (swp_recPairInit_carries (honest_o1 hA) (noBit_bytes hfresh) h) _ fun _ hw => hw
  intro res v w hw
  cases res with
  | ok => exact hw
  | _ => exact hw

/-- Writes without the bit. -/
theorem gone_writeGlobal (hA : ∀ f, A f → Honest F f) (hi : i < fidoSlotsMax) {g : Global}
    (hg : NoBit F i b → g.bitmap.getLsbD i = false) (h : Gone F i nonce b) :
    swp (fidoBoard F) A (writeGlobal F g) (fun _ _ b' => Gone F i nonce b')
      (Gone F i nonce) u b := by
  rcases h with h | h
  · exact swp_mono ((lost_ground i nonce).writeGlobal (besideEntry_o1 hi) g u b h)
      (fun _ _ _ => .inl) fun _ => .inl
  · exact swp_mono (noBit_writeGlobal hA (hg h) h) (fun _ _ _ => .inr) fun _ => .inr

/-! ### Changes of entries -/

theorem lost_of_entry {w : World} {c : RSlot} (hw : w.rmem (rmemSlotFor i) = c)
    (hc : ¬(entryOf c).names nonce) : Lost i nonce (b.setChip w) := by
  rw [Lost, Board.setChip_chip, credAt_eq, hw]
  exact hc

/-- An entry changed, and what may be in its place names no old nonce. -/
theorem Gone.rewrites {w : World} {slot : ℕ} {c : RSlot} (h : Gone F i nonce b)
    (hslot : slot < fidoSlotsMax) (hw : Rewrites (rmemSlotFor slot) c b.chip w)
    (hc : Lost slot nonce b → ¬(entryOf c).names nonce) : Gone F i nonce (b.setChip w) := by
  -- the entry is the one that changed, or another, or O1 has no bit for it
  rcases h with h | h
  · by_cases hne : slot = i
    · subst hne
      exact .inl (lost_of_entry hw.self (hc h))
    · refine .inl ((lost_ground i nonce).chip .boot b w (Away.mono hw.away ?_) h)
      rintro _ rfl
      simp only [besideEntry, rmemSlotFor]
      omega
  · refine .inr ((noBit_ground F i).chip .boot b w (Away.mono hw.away ?_) h)
    rintro _ rfl
    exact o1_not_meta ⟨slot, hslot, rfl⟩

/-- An entry reads back as it was stored. -/
theorem entryOf_bytes {m : SlotMeta} (hm : m.Storable) : entryOf (.data m.bytes) = .ok m := by
  rw [entryOf, RSlot.read]
  dsimp only
  rw [List.take_of_length_le (Nat.le_of_eq hm.length), decodeCred_bytes hm]

theorem not_names_empty : ¬(entryOf .empty).names nonce := fun h => h

theorem not_names_unfinished {slot : ℕ} {new : List RSlot} {c : RSlot}
    (hnew : ∀ c ∈ new, ¬(entryOf c).names nonce)
    (hc : Unfinished (fun c => ¬(entryOf c).names nonce) (b.chip.rmem (rmemSlotFor slot)) new c) :
    Lost slot nonce b → ¬(entryOf c).names nonce := by
  intro h
  rcases hc with rfl | hc | hc
  · exact h
  · exact hnew c hc
  · exact hc

theorem gone_eraseEntry (hA : ∀ f, A f → Truthful f) (hF : ∀ f, A f → Forgets nonce f) {slot : ℕ}
    (hslot : slot < fidoSlotsMax) (h : Gone F i nonce b)
    {Q : Reply Unit → FidoRam → Board Note → Prop} {C : Board Note → Prop}
    (hQ : ∀ r b', Gone F i nonce b' → Q r u b') (hC : ∀ b', Gone F i nonce b' → C b') :
    swp (fidoBoard F) A (onChip (tropicRmemErase (rmemSlotFor slot))) Q C u b := by
  have hset : ∀ c, (Lost slot nonce b → ¬(entryOf c).names nonce) →
      Gone F i nonce (b.setChip ((b.chip.note (.rmemErase (rmemSlotFor slot))).setR
        (rmemSlotFor slot) c)) :=
    fun c hc => h.rewrites hslot ⟨rfl, rfl, Nat.le_refl _⟩ hc
  have hbad : ∀ c, Unfinished (fun c => ¬(entryOf c).names nonce)
      (b.chip.rmem (rmemSlotFor slot)) [.empty] c → Lost slot nonce b →
      ¬(entryOf c).names nonce := by
    intro c hc
    apply not_names_unfinished _ hc
    intro c' hc'
    obtain rfl := List.mem_singleton.mp hc'
    exact not_names_empty
  apply swp_erase_truthful hA hF
  · exact hQ _ _ (hset _ fun _ => not_names_empty)
  · exact fun c hc => hQ _ _ (hset c (hbad c hc))
  · exact fun c hc => hC _ (hset c (hbad c hc))

theorem gone_wipeMeta (hA : ∀ f, A f → Truthful f) (hF : ∀ f, A f → Forgets nonce f) :
    Keeps (fidoBoard F) A (fun _ b => Gone F i nonce b) (Gone F i nonce) slotsWipeMeta := by
  have hread : ∀ slot, Keeps (fidoBoard F) A (fun _ b => Gone F i nonce b) (Gone F i nonce)
      (onChip (tropicRmemRead (rmemSlotFor slot) 8) : FidoM (Reply Bytes)) := by
    intro slot u b h
    apply swp_onChip
    apply swp_rmemRead
    · exact h
    · exact fun _ => h
    · exact fun _ => h
  apply keeps_bind _ fun _ => keeps_pure _
  apply keeps_loop_lt
  intro slot _ hslot
  apply keeps_bind
  · intro u b h
    exact gone_eraseEntry hA hF hslot h (fun _ _ h => h) fun _ h => h
  · rintro (_ | _)
    · exact keeps_pure _
    · apply keeps_bind (hread slot)
      rintro ((_ | _) | _) <;> exact keeps_pure _

/-- A new credential has a new nonce. -/
theorem gone_alloc (hA : ∀ f, A f → SoundFate F f) (hF : ∀ f, A f → Forgets nonce f)
    (hi : i < fidoSlotsMax) (hs : Synced F u b) (hfresh : NoRepeat nonce b.chip) {q : NewCred}
    (h : Gone F i nonce b) :
    swp (fidoBoard F) A (q.alloc F) (fun _ _ b' => Gone F i nonce b') (Gone F i nonce) u b := by
  have hnew : ¬(CredRead.ok (q.entry (b.chip.draw 16))).names nonce := hfresh _ (Nat.le_refl _)
  have hentry : (q.entry (b.chip.draw 16)).Storable →
      ¬(entryOf (.data (q.entry (b.chip.draw 16)).bytes)).names nonce := by
    intro hst
    rw [entryOf_bytes hst]
    exact hnew
  have hbad : ∀ {slot c}, (q.entry (b.chip.draw 16)).Storable →
      Unfinished (fun c => ¬(entryOf c).names nonce) (b.chip.rmem (rmemSlotFor slot))
        [.empty, .data (q.entry (b.chip.draw 16)).bytes] c →
      Lost slot nonce b → ¬(entryOf c).names nonce := by
    intro slot c hst hc
    apply not_names_unfinished _ hc
    intro c' hc'
    rcases List.mem_cons.mp hc' with rfl | hc'
    · exact not_names_empty
    · obtain rfl := List.mem_singleton.mp hc'
      exact hentry hst
  apply swp_alloc hA hF
  · exact fun _ _ => h
  · exact fun slot r c w hfree _ hst hc hw => h.rewrites (firstFree_lt hfree) hw (hbad hst hc)
  · exact fun slot c w hfree hst hc hw => h.rewrites (firstFree_lt hfree) hw (hbad hst hc)
  · intro slot w hu hfree hst hw
    have h₁ : Gone F i nonce ((b.setChip w).jot (.publish slot q.created)) :=
      h.rewrites (firstFree_lt hfree) hw fun _ => hentry hst
    rw [publishes, swp_bind]
    by_cases hne : slot = i
    · -- the slot is taken again: its entry has the new nonce
      subst hne
      have hlost : Lost slot nonce (b.setChip w) := lost_of_entry hw.self (hentry hst)
      apply swp_mono ((lost_ground slot nonce).writeGlobal (besideEntry_o1 hi) _ u
        ((b.setChip w).jot (.publish slot q.created)) hlost)
      · rintro (_ | _) u' b' hb <;> exact .inl hb
      · exact fun _ => .inl
    · apply swp_mono (gone_writeGlobal (fun f hf => (hA f hf).1) hi _ h₁) _ fun _ hb => hb
      · intro hno
        have hbit : u.slots.bitmap.getLsbD i = false := by
          have hno' : NoBit F i b := by
            apply Carries.away (S := (· = rmemSlotFor slot)) hno
            · exact fun s hs => (hw.away s hs).symm
            · rintro _ rfl
              exact o1_not_meta ⟨slot, firstFree_lt hfree, rfl⟩
          exact hno'.bit hs hu
        show (publishedBitmap u.slots.bitmap q.replaceMask slot).getLsbD i = false
        simp [publishedBitmap, hbit, hne]
      · rintro (_ | _) u' b' hb <;> exact hb

theorem gone_erase (hA : ∀ f, A f → SoundFate F f) (hF : ∀ f, A f → Forgets nonce f)
    (hi : i < fidoSlotsMax) (hs : Synced F u b) {slot : ℕ} (h : Gone F i nonce b) :
    swp (fidoBoard F) A (slotsErase F slot) (fun _ _ b' => Gone F i nonce b')
      (Gone F i nonce) u b := by
  rw [slotsErase, swp_bind, swp_get]
  split
  · exact h
  rename_i hno
  simp only [not_or, Nat.not_le, Bool.not_eq_false] at hno
  obtain ⟨hslot, hu⟩ := hno
  have rest : ∀ (ok : Bool) u b, Gone F i nonce b → swp (fidoBoard F) A (erasesRecord slot ok)
      (fun _ _ b' => Gone F i nonce b') (Gone F i nonce) u b := by
    intro ok u b h
    cases ok with
    | false => exact h
    | true =>
        rw [erasesRecord, if_pos rfl, swp_bind]
        apply gone_eraseEntry (fun f hf => (hA f hf).2) hF hslot h
        · rintro (_ | _) b' hb <;> exact hb
        · exact fun _ hb => hb
  dsimp only
  split
  · exact rest true u b h
  · rw [swp_bind]
    apply swp_mono (gone_writeGlobal (fun f hf => (hA f hf).1) hi _ h) _ fun _ hb => hb
    · intro hno
      have hbit := hno.bit hs hu
      show (u.slots.bitmap &&& ~~~BitVec.twoPow 32 slot).getLsbD i = false
      rw [BitVec.getLsbD_and, hbit, Bool.false_and]
    · exact fun ok u' b' hb => rest ok u' b' hb

theorem gone_readCred (slot : ℕ) :
    Keeps (fidoBoard F) A (fun _ b => Gone F i nonce b) (Gone F i nonce) (readCred slot) := by
  intro u b h
  rcases h with h | h
  · exact swp_mono ((lost_ground i nonce).readCred slot u b h) (fun _ _ _ => .inl) fun _ => .inl
  · exact swp_mono ((noBit_ground F i).readCred slot u b h) (fun _ _ _ => .inr) fun _ => .inr

/-- Whatever is called, what is gone stays gone. -/
theorem gone_guards (hA : ∀ f, A f → SoundFate F f) (hF : ∀ f, A f → Forgets nonce f)
    (hi : i < fidoSlotsMax) :
    Safeguards F A (fun b => NoRepeat nonce b.chip) (Gone F i nonce) (fun _ => True) where
  init u b h := by
    rcases h with h | h
    · exact swp_mono ((lost_ground i nonce).slotsInit (besideEntry_o1 hi) u b h)
        (fun _ _ _ => .inl) fun _ => .inl
    · exact swp_mono (noBit_slotsInit (fun f hf => (hA f hf).1) u b h) (fun _ _ _ => .inr)
        fun _ => .inr
  initFresh _ u b h := by
    rcases h with h | h
    · exact swp_mono ((lost_ground i nonce).slotsInitFresh (besideEntry_o1 hi) u b h)
        (fun _ _ _ => .inl) fun _ => .inl
    · exact swp_mono (noBit_slotsInitFresh (fun f hf => (hA f hf).1) u b h) (fun _ _ _ => .inr)
        fun _ => .inr
  wipeMeta _ := gone_wipeMeta (fun f hf => (hA f hf).2) hF
  alloc _ _ _ _ hs hfresh h := gone_alloc hA hF hi hs hfresh h
  read := gone_readCred
  erase _ _ _ _ hs h := gone_erase hA hF hi hs h
  flags u b g hs h hg := by
    cases hu : u.slotsUsable with
    | false =>
        rw [writeGlobal, swp_bind, swp_get, hu]
        exact h
    | true =>
        exact gone_writeGlobal (fun f hf => (hA f hf).1) hi (fun hno => hg ▸ hno.bit hs hu) h

end Gone

end Nixtropic.Fido
