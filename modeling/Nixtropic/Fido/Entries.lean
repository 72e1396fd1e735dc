import Nixtropic.Fido.StateLogic
import Nixtropic.Tropic.RecPairCopies

/-!
The entry of a credential in its R-memory slot.

What `write_cred` writes, `read_cred` reads back, field by field. Nothing reads
an entry back at once, so a chip that answers OK is taken at its word here:
a fate is `Truthful` when a torn call reports an error.
-/

namespace Nixtropic.Fido

open Crash

/-! ### The format -/

/-- What fits in an entry. -/
structure SlotMeta.Storable (m : SlotMeta) : Prop where
  rpIdHash : m.rpIdHash.length = 32
  nonce : m.nonce.length = 16
  userHandle : m.userHandle.length ≤ userIdMax
  created : m.created < 2 ^ 32

/-- The entry behind its user handle. -/
def SlotMeta.tail (m : SlotMeta) : Bytes :=
  List.replicate (userIdMax - m.userHandle.length) 0 ++ (be32 m.created ++ List.replicate 131 0)

theorem SlotMeta.Storable.bytes_eq {m : SlotMeta} (h : m.Storable) :
    m.bytes = 0x4e :: 0x58 :: 0x43 :: 0x52 :: credSchemaVersion :: m.alg :: m.flags :: 0 ::
      (m.rpIdHash ++ (m.nonce ++ UInt8.ofNat m.userHandle.length :: (m.userHandle ++ m.tail))) := by
  have htake : m.userHandle.take userIdMax = m.userHandle := List.take_of_length_le h.userHandle
  simp [SlotMeta.bytes, SlotMeta.tail, credMagic, htake]

theorem SlotMeta.Storable.length {m : SlotMeta} (h : m.Storable) :
    m.bytes.length = slotsRmemPerCredSize := by
  have huser := h.userHandle
  rw [h.bytes_eq]
  simp only [List.length_cons, List.length_append, h.rpIdHash, h.nonce, SlotMeta.tail,
    List.length_replicate, be32, List.length_nil, userIdMax, slotsRmemPerCredSize] at huser ⊢
  omega

/-- From the nonce on. -/
theorem SlotMeta.Storable.drop_40 {m : SlotMeta} (h : m.Storable) :
    m.bytes.drop 40 = m.nonce ++ UInt8.ofNat m.userHandle.length :: (m.userHandle ++ m.tail) := by
  rw [h.bytes_eq]
  exact List.drop_left' h.rpIdHash

/-- From the length of the user handle on. -/
theorem SlotMeta.Storable.drop_56 {m : SlotMeta} (h : m.Storable) :
    m.bytes.drop 56 = UInt8.ofNat m.userHandle.length :: (m.userHandle ++ m.tail) := by
  have hdrop : m.bytes.drop 56 = (m.bytes.drop 40).drop 16 := by rw [List.drop_drop]
  rw [hdrop, h.drop_40]
  exact List.drop_left' h.nonce

/-- From the creation number on. -/
theorem SlotMeta.Storable.drop_121 {m : SlotMeta} (h : m.Storable) :
    m.bytes.drop 121 = be32 m.created ++ List.replicate 131 0 := by
  have huser := h.userHandle
  have hpad : (m.userHandle ++
      List.replicate (userIdMax - m.userHandle.length) (0 : UInt8)).length = 64 := by
    rw [List.length_append, List.length_replicate]
    simp only [userIdMax] at huser ⊢
    omega
  have hdrop : m.bytes.drop 121 = ((m.bytes.drop 56).drop 1).drop 64 := by
    rw [List.drop_drop, List.drop_drop]
  rw [hdrop, h.drop_56, List.drop_one, List.tail_cons, SlotMeta.tail, ← List.append_assoc]
  exact List.drop_left' hpad

theorem getD_eq_drop (b : Bytes) (i k : ℕ) : b.getD (k + i) 0 = (b.drop k).getD i 0 := by
  simp [List.getD_eq_getElem?_getD, List.getElem?_drop]

theorem SlotMeta.Storable.userHandleOf {m : SlotMeta} (h : m.Storable) :
    userHandleOf m.bytes = m.userHandle := by
  have huser := h.userHandle
  have hlen : byteAt m.bytes 56 = m.userHandle.length := by
    rw [byteAt, getD_eq_drop _ 0, h.drop_56, List.getD_cons_zero, UInt8.toNat_ofNat']
    simp only [userIdMax] at huser
    omega
  have hdrop : m.bytes.drop 57 = m.userHandle ++ m.tail := by
    have hdrop : m.bytes.drop 57 = (m.bytes.drop 56).drop 1 := by rw [List.drop_drop]
    rw [hdrop, h.drop_56]
    rfl
  rw [Fido.userHandleOf, hlen, hdrop, h.length]
  split
  · exact List.take_left' rfl
  · rename_i hno
    simp only [slotsRmemPerCredSize, userIdMax] at hno huser
    have hzero : m.userHandle.length = 0 := by omega
    exact (List.eq_nil_of_length_eq_zero hzero).symm

/-- What `write_cred` writes, `read_cred` reads back. -/
theorem decodeCred_bytes {m : SlotMeta} (h : m.Storable) : decodeCred m.bytes = .ok m := by
  have hlen := h.length
  have hrp : (m.bytes.drop 8).take 32 = m.rpIdHash := by
    rw [h.bytes_eq]
    exact List.take_left' h.rpIdHash
  have hnonce : (m.bytes.drop 40).take 16 = m.nonce := by
    rw [h.drop_40]
    exact List.take_left' h.nonce
  have hcreated : be32At m.bytes 121 = m.created := by
    have hlt := h.created
    have hbyte : ∀ i, byteAt m.bytes (121 + i) = byteAt (m.bytes.drop 121) i := by
      intro i
      rw [byteAt, byteAt, getD_eq_drop]
    rw [be32At, hbyte 0, hbyte 1, hbyte 2, hbyte 3, h.drop_121]
    simp only [byteAt, be32, List.cons_append, List.getD_cons_zero, List.getD_cons_succ,
      UInt8.toNat_ofNat']
    omega
  simp only [slotsRmemPerCredSize] at hlen
  rw [decodeCred, if_neg (by omega), if_neg (by omega), if_neg, hrp, hnonce, h.userHandleOf,
    if_pos (by omega), hcreated, h.bytes_eq]
  · rfl
  · rw [h.bytes_eq]
    exact not_not.mpr rfl

/-! ### Chip accesses -/

/-- An OK is the truth: a torn call reports an error. -/
def Truthful (f : BoardFate) : Prop := ∀ left, f.chip ≠ .torn left true

/-- What a change of a slot may have left when it was not acknowledged. -/
def Unfinished (J : RSlot → Prop) (old : RSlot) (new : List RSlot) (c : RSlot) : Prop :=
  c = old ∨ c ∈ new ∨ J c

section Rules

variable {F : FidoPrims} {A : BoardFate → Prop} {J : RSlot → Prop} {u : FidoRam} {b : Board Note}
  {C : Board Note → Prop}

theorem truthful_chip (hA : ∀ f, A f → Truthful f) :
    ∀ f, chipFates A f → ∀ left, f ≠ .torn left true := by
  rintro _ ⟨f, hf, rfl⟩
  exact hA f hf

/-- An erase that answered OK erased. -/
theorem swp_erase_truthful (hA : ∀ f, A f → Truthful f) (hJ : ∀ f, A f → f.leaves J) {slot : ℕ}
    {Q : Reply Unit → FidoRam → Board Note → Prop}
    (hok : Q (.ok ()) u (b.setChip ((b.chip.note (.rmemErase slot)).setR slot .empty)))
    (hbad : ∀ c, Unfinished J (b.chip.rmem slot) [.empty] c →
      Q (.error .other) u (b.setChip ((b.chip.note (.rmemErase slot)).setR slot c)))
    (hcut : ∀ c, Unfinished J (b.chip.rmem slot) [.empty] c →
      C (b.setChip ((b.chip.note (.rmemErase slot)).setR slot c))) :
    swp (fidoBoard F) A (onChip (tropicRmemErase slot)) Q C u b := by
  have hsame : (b.chip.note (.rmemErase slot)).setR slot (b.chip.rmem slot) =
      b.chip.note (.rmemErase slot) := by
    simp [World.setR, World.note]
  have hbadSame : Q (.error .other) u (b.setChip (b.chip.note (.rmemErase slot))) :=
    hsame ▸ hbad _ (.inl rfl)
  have hcutSame : C (b.setChip (b.chip.note (.rmemErase slot))) := hsame ▸ hcut _ (.inl rfl)
  apply swp_onChip
  rw [tropicRmemErase, swp_perform]
  intro f hf
  cases f with
  | none => exact hok
  | fail => exact hbadSame
  | lost => exact hbad _ (.inr (.inl (List.mem_singleton.mpr rfl)))
  | torn left acked =>
      have hleft : J left := chipFates_leaves hJ _ hf
      cases acked with
      | false => exact hbad _ (.inr (.inr hleft))
      | true => exact absurd rfl (truthful_chip hA _ hf left)
  | cutBefore => exact hcutSame
  | cutAfter => exact hcut _ (.inr (.inl (List.mem_singleton.mpr rfl)))
  | cutTorn left => exact hcut _ (.inr (.inr (chipFates_leaves hJ _ hf)))

/-- A write of an empty slot that answered OK wrote. -/
theorem swp_write_truthful (hA : ∀ f, A f → Truthful f) (hJ : ∀ f, A f → f.leaves J) {slot : ℕ}
    {data : Bytes} (hempty : b.chip.rmem slot = .empty) (hlen : data.length ≠ 0)
    (hsize : data.length ≤ rmemSlotSize) {Q : Reply Unit → FidoRam → Board Note → Prop}
    (hok : Q (.ok ()) u (b.setChip ((b.chip.note (.rmemWrite slot data)).setR slot (.data data))))
    (hbad : ∀ c, Unfinished J .empty [.data data] c →
      Q (.error .other) u (b.setChip ((b.chip.note (.rmemWrite slot data)).setR slot c)))
    (hcut : ∀ c, Unfinished J .empty [.data data] c →
      C (b.setChip ((b.chip.note (.rmemWrite slot data)).setR slot c))) :
    swp (fidoBoard F) A (onChip (tropicRmemWrite slot data)) Q C u b := by
  have hsame : (b.chip.note (.rmemWrite slot data)).setR slot .empty =
      b.chip.note (.rmemWrite slot data) := by
    rw [← hempty]
    simp [World.setR, World.note]
  have hbadSame : Q (.error .other) u (b.setChip (b.chip.note (.rmemWrite slot data))) :=
    hsame ▸ hbad _ (.inl rfl)
  have hcutSame : C (b.setChip (b.chip.note (.rmemWrite slot data))) := hsame ▸ hcut _ (.inl rfl)
  have hexec : ∀ w : World, w.rmem slot = .empty →
      exec F.chip (.rmemWrite slot data) w = (.ok (), w.setR slot (.data data)) := by
    intro w hw
    rw [exec, if_neg]
    rintro (h | h | h)
    · exact hlen h
    · omega
    · exact h hw
  apply swp_onChip
  rw [tropicRmemWrite, swp_perform]
  intro f hf
  cases f with
  | none => simpa only [chip, act, hexec _ hempty, hexec (b.chip.note _) hempty] using hok
  | fail => exact hbadSame
  | lost =>
      simpa only [chip, act, failed, hexec (b.chip.note _) hempty] using
        hbad _ (.inr (.inl (List.mem_singleton.mpr rfl)))
  | torn left acked =>
      have hleft : J left := chipFates_leaves hJ _ hf
      cases acked with
      | false => exact hbad _ (.inr (.inr hleft))
      | true => exact absurd rfl (truthful_chip hA _ hf left)
  | cutBefore => exact hcutSame
  | cutAfter =>
      simpa only [chip, act, hexec (b.chip.note _) hempty] using
        hcut _ (.inr (.inl (List.mem_singleton.mpr rfl)))
  | cutTorn left => exact hcut _ (.inr (.inr (chipFates_leaves hJ _ hf)))

/-- One slot of the R-memory holds `c` now, and random bytes may be spent. -/
structure Rewrites (slot : ℕ) (c : RSlot) (w w' : World) : Prop where
  rmem : w'.rmem = Function.update w.rmem slot c
  rng : w'.rng = w.rng
  drawn : w.drawn ≤ w'.drawn

theorem Rewrites.away {slot : ℕ} {c : RSlot} {w w' : World} (h : Rewrites slot c w w') :
    Away (· = slot) w w' := by
  intro s hs
  rw [h.rmem]
  exact Function.update_of_ne hs ..

theorem Rewrites.self {slot : ℕ} {c : RSlot} {w w' : World} (h : Rewrites slot c w w') :
    w'.rmem slot = c := by
  rw [h.rmem]
  exact Function.update_self ..

theorem Rewrites.spent (slot : ℕ) {w w' : World} (hr : w'.rmem = w.rmem) (hrng : w'.rng = w.rng)
    (hd : w.drawn ≤ w'.drawn) : Rewrites slot (w.rmem slot) w w' :=
  ⟨by rw [hr, Function.update_eq_self], hrng, hd⟩

theorem Rewrites.after {slot : ℕ} {c : RSlot} {w w₁ w' : World} (h : Rewrites slot c w₁ w')
    (hr : w₁.rmem = w.rmem) (hrng : w₁.rng = w.rng) (hd : w.drawn ≤ w₁.drawn) :
    Rewrites slot c w w' :=
  ⟨by rw [h.rmem, hr], h.rng.trans hrng, Nat.le_trans hd h.drawn⟩

/-- What `writeCred` has left after its erase. -/
def fillsCred (slot : ℕ) (m : SlotMeta) : FidoM Bool := do
  match ← onChip (tropicRmemWrite (rmemSlotFor slot) m.bytes) with
  | .error _ => pure false
  | .ok () => pure true

/-- An entry that was acknowledged is there. -/
theorem swp_writeCred (hA : ∀ f, A f → Truthful f) (hJ : ∀ f, A f → f.leaves J) {slot : ℕ}
    {m : SlotMeta} (hm : m.Storable) {Q : Bool → FidoRam → Board Note → Prop}
    (hok : ∀ w, Rewrites (rmemSlotFor slot) (.data m.bytes) b.chip w → Q true u (b.setChip w))
    (hbad : ∀ c w, Unfinished J (b.chip.rmem (rmemSlotFor slot)) [.empty, .data m.bytes] c →
      Rewrites (rmemSlotFor slot) c b.chip w → Q false u (b.setChip w))
    (hcut : ∀ c w, Unfinished J (b.chip.rmem (rmemSlotFor slot)) [.empty, .data m.bytes] c →
      Rewrites (rmemSlotFor slot) c b.chip w → C (b.setChip w)) :
    swp (fidoBoard F) A (writeCred slot m) Q C u b := by
  have hone : ∀ {c}, Unfinished J (b.chip.rmem (rmemSlotFor slot)) [.empty] c →
      Unfinished J (b.chip.rmem (rmemSlotFor slot)) [.empty, .data m.bytes] c := by
    rintro c (h | h | h)
    · exact .inl h
    · exact .inr (.inl (List.mem_cons.mpr (.inl (List.mem_singleton.mp h))))
    · exact .inr (.inr h)
  have htwo : ∀ {c}, Unfinished J .empty [.data m.bytes] c →
      Unfinished J (b.chip.rmem (rmemSlotFor slot)) [.empty, .data m.bytes] c := by
    rintro c (h | h | h)
    · exact .inr (.inl (List.mem_cons.mpr (.inl h)))
    · exact .inr (.inl (List.mem_cons.mpr (.inr h)))
    · exact .inr (.inr h)
  have herased : ∀ c, Rewrites (rmemSlotFor slot) c b.chip
      ((b.chip.note (.rmemErase (rmemSlotFor slot))).setR (rmemSlotFor slot) c) :=
    fun c => ⟨rfl, rfl, Nat.le_refl _⟩
  rw [writeCred, swp_bind]
  apply swp_erase_truthful hA hJ
  · show swp (fidoBoard F) A (fillsCred slot m) Q C u _
    generalize hw : (b.chip.note (.rmemErase (rmemSlotFor slot))).setR (rmemSlotFor slot) .empty = w
    have hr : Rewrites (rmemSlotFor slot) .empty b.chip w := hw ▸ herased .empty
    have hfilled : ∀ c, Rewrites (rmemSlotFor slot) c b.chip
        ((w.note (.rmemWrite (rmemSlotFor slot) m.bytes)).setR (rmemSlotFor slot) c) := by
      intro c
      refine ⟨?_, hr.rng, hr.drawn⟩
      rw [World.setR_rmem, World.note_rmem, hr.rmem, Function.update_idem]
    have hlen := hm.length
    simp only [slotsRmemPerCredSize] at hlen
    rw [fillsCred, swp_bind]
    apply swp_write_truthful hA hJ hr.self
    · omega
    · simp only [rmemSlotSize]
      omega
    · exact hok _ (hfilled _)
    · exact fun c hc => hbad c _ (htwo hc) (hfilled c)
    · exact fun c hc => hcut c _ (htwo hc) (hfilled c)
  · exact fun c hc => hbad c _ (hone hc) (herased c)
  · exact fun c hc => hcut c _ (hone hc) (herased c)

end Rules

end Nixtropic.Fido
