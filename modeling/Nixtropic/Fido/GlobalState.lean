import Nixtropic.Fido.Frame
import Nixtropic.Tropic.RecPairFailure
import Mathlib.Tactic.SplitIfs

/-!
O1 on the chip and its copy in RAM.

Whatever the calls meet, O1 holds one global state at any time, `GlobalAt`. A
write moves it to the new state or leaves it, and a write that fails leaves it
or makes the store unusable until the next power-up. The copy in RAM is
therefore what O1 holds whenever it is used.
-/

namespace Nixtropic.Fido

open Crash

/-! ### The bytes of O1 -/

theorem global_bytes_length (g : Global) : g.bytes.length = o1Len := rfl

theorem global_fits_pair (g : Global) : g.bytes.length ≤ recPayloadMax := by
  rw [global_bytes_length]
  decide

theorem be32At_bytes (g : Global) : be32At g.bytes 0 = g.bitmap.toNat := by
  have hlt : g.bitmap.toNat < 2 ^ 32 := g.bitmap.isLt
  simp only [be32At, byteAt, Global.bytes, be32, List.cons_append, List.nil_append,
    List.getD_cons_succ, List.getD_cons_zero, uint8_ofNat_toNat]
  omega

theorem parseGlobal_bytes {g g' : Global} (h : parseGlobal g.bytes = some g') : g' = g := by
  rw [parseGlobal] at h
  split at h
  · cases h
  · rw [be32At_bytes] at h
    rcases g with ⟨bm, fu, pb⟩
    have h := Option.some.inj h
    rw [← h]
    cases fu <;> cases pb <;> simp [Global.bytes, byteAt, be32]

/-- Only the bits of slots that exist are set. -/
def Global.fits (g : Global) : Prop := g.bitmap.toNat < 2 ^ fidoSlotsMax

theorem parseGlobal_fits {g : Global} (h : g.fits) : parseGlobal g.bytes = some g := by
  have hbits : be32At g.bytes 0 / 2 ^ fidoSlotsMax = 0 := by
    rw [be32At_bytes]
    exact Nat.div_eq_of_lt h
  have hflags : byteAt g.bytes 4 ≤ 1 ∧ byteAt g.bytes 5 ≤ 1 := by
    rcases g with ⟨bm, fu, pb⟩
    cases fu <;> cases pb <;> simp [Global.bytes, byteAt, be32]
  have hsome : ∃ g', parseGlobal g.bytes = some g' := by
    rw [parseGlobal, if_neg]
    · exact ⟨_, rfl⟩
    · rintro (h' | h' | h' | h')
      · exact h' (global_bytes_length g)
      · omega
      · omega
      · exact h' hbits
  obtain ⟨g', hg'⟩ := hsome
  rw [hg', parseGlobal_bytes hg']

/-- What `slots_init` accepts is what `o1_encode` would write. -/
theorem parseGlobal_some {buf : Bytes} {g : Global} (h : parseGlobal buf = some g) :
    buf = g.bytes ∧ g.fits := by
  rw [parseGlobal] at h
  split at h
  · cases h
  rename_i hok
  simp only [not_or, Decidable.not_not, Nat.not_lt] at hok
  obtain ⟨hlen, h4, h5, hbits⟩ := hok
  have h := Option.some.inj h
  obtain ⟨a, b, c, d, e, f, rfl⟩ : ∃ a b c d e f, buf = [a, b, c, d, e, f] := by
    rw [o1Len] at hlen
    rcases buf with _ | ⟨a, _ | ⟨b, _ | ⟨c, _ | ⟨d, _ | ⟨e, _ | ⟨f, rest⟩⟩⟩⟩⟩⟩
    all_goals simp only [List.length_cons, List.length_nil] at hlen
    all_goals try omega
    obtain rfl : rest = [] := List.eq_nil_of_length_eq_zero (by omega)
    exact ⟨a, b, c, d, e, f, rfl⟩
  have ha := a.toNat_lt
  have hb := b.toNat_lt
  have hc := c.toNat_lt
  have hd := d.toNat_lt
  have hval : be32At [a, b, c, d, e, f] 0 =
      a.toNat * 2 ^ 24 + b.toNat * 2 ^ 16 + c.toNat * 2 ^ 8 + d.toNat := rfl
  have hnat : g.bitmap.toNat = be32At [a, b, c, d, e, f] 0 := by
    rw [← h, BitVec.toNat_ofNat, hval]
    omega
  have hflag : ∀ x : UInt8, x.toNat ≤ 1 →
      (if decide (x.toNat = 1) then (1 : UInt8) else 0) = x := by
    intro x hx
    apply UInt8.toNat_inj.mp
    by_cases h1 : x.toNat = 1
    · simp [h1]
    · have h0 : x.toNat = 0 := by omega
      simp [h0]
  constructor
  · rw [Global.bytes, hnat, hval, ← h]
    simp only [be32, List.cons_append, List.nil_append, List.cons.injEq, and_true]
    refine ⟨?_, ?_, ?_, ?_, (hflag e h4).symm, (hflag f h5).symm⟩
    all_goals
      apply UInt8.toNat_inj.mp
      rw [uint8_ofNat_toNat]
      omega
  · rw [Global.fits, hnat]
    exact (Nat.div_eq_zero_iff_lt (by decide)).mp hbits

theorem global_bytes_inj {g g' : Global} (h : g.bytes = g'.bytes) : g = g' := by
  have hbm : g.bitmap = g'.bitmap := by
    apply BitVec.eq_of_toNat_eq
    rw [← be32At_bytes g, ← be32At_bytes g', h]
  rcases g with ⟨bm, fu, pb⟩
  rcases g' with ⟨bm', fu', pb'⟩
  obtain rfl : bm = bm' := hbm
  cases fu <;> cases pb <;> cases fu' <;> cases pb' <;>
    first | rfl | simp [Global.bytes] at h

/-! ### What O1 holds -/

/-- A torn change leaves no record of O1 or O2. -/
def Honest (F : FidoPrims) (f : BoardFate) : Prop :=
  f.leaves fun c => Invalid F.chip o1 c ∧ Invalid F.chip o2 c

theorem honest_o1 {F : FidoPrims} {A : BoardFate → Prop} (hA : ∀ f, A f → Honest F f) :
    ∀ f, chipFates A f → f.leaves (Invalid F.chip o1) := by
  rintro f ⟨f', hf', rfl⟩
  have h := hA f' hf'
  rw [Honest, BoardFate.leaves] at h
  cases hc : f'.chip <;> rw [hc] at h <;> first | trivial | exact h.1

theorem honest_o2 {F : FidoPrims} {A : BoardFate → Prop} (hA : ∀ f, A f → Honest F f) :
    ∀ f, chipFates A f → f.leaves (Invalid F.chip o2) := by
  rintro f ⟨f', hf', rfl⟩
  have h := hA f' hf'
  rw [Honest, BoardFate.leaves] at h
  cases hc : f'.chip <;> rw [hc] at h <;> first | trivial | exact h.2

/-- O1 holds `g`. -/
def GlobalAt (F : FidoPrims) (R : ℕ → RSlot) (g : Global) : Prop :=
  ∃ r, Current F.chip o1 R r ∧ payloadOf r = g.bytes

/-- Both copies of O1 hold `g`. -/
def GlobalBoth (F : FidoPrims) (R : ℕ → RSlot) (g : Global) : Prop :=
  ∃ r, Mirrored F.chip o1 R r ∧ payloadOf r = g.bytes

theorem GlobalBoth.at {F : FidoPrims} {R : ℕ → RSlot} {g : Global} (h : GlobalBoth F R g) :
    GlobalAt F R g := by
  obtain ⟨r, hm, hr⟩ := h
  exact ⟨r, hm.current, hr⟩

theorem GlobalAt.unique {F : FidoPrims} {R : ℕ → RSlot} {g g' : Global} (h : GlobalAt F R g)
    (h' : GlobalAt F R g') : g = g' := by
  obtain ⟨r, hc, hr⟩ := h
  obtain ⟨r', hc', hr'⟩ := h'
  obtain rfl := hc.unique hc'
  exact global_bytes_inj (hr.symm.trans hr')

/-- Only the slots of the pair changed. -/
structure Beside (p : RecPair) (w w' : World) : Prop where
  rmem : Away p.owns w w'
  mad : w'.mad = w.mad

theorem Beside.refl (p : RecPair) (w : World) : Beside p w w := ⟨Away.refl _ w, rfl⟩

theorem Beside.trans {p : RecPair} {w₁ w₂ w₃ : World} (h : Beside p w₁ w₂) (h' : Beside p w₂ w₃) :
    Beside p w₁ w₃ := ⟨h.rmem.trans h'.rmem, h'.mad.trans h.mad⟩

theorem beside_of_touches {p : RecPair} {D : Bytes → Prop} {w w' : World} (h : Touches p D w w') :
    Beside p w w' := by
  refine ⟨fun slot hs => h.rmem slot ?_ ?_, h.mad⟩
  · exact fun ha => hs (.inl ha)
  · exact fun hb => hs (.inr hb)

theorem beside_of_same {p : RecPair} {w w' : World} (hr : w'.rmem = w.rmem)
    (hm : w'.mad = w.mad) : Beside p w w' := ⟨fun slot _ => congrFun hr slot, hm⟩

/-- What O1 holds depends on its two slots only. -/
theorem GlobalAt.congr {F : FidoPrims} {R R' : ℕ → RSlot} {g : Global} (h : GlobalAt F R g)
    (ha : R' o1.slotA = R o1.slotA) (hb : R' o1.slotB = R o1.slotB) : GlobalAt F R' g := by
  obtain ⟨r, ⟨repair, hc⟩, hr⟩ := h
  refine ⟨r, ⟨repair, ?_⟩, hr⟩
  rw [ha, hb]
  exact hc

theorem globalBoth_encode {F : FidoPrims} {R : ℕ → RSlot} {g : Global} {gen : ℕ}
    (h : Mirrored F.chip o1 R (encode F.chip o1 gen g.bytes)) : GlobalBoth F R g :=
  ⟨_, h, payloadOf_encode F.chip o1 gen (global_fits_pair g)⟩

theorem globalAt_encode {F : FidoPrims} {R : ℕ → RSlot} {g : Global} {gen : ℕ}
    (h : Current F.chip o1 R (encode F.chip o1 gen g.bytes)) : GlobalAt F R g :=
  ⟨_, h, payloadOf_encode F.chip o1 gen (global_fits_pair g)⟩

section Rules

variable {F : FidoPrims} {A : BoardFate → Prop} {u : FidoRam} {b : Board Note}
  {C : Board Note → Prop}

theorem slotsUsable_iff {u : FidoRam} :
    u.slotsUsable = true ↔ u.slots.initted = true ∧ u.slots.uncertain = false := by
  simp [FidoRam.slotsUsable]

/-- A write of O1 while it holds `g₀`: acknowledged, refused or unknown. -/
theorem swp_writeGlobal (hA : ∀ f, A f → Honest F f) {g g₀ : Global}
    (h₀ : GlobalAt F b.chip.rmem g₀) {Q : Bool → FidoRam → Board Note → Prop}
    (hok : ∀ w, u.slotsUsable = true → GlobalBoth F w.rmem g → Beside o1 b.chip w →
      Q true (u.adopt g) (b.setChip w))
    (hrefused : ∀ w v, GlobalAt F w.rmem g₀ → Beside o1 b.chip w →
      Q false (o1Cell.put u v) (b.setChip w))
    (hunknown : ∀ w, GlobalAt F w.rmem g → Beside o1 b.chip w →
      Q false (o1Cell.put u true) (b.setChip w))
    (hcut : ∀ w, GlobalAt F w.rmem g₀ ∨ GlobalAt F w.rmem g → Beside o1 b.chip w →
      C (b.setChip w)) :
    swp (fidoBoard F) A (writeGlobal F g) Q C u b := by
  rw [writeGlobal, swp_bind, swp_get]
  cases hu : u.slotsUsable with
  | false => exact hrefused b.chip u.slots.uncertain h₀ (.refl ..)
  | true =>
      obtain ⟨r, hcur, hr⟩ := h₀
      have hhold : Holds F.chip o1 b.chip.rmem (some r) := hcur
      have hunc : o1Cell.get u = false := (slotsUsable_iff.mp hu).2
      have hput : o1Cell.put u false = u := by
        rw [← hunc]
        rfl
      have hold : ∀ {R : ℕ → RSlot}, Holds F.chip o1 R (some r) → GlobalAt F R g₀ :=
        fun h => ⟨r, h, hr⟩
      have hnew : ∀ {R : ℕ → RSlot}, Wrote F.chip o1 (some r) g.bytes R → GlobalAt F R g := by
        rintro R ⟨r', -, -, -, hc⟩
        exact globalAt_encode hc
      rw [if_pos rfl, swp_bind]
      apply swp_onPair
      apply swp_mono (swp_and (swp_recPairWrite (honest_o1 hA) hhold)
        (swp_recPairWrite_marks (honest_o1 hA) hhold))
      · rintro res v w ⟨⟨ht, hres⟩, hmark⟩
        have hb := beside_of_touches ht
        have hbad : res ≠ .ok → (GlobalAt F w.rmem g₀ ∨ GlobalAt F w.rmem g) →
            Q false (o1Cell.put u v) (b.setChip w) := by
          intro hne hmay
          rcases hmark with hm | rfl | hm
          · exact absurd hm hne
          · rcases hmay with h | h
            · exact hrefused w true h hb
            · exact hunknown w h hb
          · exact hrefused w v (hold hm) hb
        cases res with
        | ok =>
            obtain ⟨rfl, r', hr', -, -, hm⟩ := hres
            rw [hput]
            exact hok w hu (globalBoth_encode hm) hb
        | absent => exact nomatch hres.1
        | corrupt => exact nomatch hres.1
        | error => exact hbad nofun (hres.1.imp hold hnew)
      · rintro w ⟨⟨ht, -, h⟩, -⟩
        exact hcut w (h.imp hold hnew) (beside_of_touches ht)

/-! ### Metadata -/

/-- What `read_cred` says of the content of a slot. -/
def credAt (R : ℕ → RSlot) (slot : ℕ) : CredRead :=
  match (R (rmemSlotFor slot)).read slotsRmemPerCredSize with
  | .error .slotEmpty => .empty
  | .error .other => .chipError
  | .ok buf => decodeCred buf

/-- The chip memories are as they were. -/
structure SameMem (w w' : World) : Prop where
  rmem : w'.rmem = w.rmem
  mad : w'.mad = w.mad

theorem SameMem.refl (w : World) : SameMem w w := ⟨rfl, rfl⟩

theorem SameMem.trans {w₁ w₂ w₃ : World} (h : SameMem w₁ w₂) (h' : SameMem w₂ w₃) :
    SameMem w₁ w₃ := ⟨h'.rmem.trans h.rmem, h'.mad.trans h.mad⟩

theorem SameMem.beside {w w' : World} (h : SameMem w w') (p : RecPair) : Beside p w w' :=
  beside_of_same h.rmem h.mad

theorem SameMem.globalAt {w w' : World} (h : SameMem w w') {g : Global}
    (hg : GlobalAt F w.rmem g) : GlobalAt F w'.rmem g := h.rmem ▸ hg

theorem swp_readCred {slot : ℕ} {Q : CredRead → FidoRam → Board Note → Prop}
    (hok : ∀ w, SameMem b.chip w → Q (credAt b.chip.rmem slot) u (b.setChip w))
    (herr : StormyBoard A → ∀ w, SameMem b.chip w → Q .chipError u (b.setChip w))
    (hcut : StormyBoard A → ∀ w, SameMem b.chip w → C (b.setChip w)) :
    swp (fidoBoard F) A (readCred slot) Q C u b := by
  have hsame : SameMem b.chip (b.chip.note (.rmemRead (rmemSlotFor slot) slotsRmemPerCredSize)) :=
    ⟨rfl, rfl⟩
  rw [readCred, swp_bind]
  apply swp_onChip
  apply swp_rmemRead
  · have h := hok _ hsame
    rw [credAt] at h
    rcases hr : (b.chip.rmem (rmemSlotFor slot)).read slotsRmemPerCredSize with (_ | _) | buf
    · rw [hr] at h
      exact h
    · rw [hr] at h
      exact h
    · rw [hr] at h
      exact h
  · exact fun hst => herr (stormy_chipFates.mp hst) _ hsame
  · exact fun hst => hcut (stormy_chipFates.mp hst) _ hsame

theorem fits_iff {g : Global} : g.fits ↔ ∀ i, fidoSlotsMax ≤ i → g.bitmap.getLsbD i = false := by
  constructor
  · intro h i hi
    exact Nat.testBit_lt_two_pow (Nat.lt_of_lt_of_le h (Nat.pow_le_pow_right (by decide) hi))
  · intro h
    apply Nat.lt_pow_two_of_testBit
    exact h

/-- `g'` is `g` without some bits whose metadata slots read empty. -/
structure Scrubbed (R : ℕ → RSlot) (g g' : Global) : Prop where
  forceUv : g'.forceUv = g.forceUv
  pinBound : g'.pinBound = g.pinBound
  kept : ∀ i, g'.bitmap.getLsbD i = true → g.bitmap.getLsbD i = true
  gone : ∀ i, g.bitmap.getLsbD i = true →
    g'.bitmap.getLsbD i = true ∨ i < fidoSlotsMax ∧ credAt R i = .empty

theorem Scrubbed.refl (R : ℕ → RSlot) (g : Global) : Scrubbed R g g :=
  ⟨rfl, rfl, fun _ h => h, fun _ h => .inl h⟩

theorem Scrubbed.fits {R : ℕ → RSlot} {g g' : Global} (h : Scrubbed R g g') (hg : g.fits) :
    g'.fits := by
  rw [fits_iff] at hg ⊢
  intro i hi
  cases hb : g'.bitmap.getLsbD i with
  | false => rfl
  | true =>
      have hold := h.kept i hb
      rw [hg i hi] at hold
      cases hold

/-- The metadata are not in O1. -/
theorem credAt_beside {w w' : World} (h : Beside o1 w w') {i : ℕ} (hi : i < fidoSlotsMax) :
    credAt w'.rmem i = credAt w.rmem i := by
  rw [credAt, credAt, h.rmem]
  simp only [RecPair.owns, o1, rmemSlotFor, fidoSlotsMax] at hi ⊢
  omega

theorem Scrubbed.beside {w w' : World} {g g' : Global} (h : Scrubbed w'.rmem g g')
    (hb : Beside o1 w w') : Scrubbed w.rmem g g' := by
  refine ⟨h.forceUv, h.pinBound, h.kept, fun i hi => ?_⟩
  rcases h.gone i hi with hg | ⟨hlt, hc⟩
  · exact .inl hg
  · exact .inr ⟨hlt, (credAt_beside hb hlt).symm.trans hc⟩

/-- The scrub clears the bits of empty slots only, and reads only. -/
theorem swp_orphanScrub (g : Global) {Q : BitVec 32 → FidoRam → Board Note → Prop}
    (h : ∀ bm w, SameMem b.chip w → Scrubbed b.chip.rmem g { g with bitmap := bm } →
      Q bm u (b.setChip w))
    (hcut : ∀ w, SameMem b.chip w → C (b.setChip w)) :
    swp (fidoBoard F) A (orphanScrub g.bitmap) Q C u b := by
  rw [orphanScrub, swp_bind]
  refine swp_mono (swp_loop
    (fun _ bm u' b' => u' = u ∧ Scrubbed b.chip.rmem g { g with bitmap := bm } ∧
      ∃ w, SameMem b.chip w ∧ b' = b.setChip w)
    (fun _ _ => False) ?_ ⟨rfl, Scrubbed.refl _ g, b.chip, SameMem.refl _, rfl⟩) ?_ fun _ h => h
  · rintro i bm u' b' hi ⟨rfl, hs, w, hw, rfl⟩
    split
    · rw [swp_bind]
      have hstay : ∀ w', SameMem w w' → Scrubbed b.chip.rmem g { g with bitmap := bm } ∧
          ∃ w, SameMem b.chip w ∧ b.setChip w' = b.setChip w :=
        fun w' hw' => ⟨hs, w', hw.trans hw', rfl⟩
      apply swp_readCred
      · intro w' hw'
        have hbit := hstay w' hw'
        cases hc : credAt (b.setChip w).chip.rmem i with
        | empty =>
            refine ⟨rfl, ⟨hs.forceUv, hs.pinBound, ?_, ?_⟩, hbit.2⟩
            · intro j hj
              apply hs.kept j
              simp only [BitVec.getLsbD_and, Bool.and_eq_true] at hj
              exact hj.1
            · intro j hj
              by_cases hji : j = i
              · subst hji
                refine .inr ⟨hi, ?_⟩
                rw [← hc, Board.setChip_chip, credAt, credAt, hw.rmem]
              · rcases hs.gone j hj with h' | h'
                · refine .inl ?_
                  have hlt : j < 32 := BitVec.lt_of_getLsbD h'
                  simp only [BitVec.getLsbD_and, BitVec.getLsbD_not, BitVec.getLsbD_twoPow]
                  simp only at h'
                  simp [h', hlt, Ne.symm hji]
                · exact .inr h'
        | _ => exact ⟨rfl, hbit⟩
      · exact fun _ w' hw' => ⟨rfl, hstay w' hw'⟩
      · exact fun _ w' hw' => hcut w' (hw.trans hw')
    · exact ⟨rfl, hs, w, hw, rfl⟩
  · rintro (_ | bm) u' b' hinv
    · exact hinv.elim
    · obtain ⟨rfl, hs, w, hw, rfl⟩ := hinv
      exact h bm w hw hs

/-! ### Opening the store -/

/-- The variables with O1 taken into RAM. -/
def FidoRam.opened (u : FidoRam) (g : Global) : FidoRam :=
  { u with slots := ⟨true, false, g.bitmap, g.forceUv, g.pinBound⟩ }

/-- The variables with a store that is not in use. -/
def FidoRam.Closed (u u' : FidoRam) : Prop :=
  ∃ s : SlotsRam, s.initted = false ∧ u' = { u with slots := s }

/-- Why `slots_init` may fail on an O1 that holds `g`. -/
def InitFails (A : BoardFate → Prop) (u : FidoRam) (g : Global) : Prop :=
  StormyBoard A ∨ u.slots.uncertain = true ∨ ¬g.fits ∨ g.bitmap ≠ 0

theorem scrubbed_zero {R : ℕ → RSlot} {g g' : Global} (h : Scrubbed R g g') (hg : g.bitmap = 0) :
    g'.bitmap = 0 := by
  apply BitVec.eq_of_getLsbD_eq
  intro i _
  cases hb : g'.bitmap.getLsbD i with
  | false => simp
  | true =>
      have hold := h.kept i hb
      simp [hg] at hold

theorem swp_slotsAdopt (hA : ∀ f, A f → Honest F f) {g : Global}
    (h₀ : GlobalAt F b.chip.rmem g) (hunc : u.slots.uncertain = false)
    {Q : SlotsInit → FidoRam → Board Note → Prop}
    (hok : ∀ w g', GlobalAt F w.rmem g' → Scrubbed b.chip.rmem g g' → Beside o1 b.chip w →
      Q .ok (u.opened g') (b.setChip w))
    (herr : ∀ w g' u', GlobalAt F w.rmem g' → Scrubbed b.chip.rmem g g' → Beside o1 b.chip w →
      u.Closed u' → g.bitmap ≠ 0 → Q .error u' (b.setChip w))
    (hcut : ∀ w g', GlobalAt F w.rmem g' → Scrubbed b.chip.rmem g g' → Beside o1 b.chip w →
      C (b.setChip w)) :
    swp (fidoBoard F) A (slotsAdopt F g) Q C u b := by
  have hopened : { u.adopt g with slots := { (u.adopt g).slots with initted := true } } =
      u.opened g := by
    rw [FidoRam.opened, ← hunc]
    rfl
  rw [slotsAdopt, swp_bind, swp_modify, swp_bind, setInitted, swp_modify, hopened, swp_bind]
  apply swp_orphanScrub g
  · intro bm w hw hs
    split
    · rename_i heq
      have hs' : Scrubbed b.chip.rmem g g := Scrubbed.refl _ g
      exact hok w g (hw.globalAt h₀) hs' (hw.beside o1)
    · rename_i hne
      have hzero : g.bitmap ≠ 0 := by
        intro h0
        exact hne ((scrubbed_zero hs h0).trans h0.symm)
      rw [swp_bind]
      apply swp_writeGlobal hA (hw.globalAt h₀)
      · intro w' _ hboth hb
        exact hok w' _ hboth.at hs ((hw.beside o1).trans hb)
      · intro w' v hat hb
        exact herr w' g _ hat (Scrubbed.refl _ g) ((hw.beside o1).trans hb) ⟨_, rfl, rfl⟩ hzero
      · intro w' hat hb
        exact herr w' _ _ hat hs ((hw.beside o1).trans hb) ⟨_, rfl, rfl⟩ hzero
      · rintro w' (hat | hat) hb
        · exact hcut w' g hat (Scrubbed.refl _ g) ((hw.beside o1).trans hb)
        · exact hcut w' _ hat hs ((hw.beside o1).trans hb)
  · exact fun w hw => hcut w g (hw.globalAt h₀) (Scrubbed.refl _ g) (hw.beside o1)

/-- `slots_init` on an O1 that holds `g`. -/
theorem swp_slotsInit_at (hA : ∀ f, A f → Honest F f) {g : Global}
    (h₀ : GlobalAt F b.chip.rmem g) (hoff : u.slots.initted = false)
    {Q : SlotsInit → FidoRam → Board Note → Prop}
    (hok : ∀ w g', GlobalAt F w.rmem g' → Scrubbed b.chip.rmem g g' → g.fits → Beside o1 b.chip w →
      Q .ok (u.opened g') (b.setChip w))
    (herr : ∀ w g' u', GlobalAt F w.rmem g' → Scrubbed b.chip.rmem g g' → Beside o1 b.chip w →
      u.Closed u' → InitFails A u g → Q .error u' (b.setChip w))
    (hcut : ∀ w g', GlobalAt F w.rmem g' → Scrubbed b.chip.rmem g g' → Beside o1 b.chip w →
      C (b.setChip w)) :
    swp (fidoBoard F) A (slotsInit F) Q C u b := by
  have hclosed : ∀ v, u.Closed (o1Cell.put u v) := fun v =>
    ⟨{ u.slots with uncertain := v }, hoff, rfl⟩
  have hrefl := Scrubbed.refl b.chip.rmem g
  rw [slotsInit, swp_bind, swp_get, if_neg (by simp [hoff]), swp_bind]
  refine swp_tropicSessionEnsure ?_ ?_ ?_
  · obtain ⟨r, hcur, hr⟩ := h₀
    have hhold : Holds F.chip o1 b.chip.rmem (some r) := hcur
    have hat : ∀ {R : ℕ → RSlot}, Holds F.chip o1 R (some r) → GlobalAt F R g := fun h => ⟨r, h, hr⟩
    rw [swp_bind]
    apply swp_onPair
    apply swp_mono (swp_recPairRead (honest_o1 hA) hhold)
    · rintro res v w ⟨ht, hw, hres⟩
      have hb := beside_of_touches ht
      cases res with
      | ok buf gen =>
          obtain ⟨rfl, r', hr', rfl, -, -, -⟩ := hres
          obtain rfl := Option.some.inj hr'
          rw [hr]
          dsimp only
          cases hp : parseGlobal g.bytes with
          | none =>
              apply herr w g _ (hat hw) hrefl hb (hclosed false)
              refine .inr (.inr (.inl fun hf => ?_))
              rw [parseGlobal_fits hf] at hp
              cases hp
          | some g' =>
              obtain rfl := parseGlobal_bytes hp
              have hf := (parseGlobal_some hp).2
              apply swp_slotsAdopt hA (b := b.setChip w) (hat hw) rfl
              · intro w' g₁ h₁ hs hb'
                exact hok w' g₁ h₁ (hs.beside hb) hf (hb.trans hb')
              · intro w' g₁ u' h₁ hs hb' hc hz
                exact herr w' g₁ u' h₁ (hs.beside hb) (hb.trans hb') hc (.inr (.inr (.inr hz)))
              · exact fun w' g₁ h₁ hs hb' => hcut w' g₁ h₁ (hs.beside hb) (hb.trans hb')
      | absent => exact nomatch hres.2
      | corrupt => exact nomatch hres.2.1
      | error =>
          apply herr w g _ (hat hw) hrefl hb (hclosed v)
          rcases hres with h | h | ⟨r', hr', h⟩
          · exact .inr (.inl h)
          · exact .inl (stormy_chipFates.mp h)
          · obtain rfl := Option.some.inj hr'
            have hlen : lenOf r = o1Len := by
              rw [← valid_lenOf hcur.valid, hr, global_bytes_length]
            simp [hlen] at h
    · rintro w ⟨ht, hw, -⟩
      exact hcut w g (hat hw) hrefl (beside_of_touches ht)
  · intro hst
    exact herr b.chip g _ h₀ hrefl (.refl ..) ⟨_, hoff, rfl⟩ (.inl hst)
  · intro _
    exact hcut b.chip g h₀ hrefl (.refl ..)

theorem not_globalAt_none {R : ℕ → RSlot} (h : Holds F.chip o1 R none) (g : Global) :
    ¬GlobalAt F R g := by
  rintro ⟨r, hcur, -⟩
  obtain ⟨hv, ⟨ha, -⟩ | ⟨hb, -⟩⟩ := current_iff.mp hcur
  · exact h.1.ne_data hv ha
  · exact h.2.ne_data hv hb

/-- `slots_init` on an O1 that holds no global state. -/
theorem swp_slotsInit_closed (hA : ∀ f, A f → Honest F f)
    (hno : ∀ g, ¬GlobalAt F b.chip.rmem g) (hoff : u.slots.initted = false)
    {Q : SlotsInit → FidoRam → Board Note → Prop}
    (h : ∀ r v w, r ≠ .ok → (∀ g, ¬GlobalAt F w.rmem g) → Beside o1 b.chip w →
      Q r (o1Cell.put u v) (b.setChip w))
    (hcut : ∀ w, (∀ g, ¬GlobalAt F w.rmem g) → Beside o1 b.chip w → C (b.setChip w)) :
    swp (fidoBoard F) A (slotsInit F) Q C u b := by
  have hsame : o1Cell.put u u.slots.uncertain = u := rfl
  rw [slotsInit, swp_bind, swp_get, if_neg (by simp [hoff]), swp_bind]
  refine swp_tropicSessionEnsure ?_ ?_ ?_
  · rw [swp_bind]
    apply swp_onPair
    by_cases hhold : ∃ o, Holds F.chip o1 b.chip.rmem o
    · obtain ⟨o, ho⟩ := hhold
      have hstay : ∀ w : World, Holds F.chip o1 w.rmem o → ∀ g, ¬GlobalAt F w.rmem g := by
        intro w hw g hg
        cases o with
        | none => exact not_globalAt_none hw g hg
        | some r =>
            obtain ⟨r', hcur, hr⟩ := hg
            obtain rfl := hcur.unique hw
            exact hno g ⟨r', ho, hr⟩
      apply swp_mono (swp_recPairRead (honest_o1 hA) ho)
      · rintro res v w ⟨ht, hw, hres⟩
        have hb := beside_of_touches ht
        cases res with
        | ok buf gen =>
            obtain ⟨rfl, r, rfl, rfl, -⟩ := hres
            dsimp only
            cases hp : parseGlobal (payloadOf r) with
            | none => exact h _ _ w nofun (hstay w hw) hb
            | some g => exact absurd ⟨r, ho, (parseGlobal_some hp).1⟩ (hno g)
        | absent => exact h _ _ w nofun (hstay w hw) hb
        | corrupt => exact h _ _ w nofun (hstay w hw) hb
        | error => exact h _ _ w nofun (hstay w hw) hb
      · rintro w ⟨ht, hw, -⟩
        exact hcut w (hstay w hw) (beside_of_touches ht)
    · have hcon : ∀ o, ¬Holds F.chip o1 b.chip.rmem o := fun o ho => hhold ⟨o, ho⟩
      apply swp_mono (swp_recPairRead_contradiction hcon)
      · rintro res v w ⟨rfl, rfl, ht, hw⟩
        exact h _ _ w nofun (fun g => hw ▸ hno g) (beside_of_touches ht)
      · rintro w ⟨ht, hw⟩
        exact hcut w (fun g => hw ▸ hno g) (beside_of_touches ht)
  · intro _
    exact hsame ▸ h .error _ b.chip nofun hno (.refl ..)
  · intro _
    exact hcut b.chip hno (.refl ..)

/-- A store that is open already is left alone. -/
theorem swp_slotsInit_on (hon : u.slots.initted = true)
    {Q : SlotsInit → FidoRam → Board Note → Prop}
    (h : Q (if u.slots.uncertain then .error else .ok) u b) :
    swp (fidoBoard F) A (slotsInit F) Q C u b := by
  rw [slotsInit, swp_bind, swp_get, if_pos hon]
  exact h

/-- `slots_init_fresh`, whatever O1 held. -/
theorem swp_slotsInitFresh (hA : ∀ f, A f → Honest F f)
    {Q : Bool → FidoRam → Board Note → Prop}
    (hok : ∀ w, GlobalBoth F w.rmem .fresh → Beside o1 b.chip w →
      Q true (u.opened .fresh) (b.setChip w))
    (hfail : StormyBoard A → ∀ u' w, u.Closed u' → Beside o1 b.chip w → Q false u' (b.setChip w))
    (hcut : ∀ w, Beside o1 b.chip w → C (b.setChip w)) :
    swp (fidoBoard F) A (slotsInitFresh F) Q C u b := by
  rw [slotsInitFresh, swp_bind, swp_modify, swp_bind]
  apply swp_onPair
  apply swp_mono (swp_recPairInit (honest_o1 hA))
  · rintro res v w ⟨ht, ⟨rfl, rfl, -, hm⟩ | ⟨rfl, hwhy, -⟩⟩
    · exact hok w (globalBoth_encode hm) (beside_of_touches ht)
    · apply hfail _ _ w _ (beside_of_touches ht)
      · rcases hwhy with h | h | h
        · cases h
        · exact stormy_chipFates.mp h
        · exact absurd (global_fits_pair .fresh) (Nat.not_le_of_lt h)
      · exact ⟨⟨false, v, u.slots.bitmap, u.slots.forceUv, u.slots.pinBound⟩, rfl, rfl⟩
  · rintro w ⟨ht, -, -⟩
    exact hcut w (beside_of_touches ht)

end Rules

end Nixtropic.Fido
