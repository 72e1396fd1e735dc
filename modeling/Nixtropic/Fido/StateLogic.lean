import Nixtropic.Fido.GlobalState
import Nixtropic.Tropic.PinRecords

/-!
The rules of `pin_md.c` and `fido_state.c`.

A wipe goes through its steps in order, and stops at the first that fails: the
keys, the metadata, the PIN, O1 and the counter. The rules say what each step
may have done when it stops, and that it stops only when a call met something.
-/

namespace Nixtropic.Fido

open Crash

/-- The slots of the metadata. -/
def metaSlot (slot : ℕ) : Prop := ∃ i < fidoSlotsMax, slot = rmemSlotFor i

/-- The slots of O1 and O2. -/
def globalSlot (slot : ℕ) : Prop := o1.owns slot ∨ o2.owns slot

/-- Some FIDO keys are gone, the others are as they were. -/
def Erased (old new : ℕ → Option EccKey) : Prop :=
  ∀ i, new i = old i ∨ i < fidoSlotsMax ∧ new i = none

theorem Erased.refl (e : ℕ → Option EccKey) : Erased e e := fun _ => .inl rfl

theorem Erased.update {old new : ℕ → Option EccKey} (h : Erased old new) {i : ℕ}
    (hi : i < fidoSlotsMax) : Erased old (Function.update new i none) := by
  intro j
  by_cases hj : j = i
  · subst hj
    exact .inr ⟨hi, Function.update_self ..⟩
  · rw [Function.update_of_ne hj]
    exact h j

/-- No FIDO key is there. -/
def NoKeys (e : ℕ → Option EccKey) : Prop := ∀ i < fidoSlotsMax, e i = none

/-- Every metadata slot reads empty. -/
def NoMeta (R : ℕ → RSlot) : Prop := ∀ i < fidoSlotsMax, credAt R i = .empty

theorem credAt_away {S : ℕ → Prop} {w w' : World} (h : Away S w w') {i : ℕ}
    (hi : ¬S (rmemSlotFor i)) : credAt w'.rmem i = credAt w.rmem i := by
  rw [credAt, credAt, h _ hi]

theorem not_globalSlot_rmem {i : ℕ} (hi : i < fidoSlotsMax) : ¬globalSlot (rmemSlotFor i) := by
  simp only [globalSlot, RecPair.owns, o1, o2, rmemSlotFor, fidoSlotsMax] at hi ⊢
  omega

theorem NoMeta.away {w w' : World} (h : NoMeta w.rmem) (hw : Away globalSlot w w') :
    NoMeta w'.rmem := by
  intro i hi
  rw [credAt_away hw (not_globalSlot_rmem hi)]
  exact h i hi

theorem Away.mono {S S' : ℕ → Prop} {w w' : World} (h : Away S w w')
    (hS : ∀ slot, S slot → S' slot) : Away S' w w' := fun slot hs => h slot fun h' => hs (hS _ h')

theorem GlobalAt.away {F : FidoPrims} {S : ℕ → Prop} {w w' : World} {g : Global}
    (hg : GlobalAt F w.rmem g) (h : Away S w w') (hS : ∀ slot, S slot → ¬o1.owns slot) :
    GlobalAt F w'.rmem g := by
  apply hg.congr
  · exact h _ fun hs => hS _ hs (.inl rfl)
  · exact h _ fun hs => hS _ hs (.inr rfl)

theorem o1_not_o2 {slot : ℕ} (h : o2.owns slot) : ¬o1.owns slot := by
  simp only [RecPair.owns, o1, o2] at h ⊢
  omega

theorem o1_not_meta {slot : ℕ} (h : metaSlot slot) : ¬o1.owns slot := by
  obtain ⟨i, hi, rfl⟩ := h
  exact fun ho => not_globalSlot_rmem hi (.inl ho)

theorem o2_not_meta {slot : ℕ} (h : metaSlot slot) : ¬o2.owns slot := by
  obtain ⟨i, hi, rfl⟩ := h
  exact fun ho => not_globalSlot_rmem hi (.inr ho)

theorem o2_not_o1 {slot : ℕ} (h : o1.owns slot) : ¬o2.owns slot := fun h' => o1_not_o2 h' h

section Rules

variable {F : FidoPrims} {A : BoardFate → Prop} {u : FidoRam} {b : Board Note}
  {C : Board Note → Prop}

/-! ### The wipe, step by step -/

theorem swp_eraseKeys {Q : Bool → FidoRam → Board Note → Prop}
    (hok : ∀ e, Erased b.ecc e → NoKeys e → Q true u (b.withEcc e))
    (hfail : StormyBoard A → ∀ e, Erased b.ecc e → Q false u (b.withEcc e))
    (hcut : ∀ e, Erased b.ecc e → C (b.withEcc e)) :
    swp (fidoBoard F) A eraseKeys Q C u b := by
  rw [eraseKeys, swp_bind]
  refine swp_mono (swp_loop
    (fun n _ u' b' => u' = u ∧ ∃ e, b' = b.withEcc e ∧ Erased b.ecc e ∧ ∀ i < n, e i = none)
    (fun u' b' => u' = u ∧ StormyBoard A ∧ ∃ e, b' = b.withEcc e ∧ Erased b.ecc e)
    ?_ ⟨rfl, b.ecc, rfl, Erased.refl _, fun _ h => absurd h (Nat.not_lt_zero _)⟩) ?_ fun _ h => h
  · rintro i _ u' b' hi ⟨rfl, e, rfl, he, hnone⟩
    have hsame : b.withEcc e = (b.withEcc e).withEcc e := rfl
    have hmay : ∀ b', b' = b.withEcc e ∨ b' = (b.withEcc e).setEcc i none →
        ∃ e', b' = b.withEcc e' ∧ Erased b.ecc e' := by
      rintro _ (rfl | rfl)
      · exact ⟨e, rfl, he⟩
      · exact ⟨_, rfl, he.update hi⟩
    rw [swp_bind]
    apply swp_tropicEccErase
    · refine ⟨rfl, _, rfl, he.update hi, fun j hj => ?_⟩
      by_cases hji : j = i
      · subst hji
        exact Function.update_self ..
      · rw [withEcc_ecc, Function.update_of_ne hji]
        exact hnone j (by omega)
    · exact fun hst b' hb' => ⟨rfl, hst, hmay b' hb'⟩
    · intro _ b' hb'
      obtain ⟨e', rfl, he'⟩ := hmay b' hb'
      exact hcut e' he'
  · rintro (_ | _) u' b' hinv
    · obtain ⟨rfl, hst, e, rfl, he⟩ := hinv
      exact hfail hst e he
    · obtain ⟨rfl, e, rfl, he, hnone⟩ := hinv
      exact hok e he hnone

/-- A slot that the wipe found empty reads empty. -/
theorem credAt_of_read {R : ℕ → RSlot} {i : ℕ} {n : ℕ} (hn : 0 < n)
    (h : (R (rmemSlotFor i)).read n = .error .slotEmpty ∨
      ∃ got, (R (rmemSlotFor i)).read n = .ok got ∧ got.length = 0) : credAt R i = .empty := by
  rw [credAt]
  cases hc : R (rmemSlotFor i) with
  | empty => rfl
  | masked => rfl
  | data bytes =>
      rw [hc] at h
      rcases h with h | ⟨got, h, hlen⟩
      · simp [RSlot.read] at h
      · simp only [RSlot.read, Except.ok.injEq] at h
        subst h
        have hnil : bytes.length = 0 := by
          rw [List.length_take] at hlen
          omega
        simp [RSlot.read, List.eq_nil_of_length_eq_zero hnil, decodeCred]

/-- What a pass of `slotsWipeMeta` has left after its erase. -/
def readsVacant (i : ℕ) : FidoM (Option Unit) := do
  match ← onChip (tropicRmemRead (rmemSlotFor i) 8) with
  | .error .slotEmpty => pure (some ())
  | .error .other => pure none
  | .ok got => pure (if got.length = 0 then some () else none)

/-- The credential slots below `n` are empty after a wipe that touched no other slot. -/
def WipedBelow (b : Board Note) (n : ℕ) (b' : Board Note) : Prop :=
  ∃ w, b' = b.setChip w ∧ Away metaSlot b.chip w ∧ w.mad = b.chip.mad ∧
    ∀ i < n, credAt w.rmem i = .empty

def WipeStopped (b b' : Board Note) : Prop :=
  ∃ w, b' = b.setChip w ∧ Away metaSlot b.chip w ∧ w.mad = b.chip.mad

theorem swp_readsVacant {i : ℕ} {w : World} {c : RSlot} (hset : Away metaSlot b.chip w)
    (hm : w.mad = b.chip.mad) (hslot : w.rmem (rmemSlotFor i) = c)
    (hnone : ∀ j < i, credAt w.rmem j = .empty) (hc : StormyBoard A ∨ c = .empty)
    (hcut : ∀ w, Away metaSlot b.chip w → w.mad = b.chip.mad → C (b.setChip w)) :
    swp (fidoBoard F) A (readsVacant i)
      (fun r u' b' => r.elim (u' = u ∧ StormyBoard A ∧ WipeStopped b b')
        fun _ => u' = u ∧ WipedBelow b (i + 1) b') C u (b.setChip w) := by
  have hdone : credAt w.rmem i = .empty → ∀ j < i + 1, credAt w.rmem j = .empty := by
    intro he j hj
    by_cases hji : j = i
    · subst hji
      exact he
    · exact hnone j (by omega)
  rw [readsVacant, swp_bind]
  apply swp_onChip
  apply swp_rmemRead
  · simp only [Board.setChip_chip, hslot]
    rcases hr : c.read 8 with (_ | _) | got
    · exact ⟨rfl, _, rfl, hset, hm, hdone (credAt_of_read (n := 8) (by decide)
        (.inl (hslot ▸ hr)))⟩
    · cases c <;> simp [RSlot.read] at hr
    · dsimp only
      by_cases hlen : got.length = 0
      · rw [if_pos hlen]
        exact ⟨rfl, _, rfl, hset, hm, hdone (credAt_of_read (n := 8) (by decide)
          (.inr ⟨got, hslot ▸ hr, hlen⟩))⟩
      · rw [if_neg hlen]
        rcases hc with hst | rfl
        · exact ⟨rfl, hst, _, rfl, hset, hm⟩
        · simp [RSlot.read] at hr
  · exact fun hst => ⟨rfl, stormy_chipFates.mp hst, _, rfl, hset, hm⟩
  · exact fun _ => hcut _ hset hm

theorem swp_slotsWipeMeta {Q : Bool → FidoRam → Board Note → Prop}
    (hok : ∀ w, Away metaSlot b.chip w → w.mad = b.chip.mad → NoMeta w.rmem →
      Q true u (b.setChip w))
    (hfail : StormyBoard A → ∀ w, Away metaSlot b.chip w → w.mad = b.chip.mad →
      Q false u (b.setChip w))
    (hcut : ∀ w, Away metaSlot b.chip w → w.mad = b.chip.mad → C (b.setChip w)) :
    swp (fidoBoard F) A slotsWipeMeta Q C u b := by
  rw [slotsWipeMeta, swp_bind]
  refine swp_mono (swp_loop (fun n _ u' b' => u' = u ∧ WipedBelow b n b')
    (fun u' b' => u' = u ∧ StormyBoard A ∧ WipeStopped b b')
    ?_ ⟨rfl, b.chip, rfl, Away.refl _ _, rfl, fun _ h => absurd h (Nat.not_lt_zero _)⟩) ?_
    fun _ h => h
  · rintro i _ u' b' hi ⟨rfl, w, rfl, hw, hm, hnone⟩
    have hset : ∀ c, Away metaSlot b.chip ((w.note (.rmemErase (rmemSlotFor i))).setR
        (rmemSlotFor i) c) := fun c => hw.trans (away_setR ⟨i, hi, rfl⟩ _ c)
    have hbelow : ∀ c, ∀ j < i,
        credAt (Function.update w.rmem (rmemSlotFor i) c) j = .empty := by
      intro c j hj
      have hne : rmemSlotFor j ≠ rmemSlotFor i := by
        simp only [rmemSlotFor]
        omega
      rw [credAt, Function.update_of_ne hne]
      exact hnone j hj
    rw [swp_bind]
    apply swp_onChip
    apply swp_rmemErase leaves_any
    · apply swp_mono (swp_readsVacant (hset _) hm (Function.update_self ..) (hbelow _) (.inr rfl)
        hcut) _ fun _ h => h
      rintro (_ | _) _ _ h <;> exact h
    · intro hst res c _
      cases res with
      | ok _ =>
          apply swp_mono (swp_readsVacant (hset c) hm (Function.update_self ..) (hbelow c)
            (.inl (stormy_chipFates.mp hst)) hcut) _ fun _ h => h
          rintro (_ | _) _ _ h <;> exact h
      | error _ => exact ⟨rfl, stormy_chipFates.mp hst, _, rfl, hset c, hm⟩
    · exact fun _ c _ => hcut _ (hset c) hm
  · rintro (_ | _) u' b' hinv
    · obtain ⟨rfl, hst, w, rfl, hw, hm⟩ := hinv
      exact hfail hst w hw hm
    · obtain ⟨rfl, w, rfl, hw, hm, hnone⟩ := hinv
      exact hok w hw hm hnone

theorem fidoLayout_valid : validLayout fidoLayout = true := by decide

/-- The wipe once every key and every metadata slot is erased. -/
def finishWipe (F : FidoPrims) : FidoM Int := do
  if ← fidoPinClear then
    if ← slotsInitFresh F then
      match ← tropicMcounterInit fidoMcounterMax with
      | .ok () => pure 0
      | .error _ => pure (-5)
    else pure (-4)
  else pure (-3)

/-- The keys and the metadata go first; the note stands where both are gone. -/
theorem swp_fidoStateWipe {Q : Int → FidoRam → Board Note → Prop}
    (hpart : StormyBoard A → ∀ rc e w, rc ≠ 0 → Erased b.ecc e → Away metaSlot b.chip w →
      w.mad = b.chip.mad → Q rc u ((b.withEcc e).setChip w))
    (hcut : ∀ e w, Erased b.ecc e → Away metaSlot b.chip w → w.mad = b.chip.mad →
      C ((b.withEcc e).setChip w))
    (hrest : ∀ e w, Erased b.ecc e → NoKeys e → Away metaSlot b.chip w → w.mad = b.chip.mad →
      NoMeta w.rmem →
      swp (fidoBoard F) A (finishWipe F) Q C u (((b.withEcc e).setChip w).jot .wiped)) :
    swp (fidoBoard F) A (fidoStateWipe F) Q C u b := by
  rw [fidoStateWipe, swp_bind]
  apply swp_eraseKeys
  · intro e he hkeys
    rw [if_pos rfl, swp_bind]
    apply swp_slotsWipeMeta
    · intro w hw hm hmeta
      rw [if_pos rfl, swp_bind]
      apply swp_leave
      exact hrest e w he hkeys hw hm hmeta
    · exact fun hst w hw hm => hpart hst (-2) e w (by decide) he hw hm
    · exact fun w hw hm => hcut e w he hw hm
  · exact fun hst e he => hpart hst (-1) e b.chip (by decide) he (Away.refl _ _) rfl
  · exact fun e he => hcut e b.chip he (Away.refl _ _) rfl

end Rules

end Nixtropic.Fido
