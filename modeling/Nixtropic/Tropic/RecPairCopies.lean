import Nixtropic.Tropic.RecPairLogic
import Nixtropic.Tropic.Footprint

/-!
What the copies of a pair may hold, the one a read would not settle on
included.

An interrupted call can bring an older copy back to light, so what is to stay
away for good must be in neither of them. `Carries` says that every record in
the two slots carries a payload in `G`; a read only copies what is there, and a
write or an initialisation adds nothing but the payload it was given.
-/

namespace Nixtropic

open Crash

/-- Every record in the slots of the pair carries a payload in `G`. -/
def Carries (P : Prims) (p : RecPair) (G : Bytes → Prop) (R : ℕ → RSlot) : Prop :=
  ∀ slot, p.owns slot → ∀ r, R slot = .data r → valid P p r = true → G (payloadOf r)

section Carries

variable {P : Prims} {A : Fate → Prop} {p : RecPair} {G : Bytes → Prop} {u : Bool} {w : World}

theorem Carries.current {R : ℕ → RSlot} {r : Bytes} (h : Carries P p G R)
    (hr : Current P p R r) : G (payloadOf r) := by
  obtain ⟨hv, ⟨ha, -⟩ | ⟨hb, -⟩⟩ := current_iff.mp hr
  · exact h _ (.inl rfl) r ha hv
  · exact h _ (.inr rfl) r hb hv

theorem Mirrored.carries {R : ℕ → RSlot} {r : Bytes} (h : Mirrored P p R r)
    (hr : G (payloadOf r)) : Carries P p G R := by
  rintro slot (rfl | rfl) r' hr' -
  · rw [h.a] at hr'
    cases hr'
    exact hr
  · rw [h.b] at hr'
    cases hr'
    exact hr

theorem Carries.away {S : ℕ → Prop} {w w' : World} (h : Carries P p G w.rmem)
    (hw : Away S w w') (hS : ∀ slot, S slot → ¬p.owns slot) : Carries P p G w'.rmem := by
  intro slot hslot r hr
  rw [hw slot fun hs => hS slot hs hslot] at hr
  exact h slot hslot r hr

theorem Carries.erasing {R R' : ℕ → RSlot} (h : Carries P p G R) (her : Erasing P p R R') :
    Carries P p G R' := by
  intro slot hslot r hr hv
  rcases her slot with hs | hs
  · rw [hs] at hr
    exact h slot hslot r hr hv
  · exact absurd hr (hs.ne_data hv)

theorem Carries.update {R : ℕ → RSlot} {slot : ℕ} {r : Bytes} {c : RSlot}
    (h : Carries P p G R) (hr : G (payloadOf r))
    (hc : c = R slot ∨ c = .data r ∨ Invalid P p c) :
    Carries P p G (Function.update R slot c) := by
  intro s hs r' hr' hv
  by_cases heq : s = slot
  · subst heq
    rw [Function.update_self] at hr'
    rcases hc with rfl | rfl | hc
    · exact h s hs r' hr' hv
    · cases hr'
      exact hr
    · exact absurd hr' (hc.ne_data hv)
  · rw [Function.update_of_ne heq] at hr'
    exact h s hs r' hr' hv

theorem swp_commitCopy_carries (hA : ∀ f, A f → f.leaves (Invalid P p)) {slot : ℕ} {r : Bytes}
    (hslot : p.owns slot) (hv : valid P p r = true) (hr : G (payloadOf r))
    (h : Carries P p G w.rmem) :
    swp (chip P) A (commitCopy slot r) (fun _ u' w' => u' = u ∧ Carries P p G w'.rmem)
      (fun w' => Carries P p G w'.rmem) u w := by
  apply swp_mono (swp_commitCopy (D := fun _ => True) hA hslot hv trivial)
  · rintro ok u' w' ⟨rfl, -, ⟨-, hw⟩ | ⟨-, -, c, hc, hw⟩⟩
    · exact ⟨rfl, hw ▸ h.update hr (.inr (.inl rfl))⟩
    · exact ⟨rfl, hw ▸ h.update hr hc⟩
  · rintro w' ⟨-, -, c, hc, hw⟩
    exact hw ▸ h.update hr hc

/-- What a winning choice hands out is a record of one of the copies. -/
theorem choose_win_mem {a b : RSlot} {r : Bytes} {repair : Option ℕ}
    (h : choose p (classify P p a) (classify P p b) = .win r repair) :
    valid P p r = true ∧ (a = .data r ∨ b = .data r) := by
  obtain ⟨hv, ⟨-, ha, -⟩ | ⟨-, ha, -⟩ | ⟨-, hb, -⟩⟩ := choose_win h
  · exact ⟨hv, .inl ha⟩
  · exact ⟨hv, .inl ha⟩
  · exact ⟨hv, .inr hb⟩

/-- A read copies what is there, and hands out a payload in `G`. -/
theorem swp_recPairRead_carries (hA : ∀ f, A f → f.leaves (Invalid P p)) {max : Option ℕ}
    (h : Carries P p G w.rmem) :
    swp (chip P) A (recPairRead P p max)
      (fun res _ w' => Carries P p G w'.rmem ∧
        ∀ payload gen, res = .ok payload gen → G payload ∧ gen ≠ 0 ∧ gen < 2 ^ 32)
      (fun w' => Carries P p G w'.rmem) u w := by
  rw [recPairRead, swp_bind, swp_get]
  split
  · exact ⟨h, fun _ _ h => by cases h⟩
  rw [swp_bind]
  apply swp_readCopy _ (fun _ => ⟨h, fun _ _ h => by cases h⟩) fun _ => h
  rw [if_neg (classify_ne_err P p _), swp_bind]
  apply swp_readCopy _ (fun _ => ⟨h, fun _ _ h => by cases h⟩) fun _ => h
  rw [if_neg (classify_ne_err P p _)]
  cases hch : choose p (classify P p (w.rmem p.slotA)) (classify P p (w.rmem p.slotB)) with
  | win r repair =>
      obtain ⟨hv, hmem⟩ := choose_win_mem hch
      have hG : G (payloadOf r) := by
        rcases hmem with hr | hr
        · exact h _ (.inl rfl) r hr hv
        · exact h _ (.inr rfl) r hr hv
      have hout : ∀ payload gen, RecRead.ok (payloadOf r) (genOf r) = .ok payload gen →
          G payload ∧ gen ≠ 0 ∧ gen < 2 ^ 32 := by
        rintro _ _ ⟨⟩
        exact ⟨hG, valid_genOf hv, genOf_lt r⟩
      show swp (chip P) A (adopt max (choose p (classify P p (w.rmem p.slotA))
        (classify P p (w.rmem p.slotB)))) _ _ _ _
      rw [hch]
      simp only [adopt]
      split
      · exact ⟨h, fun _ _ h => by cases h⟩
      cases repair with
      | none => exact ⟨h, hout⟩
      | some slot =>
          dsimp only
          rw [swp_bind]
          apply swp_mono (swp_commitCopy_carries (w := (w.note (.rmemRead p.slotA slotMax)).note
            (.rmemRead p.slotB slotMax)) hA (choose_repair_owned hch) hv hG h) _ fun _ hw => hw
          rintro ok u' w' ⟨rfl, hw⟩
          split
          · exact ⟨hw, hout⟩
          · exact ⟨hw, fun _ _ h => by cases h⟩
  | _ =>
      show swp (chip P) A (adopt max (choose p (classify P p (w.rmem p.slotA))
        (classify P p (w.rmem p.slotB)))) _ _ _ _
      rw [hch]
      exact ⟨h, fun _ _ h => by cases h⟩

theorem swp_commitBoth_carries (hA : ∀ f, A f → f.leaves (Invalid P p)) {gen : ℕ}
    {payload : Bytes} (hgen : gen ≠ 0) (hlt : gen < 2 ^ 32)
    (hlen : payload.length ≤ recPayloadMax) (hG : G payload) (h : Carries P p G w.rmem) :
    swp (chip P) A (commitBoth P p gen payload) (fun _ _ w' => Carries P p G w'.rmem)
      (fun w' => Carries P p G w'.rmem) u w := by
  have hv := valid_encode P p hgen hlt hlen
  have hr : G (payloadOf (encode P p gen payload)) := by
    rw [payloadOf_encode P p gen hlen]
    exact hG
  rw [commitBoth, swp_bind]
  apply swp_mono (swp_commitCopy_carries hA (.inl rfl) hv hr h) _ fun _ hw => hw
  rintro ok u₁ w₁ ⟨rfl, h₁⟩
  split
  · rw [swp_bind]
    apply swp_mono (swp_commitCopy_carries hA (.inr rfl) hv hr h₁) _ fun _ hw => hw
    rintro ok u₂ w₂ ⟨rfl, h₂⟩
    split
    · exact h₂
    · exact h₂
  · exact h₁

theorem swp_recPairWrite_carries (hA : ∀ f, A f → f.leaves (Invalid P p)) {payload : Bytes}
    (hG : G payload) (h : Carries P p G w.rmem) :
    swp (chip P) A (recPairWrite P p payload) (fun _ _ w' => Carries P p G w'.rmem)
      (fun w' => Carries P p G w'.rmem) u w := by
  rw [recPairWrite]
  split
  · exact h
  rename_i hbad
  have hlen : payload.length ≤ recPayloadMax := by simpa [badArgs] using hbad
  rw [swp_bind]
  apply swp_mono (swp_recPairRead_carries hA h) _ fun _ hw => hw
  rintro res u₁ w₁ ⟨h₁, hres⟩
  cases res with
  | ok buf gen =>
      obtain ⟨-, hgen, hlt⟩ := hres buf gen rfl
      dsimp only
      split
      · exact h₁
      · rename_i hmax
        apply swp_commitBoth_carries hA (Nat.succ_ne_zero gen) _ hlen hG h₁
        simp only [uint32Max] at hmax
        omega
  | _ => exact h₁

theorem swp_recPairInit_carries (hA : ∀ f, A f → f.leaves (Invalid P p)) {payload : Bytes}
    (hG : G payload) (h : Carries P p G w.rmem) :
    swp (chip P) A (recPairInit P p payload) (fun _ _ w' => Carries P p G w'.rmem)
      (fun w' => Carries P p G w'.rmem) u w := by
  rw [recPairInit]
  split
  · exact h
  rename_i hbad
  have hlen : payload.length ≤ recPayloadMax := by simpa [badArgs] using hbad
  rw [swp_bind]
  apply swp_mono (swp_recPairClear hA)
  · rintro res u₁ w₁ ⟨-, her, -⟩
    have h₁ := h.erasing her
    cases res with
    | ok => exact swp_commitBoth_carries hA one_ne_zero (by omega) hlen hG h₁
    | _ => exact h₁
  · rintro w₁ ⟨-, her, -⟩
    exact h.erasing her

end Carries

end Nixtropic
