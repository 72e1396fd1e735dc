import Nixtropic.Tropic.RecPairLogic
import Nixtropic.Tropic.Footprint
import Mathlib.Tactic.SplitIfs

/-!
What a record-pair call leaves behind when it says no.

A write that fails has either changed nothing a read would settle on, or it
has marked the pair uncertain. A pair whose copies agree is not touched by a
read, and a cleared pair reads empty on both sides.
-/

namespace Nixtropic

open Crash

section Failure

variable {P : Prims} {A : Fate → Prop} {p : RecPair} {u : Bool} {w : World}

theorem leaves_any : ∀ f, A f → f.leaves fun _ => True := by
  intro f _
  cases f <;> trivial

/-- A commit leaves the flag alone. -/
theorem swp_commitCopy_flag (slot : ℕ) {r : Bytes} (hlen : r.length ≠ 0)
    (hsize : r.length ≤ rmemSlotSize) :
    swp (chip P) A (commitCopy slot r) (fun _ u' _ => u' = u) (fun _ => True) u w := by
  have back : ∀ w₂,
      swp (chip P) A (readsBack slot r) (fun _ u' _ => u' = u) (fun _ => True) u w₂ := by
    intro w₂
    rw [readsBack, swp_bind]
    apply swp_rmemRead
    · cases (w₂.rmem slot).read slotMax <;> rfl
    · exact fun _ => rfl
    · exact fun _ => trivial
  have write : ∀ w₁,
      swp (chip P) A (writesBack slot r) (fun _ u' _ => u' = u) (fun _ => True) u w₁ := by
    intro w₁
    rw [writesBack, swp_bind]
    apply swp_rmemWrite leaves_any hlen hsize
    · exact fun _ => back _
    · exact fun _ => rfl
    · intro _ res x _
      cases res with
      | ok _ => exact back _
      | error _ => rfl
    · exact fun _ _ _ => trivial
  rw [commitCopy, swp_bind]
  apply swp_rmemErase leaves_any
  · exact write _
  · intro _ res x _
    cases res with
    | ok _ => exact write _
    | error _ => rfl
  · exact fun _ _ _ => trivial

theorem encode_fits {gen : ℕ} {payload : Bytes} (hlen : payload.length ≤ recPayloadMax) :
    (encode P p gen payload).length ≠ 0 ∧ (encode P p gen payload).length ≤ rmemSlotSize := by
  rw [encode_length]
  simp only [recHdr, recSum, recPayloadMax, rmemSlotSize] at hlen ⊢
  omega

/-- An unacknowledged commit marks the pair. -/
theorem swp_commitBoth_marks {gen : ℕ} {payload : Bytes} (hlen : payload.length ≤ recPayloadMax) :
    swp (chip P) A (commitBoth P p gen payload) (fun res u' _ => res = .ok ∨ u' = true)
      (fun _ => True) u w := by
  obtain ⟨hne, hsize⟩ := encode_fits (P := P) (p := p) hlen
  rw [commitBoth, swp_bind]
  apply swp_mono (swp_commitCopy_flag _ hne hsize) _ fun _ _ => trivial
  rintro (_ | _) u₁ w₁ rfl
  · exact .inr rfl
  · simp only [if_true]
    rw [swp_bind]
    apply swp_mono (swp_commitCopy_flag _ hne hsize) _ fun _ _ => trivial
    rintro (_ | _) u₂ w₂ rfl
    · exact .inr rfl
    · exact .inl rfl

/-- A write that fails marks the pair, or the pair holds what it held. -/
theorem swp_recPairWrite_marks (hA : ∀ f, A f → f.leaves (Invalid P p)) {payload : Bytes}
    {o : Option Bytes} (ho : Holds P p w.rmem o) :
    swp (chip P) A (recPairWrite P p payload)
      (fun res u' w' => res = .ok ∨ u' = true ∨ Holds P p w'.rmem o) (fun _ => True) u w := by
  rw [recPairWrite]
  split
  · exact .inr (.inr ho)
  · rename_i hbad
    have hlen : payload.length ≤ recPayloadMax := by
      simpa [badArgs] using hbad
    rw [swp_bind]
    apply swp_mono (swp_recPairRead hA ho) _ fun _ _ => trivial
    intro res u₁ w₁ h₁
    have hstay : Holds P p w₁.rmem o := h₁.2.1
    cases res with
    | ok payload' gen =>
        dsimp only
        split
        · exact .inr (.inr hstay)
        · apply swp_mono (swp_commitBoth_marks hlen) _ fun _ _ => trivial
          exact fun _ _ _ h => h.imp_right .inl
    | absent => exact .inr (.inr hstay)
    | corrupt => exact .inr (.inr hstay)
    | error => exact .inr (.inr hstay)

/-! ### Copies that agree -/

/-- A read of two equal copies changes neither. -/
theorem swp_recPairRead_mirrored {r : Bytes} (h : Mirrored P p w.rmem r) {max : Option ℕ} :
    swp (chip P) A (recPairRead P p max)
      (fun res u' w' => u' = u ∧ w'.rmem = w.rmem ∧
        (res = .ok (payloadOf r) (genOf r) ∨ res = .error)) (fun w' => w'.rmem = w.rmem) u w := by
  have hclass : ∀ slot, slot = p.slotA ∨ slot = p.slotB →
      classify P p (w.rmem slot) = .valid r := by
    rintro slot (rfl | rfl)
    · exact classify_valid_iff.mpr ⟨h.a, h.valid⟩
    · exact classify_valid_iff.mpr ⟨h.b, h.valid⟩
  rw [recPairRead, swp_bind, swp_get]
  cases u with
  | true => exact ⟨rfl, rfl, .inr rfl⟩
  | false =>
      simp only [Bool.false_eq_true, if_false]
      rw [swp_bind]
      refine swp_readCopy ?_ (fun _ => ⟨rfl, rfl, .inr rfl⟩) fun _ => rfl
      rw [hclass _ (.inl rfl), if_neg (fun h => by cases h), swp_bind]
      refine swp_readCopy ?_ (fun _ => ⟨rfl, rfl, .inr rfl⟩) fun _ => rfl
      rw [World.note_rmem, hclass _ (.inr rfl), if_neg (fun h => by cases h), choose_self, adopt]
      split
      · exact ⟨rfl, rfl, .inr rfl⟩
      · exact ⟨rfl, rfl, .inl rfl⟩

/-- Copies that contradict each other: neither record is the current one. -/
theorem choose_contradiction {R : ℕ → RSlot} (h : ∀ o, ¬Holds P p R o) :
    choose p (classify P p (R p.slotA)) (classify P p (R p.slotB)) = .error := by
  cases hc : choose p (classify P p (R p.slotA)) (classify P p (R p.slotB)) with
  | win r repair => exact absurd ⟨repair, hc⟩ (h (some r))
  | error => rfl
  | _ =>
      exfalso
      apply h none
      constructor
      · intro r hr
        rw [hr] at hc
        cases hb : classify P p (R p.slotB) with
        | valid r' =>
            rw [hb, choose] at hc
            split_ifs at hc
        | _ => simp [hb, choose] at hc
      · intro r hr
        rw [hr] at hc
        cases ha : classify P p (R p.slotA) with
        | valid r' =>
            rw [ha, choose] at hc
            split_ifs at hc
        | _ => simp [ha, choose] at hc

/-- A read of copies that contradict each other fails and changes nothing. -/
theorem swp_recPairRead_contradiction (h : ∀ o, ¬Holds P p w.rmem o) {max : Option ℕ} :
    swp (chip P) A (recPairRead P p max)
      (fun res u' w' => res = .error ∧ u' = u ∧ Touches p (fun _ => False) w w' ∧ w'.rmem = w.rmem)
      (fun w' => Touches p (fun _ => False) w w' ∧ w'.rmem = w.rmem) u w := by
  have hreadA : PairOp p (fun _ => False) (.rmemRead p.slotA slotMax) := .inl rfl
  have hreadB : PairOp p (fun _ => False) (.rmemRead p.slotB slotMax) := .inr rfl
  have htA := touches_note hreadA w
  have htAB := htA.trans (touches_note hreadB (w.note (.rmemRead p.slotA slotMax)))
  rw [recPairRead, swp_bind, swp_get]
  cases u with
  | true => exact ⟨rfl, rfl, .refl .., rfl⟩
  | false =>
      simp only [Bool.false_eq_true, if_false]
      rw [swp_bind]
      refine swp_readCopy ?_ (fun _ => ⟨rfl, rfl, htA, rfl⟩) fun _ => ⟨htA, rfl⟩
      rw [if_neg (classify_ne_err P p _), swp_bind]
      refine swp_readCopy ?_ (fun _ => ⟨rfl, rfl, htAB, rfl⟩) fun _ => ⟨htAB, rfl⟩
      rw [if_neg (classify_ne_err P p _), World.note_rmem, choose_contradiction h]
      exact ⟨rfl, rfl, htAB, rfl⟩

/-- An acknowledged write left the payload in both copies, whatever they held. -/
theorem swp_recPairWrite_acked (hA : ∀ f, A f → f.leaves (Invalid P p)) {payload : Bytes} :
    swp (chip P) A (recPairWrite P p payload)
      (fun res u' w' => res = .ok → u' = false ∧ payload.length ≤ recPayloadMax ∧
        ∃ gen, Mirrored P p w'.rmem (encode P p gen payload)) (fun _ => True) u w := by
  by_cases hold : ∃ o, Holds P p w.rmem o
  · obtain ⟨o, ho⟩ := hold
    apply swp_mono (swp_recPairWrite hA ho) _ fun _ _ => trivial
    rintro res u' w' ⟨-, hres⟩ rfl
    obtain ⟨hu, r, -, -, hlen, hm⟩ := hres
    exact ⟨hu, hlen, genOf r + 1, hm⟩
  · rw [recPairWrite]
    split
    · exact fun h => by cases h
    · rw [swp_bind]
      apply swp_mono (swp_recPairRead_contradiction fun o ho => hold ⟨o, ho⟩) _ fun _ _ => trivial
      rintro res u' w' ⟨rfl, -⟩
      exact fun h => by cases h

/-- Copies that agree disagree only after a call met something. -/
theorem swp_recPairWrite_mirrored (hA : ∀ f, A f → f.leaves (Invalid P p)) {payload r : Bytes}
    (h : Mirrored P p w.rmem r) :
    swp (chip P) A (recPairWrite P p payload)
      (fun _ _ w' => Stormy A ∨ ∃ r', (r' = r ∨ r' = encode P p (genOf r + 1) payload) ∧
        Mirrored P p w'.rmem r')
      (fun _ => True) u w := by
  have hstay : ∀ {w' : World}, w'.rmem = w.rmem → ∃ r', (r' = r ∨
      r' = encode P p (genOf r + 1) payload) ∧ Mirrored P p w'.rmem r' :=
    fun hr => ⟨r, .inl rfl, hr ▸ h⟩
  rw [recPairWrite]
  split
  · exact .inr (hstay rfl)
  · rename_i hbad
    have hlen : payload.length ≤ recPayloadMax := by
      simpa [badArgs] using hbad
    rw [swp_bind]
    apply swp_mono (swp_recPairRead_mirrored h) _ fun _ _ => trivial
    rintro res u₁ w₁ ⟨-, hr, rfl | rfl⟩
    · dsimp only
      split
      · exact .inr (hstay hr)
      · rename_i hmax
        have hlt : genOf r + 1 < 2 ^ 32 := by
          have := genOf_lt r
          simp only [uint32Max] at hmax
          omega
        have hready : Ready P p w₁.rmem (some r) (encode P p (genOf r + 1) payload) :=
          ⟨valid_encode P p (Nat.succ_ne_zero _) hlt hlen, hr ▸ h, genOf_encode P p payload hlt⟩
        apply swp_mono (swp_commitBoth hA hready) _ fun _ _ => trivial
        rintro res u₂ w₂ ⟨-, ⟨-, -, hm⟩ | ⟨-, hst, -⟩⟩
        · exact .inr ⟨_, .inr rfl, hm⟩
        · exact .inl hst
    · exact .inr (hstay hr)

/-! ### A cleared pair -/

/-- A checked erase that is acknowledged leaves a slot that reads empty. -/
theorem swp_eraseChecked_empty {slot : ℕ} :
    swp (chip P) A (eraseChecked slot)
      (fun ok _ w' => ok = true → classify P p (w'.rmem slot) = .empty) (fun _ => True) u w := by
  have back : ∀ w₁, swp (chip P) A (readsEmpty slot)
      (fun ok _ w' => ok = true → classify P p (w'.rmem slot) = .empty) (fun _ => True) u w₁ := by
    intro w₁
    rw [readsEmpty, swp_bind]
    refine swp_rmemRead ?_ (fun _ => fun h => by cases h) fun _ => trivial
    cases hr : (w₁.rmem slot).read slotMax with
    | error e =>
        cases e with
        | slotEmpty => exact fun _ => by simp [classify, hr]
        | other => exact fun h => by cases h
    | ok got =>
        intro hok
        have hlen : got.length = 0 := of_decide_eq_true hok
        simp [classify, hr, hlen]
  rw [eraseChecked, swp_bind]
  apply swp_rmemErase leaves_any
  · exact back _
  · intro _ res x _
    cases res with
    | ok _ => exact back _
    | error _ => exact fun h => by cases h
  · exact fun _ _ _ => trivial

/-- A pair whose clear is acknowledged reads empty on both sides. -/
theorem swp_recPairClear_blank :
    swp (chip P) A (recPairClear p) (fun res _ w' => res = .ok → Blank P p w'.rmem) (fun _ => True)
      u w := by
  rw [recPairClear, swp_bind, swp_get]
  cases u with
  | true => exact fun h => by cases h
  | false =>
      simp only [Bool.false_eq_true, if_false]
      rw [swp_bind]
      apply swp_mono (swp_eraseChecked_empty (p := p)) _ fun _ h => h
      rintro (_ | _) u₁ w₁ hb
      · exact fun h => by cases h
      · simp only [if_true]
        rw [swp_bind]
        apply swp_mono (swp_and (swp_eraseChecked_empty (p := p))
          (footprint_eraseChecked (S := fun slot => slot = p.slotA) rfl A u₁ w₁)) _
          fun _ _ => trivial
        rintro (_ | _) u₂ w₂ ⟨ha, haway⟩
        · exact fun h => by cases h
        · intro _
          refine ⟨ha rfl, ?_⟩
          rw [haway p.slotB p.slots_ne.symm]
          exact hb rfl

end Failure

end Nixtropic
