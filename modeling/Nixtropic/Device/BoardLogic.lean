import Nixtropic.Device.Board

/-!
One rule for each call of the board, and the lift of what is proved about the
chip alone.
-/

namespace Nixtropic

open Crash

/-- The fates of the chip that the fates of the board amount to. -/
def chipFates (A : BoardFate → Prop) : Fate → Prop := fun f => ∃ f', A f' ∧ f'.chip = f

/-- Nothing ever happens on the chip. -/
def CalmBoard : BoardFate → Prop := fun f => f.chip = .none

theorem calm_quiet : CalmBoard .quiet := rfl

/-- Some call may meet something on the chip. -/
def StormyBoard (A : BoardFate → Prop) : Prop := ∃ f, A f ∧ f.chip ≠ .none

theorem not_stormyBoard_calm : ¬StormyBoard CalmBoard := by
  rintro ⟨f, hf, hne⟩
  exact hne hf

theorem stormy_chipFates {A : BoardFate → Prop} : Stormy (chipFates A) ↔ StormyBoard A := by
  constructor
  · rintro ⟨f, ⟨f', hf', rfl⟩, hne⟩
    exact ⟨f', hf', hne⟩
  · rintro ⟨f, hf, hne⟩
    exact ⟨f.chip, ⟨f, hf, rfl⟩, hne⟩

/-- The fate leaves a slot that is being changed with a content in `J`. -/
def BoardFate.leaves (J : RSlot → Prop) (f : BoardFate) : Prop := f.chip.leaves J

theorem chipFates_leaves {A : BoardFate → Prop} {J : RSlot → Prop} (h : ∀ f, A f → f.leaves J) :
    ∀ f, chipFates A f → f.leaves J := by
  rintro f ⟨f', hf', rfl⟩
  exact h f' hf'

/-- The board with other keys. -/
def Board.withEcc {N : Type} (b : Board N) (e : ℕ → Option EccKey) : Board N := { b with ecc := e }

section WithEcc

variable {N : Type} (b : Board N) (e : ℕ → Option EccKey)

@[simp] theorem withEcc_chip : (b.withEcc e).chip = b.chip := rfl
@[simp] theorem withEcc_ecc : (b.withEcc e).ecc = e := rfl
@[simp] theorem withEcc_notes : (b.withEcc e).notes = b.notes := rfl
@[simp] theorem withEcc_counter : (b.withEcc e).counter = b.counter := rfl

end WithEcc

/-- A call to the chip itself: not the tick, the touch button or a note. -/
def BoardOp.onTropic {N : Type} : BoardOp N → Prop
  | .tick => False
  | .touch _ => False
  | .note _ => False
  | _ => True

section Rules

variable {N ρ α : Type} {P : Prims} {K : KeyPrims} {A : BoardFate → Prop} {u : ρ} {b : Board N}
  {C : Board N → Prop}

theorem boardMachine_act {f : BoardFate} {o : BoardOp N} :
    (boardMachine P K).act f (Sum.inr o) b = boardAct K f o b := rfl

theorem boardAct_onTropic {f : BoardFate} {o : BoardOp N} (ho : o.onTropic) :
    boardAct K f o b = match f.chip with
      | .none => (some (boardExec K o b).1, (boardExec K o b).2)
      | .fail => (boardFailed o, b)
      | .lost => (boardFailed o, (boardExec K o b).2)
      | .torn _ _ => (boardFailed o, b)
      | .cutBefore => (none, b)
      | .cutAfter => (none, (boardExec K o b).2)
      | .cutTorn _ => (none, b) := by
  cases o <;> first | rfl | exact ho.elim

theorem swp_callBoard {o : BoardOp N} (ho : o.onTropic) {Q : BoardRet o → ρ → Board N → Prop}
    (hok : Q (boardExec K o b).1 u (boardExec K o b).2)
    (herr : StormyBoard A → ∀ r, boardFailed o = some r → ∀ b',
      b' = b ∨ b' = (boardExec K o b).2 → Q r u b')
    (hcut : StormyBoard A → ∀ b', b' = b ∨ b' = (boardExec K o b).2 → C b') :
    swp (boardMachine P K) A (callBoard o) Q C u b := by
  have hfailed : ∃ r, boardFailed o = some r := by
    cases o <;> first | exact ⟨_, rfl⟩ | exact ho.elim
  obtain ⟨r, hr⟩ := hfailed
  rw [callBoard, swp_perform]
  intro f hf
  rw [boardMachine_act, boardAct_onTropic ho]
  have storm : f.chip ≠ .none → StormyBoard A := fun h => ⟨f, hf, h⟩
  cases hc : f.chip with
  | none => exact hok
  | fail =>
      rw [hr]
      exact herr (storm (by simp [hc])) r hr b (.inl rfl)
  | lost =>
      rw [hr]
      exact herr (storm (by simp [hc])) r hr _ (.inr rfl)
  | torn left acked =>
      rw [hr]
      exact herr (storm (by simp [hc])) r hr b (.inl rfl)
  | cutBefore => exact hcut (storm (by simp [hc])) b (.inl rfl)
  | cutAfter => exact hcut (storm (by simp [hc])) _ (.inr rfl)
  | cutTorn left => exact hcut (storm (by simp [hc])) b (.inl rfl)

@[simp] theorem swp_leave {n : N} {Q : Unit → ρ → Board N → Prop}
    (h : Q () u (b.jot n)) : swp (boardMachine P K) A (leave n) Q C u b := by
  rw [leave, callBoard, swp_perform]
  intro f _
  exact h

theorem swp_halGetTick {Q : ℕ → ρ → Board N → Prop}
    (h : ∀ d, Q ((b.now + d) % 2 ^ 32) u (b.wait d)) :
    swp (boardMachine P K) A halGetTick Q C u b := by
  rw [halGetTick, callBoard, swp_perform]
  intro f _
  exact h f.delay

/-- The power may go during a touch wait. -/
theorem swp_userPresenceCheck {timeout : ℕ} {Q : UpResult → ρ → Board N → Prop}
    (h : ∀ r d, Q r u (b.wait d)) (hcut : StormyBoard A → C b) :
    swp (boardMachine P K) A (userPresenceCheck timeout) Q C u b := by
  rw [userPresenceCheck, callBoard, swp_perform]
  intro f hf
  rw [boardMachine_act, boardAct]
  cases hc : f.chip with
  | cutBefore => exact hcut ⟨f, hf, by simp [hc]⟩
  | _ => exact h f.up f.delay

theorem swp_tropicSessionEnsure {Q : Reply Unit → ρ → Board N → Prop} (hok : Q (.ok ()) u b)
    (herr : StormyBoard A → Q (.error .other) u b) (hcut : StormyBoard A → C b) :
    swp (boardMachine P K) A tropicSessionEnsure Q C u b := by
  apply swp_callBoard (o := .session) trivial hok
  · rintro hA _ ⟨⟩ b' (rfl | rfl) <;> exact herr hA
  · rintro hA b' (rfl | rfl) <;> exact hcut hA

theorem swp_tropicEccErase {slot : ℕ} {Q : Reply Unit → ρ → Board N → Prop}
    (hok : Q (.ok ()) u (b.setEcc slot none))
    (herr : StormyBoard A → ∀ b', b' = b ∨ b' = b.setEcc slot none → Q (.error .other) u b')
    (hcut : StormyBoard A → ∀ b', b' = b ∨ b' = b.setEcc slot none → C b') :
    swp (boardMachine P K) A (tropicEccErase slot) Q C u b := by
  apply swp_callBoard (o := .eccErase slot) trivial hok
  · rintro hA _ ⟨⟩ b' hb
    exact herr hA b' hb
  · exact hcut

/-- The counter went down by one, or not at all. -/
def Board.Ticks (b b' : Board N) : Prop :=
  b' = b ∨ ∃ v, b.counter = some (v + 1) ∧ b' = b.setCounter (some v)

theorem swp_tropicMcounterUpdate {Q : Reply Unit → ρ → Board N → Prop}
    (hok : ∀ v, b.counter = some (v + 1) → Q (.ok ()) u (b.setCounter (some v)))
    (herr : ∀ b', b.Ticks b' → Q (.error .other) u b') (hcut : ∀ b', b.Ticks b' → C b') :
    swp (boardMachine P K) A tropicMcounterUpdate Q C u b := by
  have hticks : ∀ b', b' = b ∨ b' = (boardExec K (N := N) .mcounterUpdate b).2 → b.Ticks b' := by
    rintro b' (rfl | rfl)
    · exact .inl rfl
    · rw [boardExec]
      split
      · rename_i v hv
        exact .inr ⟨v, hv, rfl⟩
      · exact .inl rfl
  apply swp_callBoard (o := .mcounterUpdate) trivial
  · rw [boardExec]
    split
    · rename_i v hv
      exact hok v hv
    · exact herr b (.inl rfl)
  · rintro - _ ⟨⟩ b' hb
    exact herr b' (hticks b' hb)
  · exact fun _ b' hb => hcut b' (hticks b' hb)

theorem swp_tropicMcounterGet {Q : Reply ℕ → ρ → Board N → Prop}
    (hok : Q (match b.counter with
      | some n => .ok n
      | none => .error .other) u b)
    (herr : StormyBoard A → Q (.error .other) u b) (hcut : StormyBoard A → C b) :
    swp (boardMachine P K) A tropicMcounterGet Q C u b := by
  have hexec : boardExec K (N := N) .mcounterGet b = (match b.counter with
      | some n => .ok n
      | none => .error .other, b) := by
    rw [boardExec]
    cases b.counter <;> rfl
  apply swp_callBoard (o := .mcounterGet) trivial
  · rw [hexec]
    exact hok
  · rw [hexec]
    rintro hA _ ⟨⟩ b' (rfl | rfl) <;> exact herr hA
  · rw [hexec]
    rintro hA b' (rfl | rfl) <;> exact hcut hA

theorem swp_tropicEccPubkeyRead {slot : ℕ} {Q : Reply Bytes → ρ → Board N → Prop}
    (hok : Q (match b.ecc slot with
      | some k => .ok (K.pub k)
      | none => .error .other) u b)
    (herr : StormyBoard A → Q (.error .other) u b) (hcut : StormyBoard A → C b) :
    swp (boardMachine P K) A (tropicEccPubkeyRead slot) Q C u b := by
  have hexec : boardExec K (N := N) (.eccPubkeyRead slot) b = (match b.ecc slot with
      | some k => .ok (K.pub k)
      | none => .error .other, b) := by
    rw [boardExec]
    cases b.ecc slot <;> rfl
  apply swp_callBoard (o := .eccPubkeyRead slot) trivial
  · rw [hexec]
    exact hok
  · rw [hexec]
    rintro hA _ ⟨⟩ b' (rfl | rfl) <;> exact herr hA
  · rw [hexec]
    rintro hA b' (rfl | rfl) <;> exact hcut hA

/-- Signing leaves the board alone. -/
theorem swp_sign {o : BoardOp N} {slot : ℕ} {msg : Bytes}
    (ho : o = .eddsaSign slot msg ∨ o = .ecdsaSign slot msg) {Q : BoardRet o → ρ → Board N → Prop}
    (h : ∀ r, Q r u b) (hcut : StormyBoard A → C b) :
    swp (boardMachine P K) A (callBoard o) Q C u b := by
  have hexec : (boardExec K o b).2 = b := by
    rcases ho with rfl | rfl
    · rw [boardExec]
      cases b.ecc slot with
      | none => rfl
      | some k => dsimp only; split <;> rfl
    · rw [boardExec]
      cases b.ecc slot with
      | none => rfl
      | some k => dsimp only; split <;> rfl
  apply swp_callBoard
  · rcases ho with rfl | rfl <;> trivial
  · rw [hexec]
    exact h _
  · rw [hexec]
    rintro - r - b' (rfl | rfl) <;> exact h r
  · rw [hexec]
    rintro hA b' (rfl | rfl) <;> exact hcut hA

/-- What is proved of the chip holds on the board. -/
theorem swp_onChip {m : Fw ρ α} {Q : α → ρ → Board N → Prop}
    (h : swp (chip P) (chipFates A) m (fun a v w => Q a v (b.setChip w)) (fun w => C (b.setChip w))
      u b.chip) :
    swp (boardMachine P K) A (onChip m) Q C u b :=
  (onBoard P K).swp_zoom h

theorem swp_onPair {c : Cell ρ Bool} {m : Fw Bool α} {Q : α → ρ → Board N → Prop}
    (h : swp (chip P) (chipFates A) m (fun a v w => Q a (c.put u v) (b.setChip w))
      (fun w => C (b.setChip w)) (c.get u) b.chip) :
    swp (boardMachine P K) A (onPair c m) Q C u b :=
  (onBoard P K).swp_zoom h

/-- No call is cut while nothing happens on the chip. -/
theorem calm_uncut {f : BoardFate} (hf : CalmBoard f) (o : Op ⊕ BoardOp N) (b : Board N) :
    ((boardMachine P K).act f o b).1 ≠ none := by
  have hchip : f.chip = .none := hf
  cases o with
  | inl o =>
      have hact : ((boardMachine (N := N) P K).act f (Sum.inl o) b).1 =
          (act P f.chip o b.chip).1 := rfl
      rw [hact, hchip]
      cases o <;> exact nofun
  | inr o =>
      rw [boardMachine_act]
      cases o with
      | tick => exact nofun
      | touch t =>
          rw [boardAct, hchip]
          exact nofun
      | note n => exact nofun
      | _ =>
          rw [boardAct_onTropic (by trivial), hchip]
          exact nofun

theorem boardExec_notes (K : KeyPrims) (o : BoardOp N) (b : Board N) :
    b.notes <:+ (boardExec K o b).2.notes := by
  cases o with
  | note n => exact List.suffix_cons _ _
  | eccGenerate slot curve =>
      rw [boardExec]
      split <;> exact List.suffix_rfl
  | eddsaSign slot msg =>
      rw [boardExec]
      cases b.ecc slot with
      | none => exact List.suffix_rfl
      | some k => dsimp only; split <;> exact List.suffix_rfl
  | ecdsaSign slot msg =>
      rw [boardExec]
      cases b.ecc slot with
      | none => exact List.suffix_rfl
      | some k => dsimp only; split <;> exact List.suffix_rfl
  | eccPubkeyRead slot =>
      rw [boardExec]
      cases b.ecc slot <;> exact List.suffix_rfl
  | mcounterUpdate =>
      rw [boardExec]
      rcases b.counter with _ | _ | n <;> exact List.suffix_rfl
  | mcounterGet =>
      rw [boardExec]
      cases b.counter <;> exact List.suffix_rfl
  | _ => exact List.suffix_rfl

theorem boardMachine_notes (P : Prims) (K : KeyPrims) (f : BoardFate) (o : Op ⊕ BoardOp N)
    (b : Board N) : b.notes <:+ ((boardMachine P K).act f o b).2.notes := by
  cases o with
  | inl o => exact List.suffix_rfl
  | inr o =>
      rw [boardMachine_act]
      have hexec := boardExec_notes K o b
      cases o with
      | tick => exact List.suffix_rfl
      | touch t =>
          rw [boardAct]
          cases f.chip <;> exact List.suffix_rfl
      | note n => exact List.suffix_cons _ _
      | _ =>
          rw [boardAct_onTropic (by trivial)]
          cases f.chip <;> first | exact hexec | exact List.suffix_rfl

/-- Notes are only added. -/
theorem swp_notes (m : Bw N ρ α) :
    swp (boardMachine P K) A m (fun _ _ b' => b.notes <:+ b'.notes) (fun b' => b.notes <:+ b'.notes)
      u b := by
  apply swp_rel (R := fun b b' : Board N => b.notes <:+ b'.notes)
  · exact fun _ => List.suffix_rfl
  · intro b₁ b₂ b₃ h h'
    exact List.IsSuffix.trans h h'
  · exact boardMachine_notes P K

/-- Whatever the first program does, it only adds notes. -/
theorem swp_bind_notes {β : Type} {m : Bw N ρ α} {f : α → Bw N ρ β}
    {Q : β → ρ → Board N → Prop}
    (hf : ∀ a v b', b.notes <:+ b'.notes → swp (boardMachine P K) A (f a) Q C v b')
    (hC : ∀ b', C b') : swp (boardMachine P K) A (m >>= f) Q C u b := by
  rw [swp_bind]
  exact swp_mono (swp_notes m) hf fun b' _ => hC b'

end Rules

end Nixtropic
