import Mathlib.Data.List.Basic
import Mathlib.Algebra.Group.Nat.Defs

/-!
The debouncer of `user_presence.c`, which the SysTick interrupt feeds with one
sample of the button every millisecond.

What the debouncer says is a function of the samples taken so far. The list of
them is kept newest first, so that the last samples are its first ones and an
earlier moment is one of its tails.
-/

namespace Nixtropic.Presence

/-- `DEBOUNCE_THRESHOLD_MS` -/
def debounceThresholdMs : ℕ := 10

/-- `deb_state_t` -/
inductive DebState where
  | up
  | goingDown
  | down
  | goingUp
  deriving DecidableEq, Repr

/-- `s_deb_state`, `s_stable_count` and `s_pressed`. -/
structure Button where
  state : DebState
  stableCount : ℕ
  pressed : Bool
  deriving DecidableEq, Repr

/-- The button at power-up. -/
def Button.init : Button := ⟨.up, 0, false⟩

/-- `user_presence_systick_tick` with the sample it reads. -/
def systickTick (raw : Bool) (b : Button) : Button :=
  match b.state with
  | .up => if raw then { b with state := .goingDown, stableCount := 1 } else b
  | .goingDown =>
    if raw then
      let b := { b with stableCount := b.stableCount + 1 }
      if debounceThresholdMs ≤ b.stableCount then { b with state := .down, pressed := true }
      else b
    else { b with state := .up, stableCount := 0 }
  | .down => if !raw then { b with state := .goingUp, stableCount := 1 } else b
  | .goingUp =>
    if !raw then
      let b := { b with stableCount := b.stableCount + 1 }
      if debounceThresholdMs ≤ b.stableCount then { b with state := .up, pressed := false }
      else b
    else { b with state := .down, stableCount := 0 }

/-- The button after the samples, the newest one first. -/
def debounced : List Bool → Button
  | [] => .init
  | raw :: samples => systickTick raw (debounced samples)

/-- The samples taken up to the moment when there were `n` of them. -/
def upTo (n : ℕ) (samples : List Bool) : List Bool := samples.drop (samples.length - n)

/-- The ten samples up to the `n`-th are all `raw`. -/
def TenAt (samples : List Bool) (n : ℕ) (raw : Bool) : Prop :=
  (upTo n samples).take debounceThresholdMs = List.replicate debounceThresholdMs raw

instance (samples : List Bool) (n : ℕ) (raw : Bool) : Decidable (TenAt samples n raw) :=
  inferInstanceAs (Decidable (_ = _))

@[simp] theorem upTo_length (samples : List Bool) : upTo samples.length samples = samples := by
  simp [upTo]

/-- An earlier moment stays what it was. -/
theorem upTo_cons {n : ℕ} {samples : List Bool} (h : n ≤ samples.length) (raw : Bool) :
    upTo n (raw :: samples) = upTo n samples := by
  rw [upTo, List.length_cons, Nat.succ_sub h, List.drop_succ_cons, upTo]

/-- One sample more. -/
theorem upTo_succ {n : ℕ} {samples : List Bool} (h : n < samples.length) :
    ∃ raw, upTo (n + 1) samples = raw :: upTo n samples := by
  have hlt : samples.length - (n + 1) < samples.length := by omega
  refine ⟨samples[samples.length - (n + 1)], ?_⟩
  rw [upTo, List.drop_eq_getElem_cons hlt, upTo]
  congr 2
  omega

/-- While the button settles the samples since have been the same, fewer than
the threshold of them; what is reported changes only at its end. -/
def Settling (b : Button) (samples : List Bool) (pressed raw : Bool) : Prop :=
  b.pressed = pressed ∧ b.stableCount < debounceThresholdMs ∧
    samples.take b.stableCount = List.replicate b.stableCount raw

/-- What the states of the debouncer stand for. -/
def Tracks (b : Button) (samples : List Bool) : Prop :=
  match b.state with
  | .up => b.pressed = false
  | .goingDown => Settling b samples false true
  | .down => b.pressed = true
  | .goingUp => Settling b samples true false

theorem Settling.count {b : Button} {samples : List Bool} {pressed raw : Bool}
    (h : Settling b samples pressed raw) :
    (raw :: samples).take (b.stableCount + 1) = List.replicate (b.stableCount + 1) raw := by
  rw [List.take_succ_cons, h.2.2, List.replicate_succ]

theorem tracks_debounced (samples : List Bool) : Tracks (debounced samples) samples := by
  induction samples with
  | nil => rfl
  | cons raw samples ih =>
      rw [debounced]
      generalize debounced samples = b at ih ⊢
      obtain ⟨state, count, pressed⟩ := b
      cases state with
      | up =>
          cases raw with
          | false => exact ih
          | true => exact ⟨ih, (by decide : 1 < debounceThresholdMs), rfl⟩
      | goingDown =>
          cases raw with
          | false => exact ih.1
          | true =>
              simp only [systickTick, if_true]
              split
              · rfl
              · rename_i hlt
                exact ⟨ih.1, Nat.lt_of_not_le hlt, ih.count⟩
      | down =>
          cases raw with
          | false => exact ⟨ih, (by decide : 1 < debounceThresholdMs), rfl⟩
          | true => exact ih
      | goingUp =>
          cases raw with
          | false =>
              simp only [systickTick, Bool.not_false, if_true]
              split
              · rfl
              · rename_i hlt
                exact ⟨ih.1, Nat.lt_of_not_le hlt, ih.count⟩
          | true => exact ih.1

/-- A button that is settling changes what is reported only with the last of
ten equal samples. -/
theorem Settling.take {b : Button} {samples : List Bool} {pressed raw : Bool}
    (h : Settling b samples pressed raw) (hfull : debounceThresholdMs ≤ b.stableCount + 1) :
    (raw :: samples).take debounceThresholdMs = List.replicate debounceThresholdMs raw := by
  have hcount : b.stableCount + 1 = debounceThresholdMs := by
    have hlt := h.2.1
    omega
  rw [← hcount]
  exact h.count

/-- What is reported changes only with the last of ten equal samples. -/
theorem take_of_change {raw : Bool} {samples : List Bool} {pressed : Bool}
    (hbefore : (debounced samples).pressed = !pressed)
    (hafter : (debounced (raw :: samples)).pressed = pressed) :
    (raw :: samples).take debounceThresholdMs = List.replicate debounceThresholdMs pressed := by
  have htracks := tracks_debounced samples
  rw [debounced] at hafter
  generalize debounced samples = b at hbefore hafter htracks
  obtain ⟨state, count, p⟩ := b
  have hp : p = !pressed := hbefore
  -- where nothing settles, or it is interrupted, nothing changes
  have hsame : (systickTick raw ⟨state, count, p⟩).pressed ≠ p := by
    rw [hafter, hp]
    simp
  cases state with
  | up =>
      exfalso
      apply hsame
      cases raw <;> rfl
  | down =>
      exfalso
      apply hsame
      cases raw <;> rfl
  | goingDown =>
      cases raw with
      | false => exact absurd rfl hsame
      | true =>
          have hfalse : p = false := htracks.1
          obtain rfl : pressed = true := by simpa [hfalse] using hp
          by_cases hfull : debounceThresholdMs ≤ count + 1
          · exact htracks.take hfull
          · exfalso
            apply hsame
            simp [systickTick, hfull]
  | goingUp =>
      cases raw with
      | true => exact absurd rfl hsame
      | false =>
          have htrue : p = true := htracks.1
          obtain rfl : pressed = false := by simpa [htrue] using hp
          by_cases hfull : debounceThresholdMs ≤ count + 1
          · exact htracks.take hfull
          · exfalso
            apply hsame
            simp [systickTick, hfull]

/-- Whether the button was reported pressed when there were `n` samples. -/
def pressedAt (samples : List Bool) (n : ℕ) : Bool := (debounced (upTo n samples)).pressed

theorem pressedAt_cons {n : ℕ} {samples : List Bool} (h : n ≤ samples.length) (raw : Bool) :
    pressedAt (raw :: samples) n = pressedAt samples n := by
  rw [pressedAt, upTo_cons h, pressedAt]

/-- Between two moments at which the reports differ, ten equal samples came to
their end and changed it. -/
theorem exists_change (samples : List Bool) (pressed : Bool) {m : ℕ} (d : ℕ)
    (hlen : m + d ≤ samples.length) (hm : pressedAt samples m = !pressed)
    (hd : pressedAt samples (m + d) = pressed) :
    ∃ k, m < k ∧ k ≤ m + d ∧ TenAt samples k pressed ∧ pressedAt samples (k - 1) = !pressed ∧
      pressedAt samples k = pressed := by
  induction d with
  | zero =>
      rw [Nat.add_zero, hm] at hd
      simp at hd
  | succ d ih =>
      by_cases hprev : pressedAt samples (m + d) = pressed
      · obtain ⟨k, hmk, hkd, hten, hbefore, hk⟩ := ih (by omega) hprev
        exact ⟨k, hmk, by omega, hten, hbefore, hk⟩
      · have hbefore : pressedAt samples (m + d) = !pressed := by
          cases hp : pressedAt samples (m + d) <;> cases pressed <;> simp_all
        obtain ⟨raw, hraw⟩ := upTo_succ (show m + d < samples.length by omega)
        refine ⟨m + (d + 1), by omega, Nat.le_refl _, ?_, hbefore, hd⟩
        rw [TenAt, ← Nat.add_assoc, hraw]
        apply take_of_change hbefore
        rw [← hraw]
        exact hd

end Nixtropic.Presence
