import Nixtropic.Fido.TimedCommands

/-!
The time limits of the token, of GetNextAssertion and of Reset over whole
runs, in true time.
-/

namespace Nixtropic.Fido

open Crash Runs

variable {F : FidoPrims}

/-- What holds of the device between two actions. -/
def Device.Timed (d : Device) : Prop :=
  match d.ram with
  | some u => TimeInv u d.board
  | none => OffInv d.board

theorem timed_settle {α : Type} {o : Outcome (α × FidoRam) (Board Note)}
    (h : o.Satisfies (fun x b => TimeInv x.2 b) OffInv) : (Device.settle o).Timed := by
  cases o with
  | done x b => exact h
  | cut b => exact h

theorem timed_step {d : Device} (h : d.Timed) (a : Action) : (Device.step F d a).Timed := by
  cases a with
  | powerUp fs =>
      have hoff : OffInv { d.board with now := 0 } := by
        rcases d with ⟨_ | u, b⟩
        · exact h
        · have hu : TimeInv u b := h
          exact hu.timely
      apply timed_settle
      exact run_of_swp (A := fun _ => True) trivial (timeInv_bringUp hoff) fun _ _ => trivial
  | request r fs =>
      rcases d with ⟨_ | u, b⟩
      · exact h
      · apply timed_settle
        exact run_of_swp (A := fun _ => True) trivial (timeInv_fidoHidCborDispatch r u b h)
          fun _ _ => trivial

/-- Over every run, cut and failing calls included, no limit is overrun,
unless a timer was looked at after it had run out unnoticed. -/
theorem limits_hold (F : FidoPrims) (b : Board Note) (acts : List Action)
    (hclock : Unwrapped ((device F b).run acts).board.notes) :
    Timely ((device F b).run acts).board.notes := by
  have hinit : (device F b).init.Timed := fun _ => trivial
  have h : ((device F b).run acts).Timed :=
    System.run_keeps hinit (fun _ a h => timed_step h a) acts
  rcases hd : (device F b).run acts with ⟨_ | u, b'⟩
  · rw [hd] at h hclock
    exact h hclock
  · rw [hd] at h hclock
    have hu : TimeInv u b' := h
    exact hu.timely hclock

/-- A power-up where neither the store nor the PIN comes up, and a Reset after
some time that nobody confirms. -/
def lateReset (delay : ℕ) : List Action :=
  [.powerUp [.quiet, ⟨.fail, 0, .ok⟩, ⟨.fail, 0, .ok⟩],
    .request ⟨.reset, true⟩ [.quiet, ⟨.none, delay, .ok⟩, .quiet, .quiet, ⟨.none, 0, .fail⟩]]

theorem limits_hold_demo :
    Timely ((device mixFido blankBoard).run (lateReset 9000)).board.notes := by
  apply limits_hold mixFido blankBoard (lateReset 9000)
  refine ⟨trivial, trivial, ?_, trivial, trivial, trivial⟩
  rintro ⟨h, -⟩
  have h : resetWindowMs < 9000 := h
  exact absurd h (by decide)

/-- Once the 32-bit tick has gone round, Reset asks for its touch again. -/
theorem late_reset_asks :
    ¬Timely ((device mixFido blankBoard).run (lateReset (2 ^ 32))).board.notes := by
  rintro ⟨-, h, -⟩
  have h : 2 ^ 32 ≤ resetWindowMs := h
  exact absurd h (by decide)

end Nixtropic.Fido
