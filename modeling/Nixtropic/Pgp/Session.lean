import Nixtropic.Pgp.Applet
import Nixtropic.Runs.System
import Nixtropic.Device.BoardLogic
import Nixtropic.Tropic.Footprint
import Nixtropic.Tropic.RecPairLogic

/-!
The card over a whole life: power-ups, resets of the card and commands, any of
which may fail or be cut.

A command is put between two notes, the second of which has the answer. What the
commands in between do to the chip is up to the fates of their calls; what a call
that is torn leaves in a slot is not a record of the card.
-/

namespace Nixtropic.Pgp

open Crash Runs

section Card

variable (F : PgpPrims)

/-- One command, in the caller's buffer `out`, and its answer. -/
def cardApdu (inp out : Bytes) : PgpM (Option Bytes) := do
  leave (.apdu inp)
  let a ← apduDispatchProcess F inp out
  leave (.answer inp a)
  pure a

/-- The card between two actions; no variables while it is off. -/
structure Card where
  ram : Option PgpRam
  board : Board Note

/-- The power comes, the reader resets the card, or a command arrives; the fates
are those of the calls that follow. -/
inductive Action where
  | powerUp
  | cardReset (fs : List BoardFate)
  | apdu (inp out : Bytes) (fs : List BoardFate)

/-- Where a run leaves the card. -/
def Card.settle {α : Type} : Outcome (α × PgpRam) (Board Note) → Card
  | .done (_, u) b => ⟨some u, b⟩
  | .cut b => ⟨none, b⟩

/-- At power-up the variables are new and the clock starts again. -/
def Card.step (d : Card) : Action → Card
  | .powerUp => ⟨some .boot, { d.board with now := 0 }.jot .powerUp⟩
  | .cardReset fs =>
      match d.ram with
      | some u => .settle (run (pgpBoard F) (openpgpAppletCardReset.run u) fs d.board)
      | none => d
  | .apdu inp out fs =>
      match d.ram with
      | some u => .settle (run (pgpBoard F) ((cardApdu F inp out).run u) fs d.board)
      | none => d

/-- The card, found switched off with a board; no notes are left yet. -/
def card (b : Board Note) : System Card Action :=
  ⟨⟨none, { b with notes := [] }⟩, Card.step F⟩

end Card

/-! ### Fates -/

/-- The record pairs of the card. -/
def cardPairs : List RecPair := [o3, o4, o5, o6]

/-- A torn change leaves no record of the card. -/
def Honest (F : PgpPrims) (f : BoardFate) : Prop :=
  f.leaves fun c => ∀ p ∈ cardPairs, Invalid F.chip p c

theorem honest_pair {F : PgpPrims} {A : BoardFate → Prop} (hA : ∀ f, A f → Honest F f)
    {p : RecPair} (hp : p ∈ cardPairs) : ∀ f, chipFates A f → f.leaves (Invalid F.chip p) := by
  rintro f ⟨f', hf', rfl⟩
  have h := hA f' hf'
  rw [Honest, BoardFate.leaves] at h
  cases hc : f'.chip <;> rw [hc] at h <;> first | trivial | exact h p hp

theorem honest_o3 {F : PgpPrims} {A : BoardFate → Prop} (hA : ∀ f, A f → Honest F f) :
    ∀ f, chipFates A f → f.leaves (Invalid F.chip o3) :=
  honest_pair hA List.mem_cons_self

theorem honest_quiet (F : PgpPrims) : Honest F .quiet := trivial

theorem honest_of_calm {F : PgpPrims} {f : BoardFate} (h : CalmBoard f) : Honest F f := by
  rw [Honest, BoardFate.leaves, show f.chip = .none from h]
  trivial

/-- The calls of an action meet fates in `A`. -/
def Action.Within (A : BoardFate → Prop) : Action → Prop
  | .powerUp => True
  | .cardReset fs => ∀ f ∈ fs, A f
  | .apdu _ _ fs => ∀ f ∈ fs, A f

/-! ### What every action keeps -/

/-- `J` of a card that is on, `C` of one that is off. -/
def Card.Meets (J : PgpRam → Board Note → Prop) (C : Board Note → Prop) (d : Card) : Prop :=
  match d.ram with
  | some u => J u d.board
  | none => C d.board

section Runs

variable {F : PgpPrims} {A : BoardFate → Prop} {J : PgpRam → Board Note → Prop}
  {C : Board Note → Prop}

theorem Card.Meets.off {d : Card} (h : d.Meets J C) (hoff : ∀ u b, J u b → C b) : C d.board := by
  rcases d with ⟨_ | u, b⟩
  · exact h
  · exact hoff u b h

theorem meets_settle {α : Type} {o : Outcome (α × PgpRam) (Board Note)}
    (h : o.Satisfies (fun x b => J x.2 b) C) : (Card.settle o).Meets J C := by
  cases o with
  | done x b => exact h
  | cut b => exact h

/-- One action, given what a power-up, a reset of the card and a command do. -/
theorem meets_step (hquiet : A .quiet) (hoff : ∀ u b, J u b → C b)
    (hup : ∀ b, C b → J .boot ({ b with now := 0 }.jot .powerUp))
    (hreset : Keeps (pgpBoard F) A J C openpgpAppletCardReset)
    (happ : ∀ inp out, Keeps (pgpBoard F) A J C (cardApdu F inp out)) {d : Card}
    (h : d.Meets J C) {a : Action} (ha : a.Within A) : (d.step F a).Meets J C := by
  cases a with
  | powerUp => exact hup _ (h.off hoff)
  | cardReset fs =>
      rcases d with ⟨_ | u, b⟩
      · exact h
      · exact meets_settle (run_of_swp hquiet (hreset u b h) ha)
  | apdu inp out fs =>
      rcases d with ⟨_ | u, b⟩
      · exact h
      · exact meets_settle (run_of_swp hquiet (happ inp out u b h) ha)

/-- What every action keeps, every run of the card keeps. -/
theorem meets_run (hquiet : A .quiet) {b : Board Note} (hinit : C { b with notes := [] })
    (hoff : ∀ u b, J u b → C b) (hup : ∀ b, C b → J .boot ({ b with now := 0 }.jot .powerUp))
    (hreset : Keeps (pgpBoard F) A J C openpgpAppletCardReset)
    (happ : ∀ inp out, Keeps (pgpBoard F) A J C (cardApdu F inp out)) {acts : List Action}
    (hacts : ∀ a ∈ acts, a.Within A) : ((card F b).run acts).Meets J C := by
  apply System.run_keeps_of (C := fun _ a => a.Within A)
  · exact hinit
  · exact fun d a h ha => meets_step hquiet hoff hup hreset happ h ha
  · intro pre a hp
    apply hacts
    exact hp.subset (by simp)

end Runs

end Nixtropic.Pgp
