import Mathlib.Algebra.Group.Nat.Defs
import Mathlib.Logic.Function.Basic

/-!
Programs that call a device which may fail, and which may lose power at any
call.

A program is a tree: it returns, or it calls an operation and continues with
the reply. Nothing is said here about what an operation does. That is the
business of a `Machine`, which is told for every call what happens to it (its
*fate*) and answers with the reply and the next state, or with no reply at all
when the power went away during the call.

Running a program therefore takes a list of fates, one for each call, and is a
plain recursive function: a fault schedule can be evaluated as well as
quantified over. A list that is too short is continued with the fate of a call
to which nothing happens.
-/

namespace Crash

/-- A program over the operations `Op`; the reply to `o` has type `Ret o`. -/
inductive Prog (Op : Type) (Ret : Op → Type) (α : Type) where
  | pure (a : α) : Prog Op Ret α
  | call (o : Op) (k : Ret o → Prog Op Ret α) : Prog Op Ret α

namespace Prog

variable {Op : Type} {Ret : Op → Type} {α β : Type}

protected def bind : Prog Op Ret α → (α → Prog Op Ret β) → Prog Op Ret β
  | .pure a, f => f a
  | .call o k, f => .call o fun r => (k r).bind f

instance : Monad (Prog Op Ret) where
  pure := .pure
  bind := Prog.bind

/-- The program that makes one call and returns its reply. -/
def perform (o : Op) : Prog Op Ret (Ret o) := .call o .pure

theorem pure_def (a : α) : (Pure.pure a : Prog Op Ret α) = .pure a := rfl

@[simp] theorem pure_bind' (a : α) (f : α → Prog Op Ret β) :
    (Prog.pure a >>= f) = f a := rfl

@[simp] theorem call_bind (o : Op) (k : Ret o → Prog Op Ret α) (f : α → Prog Op Ret β) :
    (Prog.call o k >>= f) = .call o fun r => k r >>= f := rfl

theorem bind_pure' (p : Prog Op Ret α) : p >>= Prog.pure = p := by
  induction p with
  | pure a => rfl
  | call o k ih => exact congrArg (Prog.call o) (funext ih)

theorem bind_bind {γ : Type} (p : Prog Op Ret α) (f : α → Prog Op Ret β)
    (g : β → Prog Op Ret γ) : p >>= f >>= g = p >>= fun a => f a >>= g := by
  induction p with
  | pure a => rfl
  | call o k ih => exact congrArg (Prog.call o) (funext ih)

instance : LawfulMonad (Prog Op Ret) :=
  LawfulMonad.mk' _ bind_pure' (fun _ _ => rfl) bind_bind

end Prog

/-- A machine carries out one call under a given fate. No reply means that the
power was lost during the call. -/
structure Machine (Op : Type) (Ret : Op → Type) (σ φ : Type) where
  act : φ → (o : Op) → σ → Option (Ret o) × σ
  /-- The fate of a call to which nothing happens. -/
  quiet : φ

/-- How a run ended: the program returned, or the power was lost. -/
inductive Outcome (α σ : Type) where
  | done (a : α) (s : σ)
  | cut (s : σ)

/-- What a run returned, changed. -/
def Outcome.map {α β σ : Type} (f : α → β) : Outcome α σ → Outcome β σ
  | .done a s => .done (f a) s
  | .cut s => .cut s

/-- The machine state in which a run ended. -/
def Outcome.state {α σ : Type} : Outcome α σ → σ
  | .done _ s => s
  | .cut s => s

section Run

variable {Op : Type} {Ret : Op → Type} {σ φ α : Type}

/-- Run a program under a list of fates. -/
def run (M : Machine Op Ret σ φ) : Prog Op Ret α → List φ → σ → Outcome α σ
  | .pure a, _, s => .done a s
  | .call o k, fs, s =>
      match M.act (fs.headD M.quiet) o s with
      | (some r, s') => run M (k r) fs.tail s'
      | (none, s') => .cut s'

@[simp] theorem run_pure (M : Machine Op Ret σ φ) (a : α) (fs : List φ) (s : σ) :
    run M (Prog.pure a) fs s = .done a s := rfl

theorem run_call (M : Machine Op Ret σ φ) (o : Op) (k : Ret o → Prog Op Ret α)
    (fs : List φ) (s : σ) :
    run M (.call o k) fs s =
      match M.act (fs.headD M.quiet) o s with
      | (some r, s') => run M (k r) fs.tail s'
      | (none, s') => .cut s' := by
  rw [run]

/-- A program that returned leaves its continuation the rest of the fates. -/
theorem run_bind_done {M : Machine Op Ret σ φ} {p : Prog Op Ret α} {fs : List φ} {s s' : σ}
    {a : α} (h : run M p fs s = .done a s') :
    ∃ n, ∀ {β : Type} (k : α → Prog Op Ret β),
      run M (p >>= k) fs s = run M (k a) (fs.drop n) s' := by
  induction p generalizing fs s with
  | pure b =>
      obtain ⟨rfl, rfl⟩ : b = a ∧ s = s' := by simpa using h
      exact ⟨0, fun k => rfl⟩
  | call o f ih =>
      rw [run_call] at h
      rcases hact : M.act (fs.headD M.quiet) o s with ⟨_ | r, s₁⟩
      · rw [hact] at h
        cases h
      · rw [hact] at h
        obtain ⟨n, hn⟩ := ih r h
        refine ⟨n + 1, fun k => ?_⟩
        rw [Prog.call_bind, run_call, hact]
        change run M (f r >>= k) fs.tail s₁ = _
        rw [hn k]
        cases fs <;> simp

/-- What is computed at the end changes nothing before it. -/
theorem run_bind_pure {β : Type} (M : Machine Op Ret σ φ) (p : Prog Op Ret α) (f : α → β)
    (fs : List φ) (s : σ) :
    run M (p >>= fun a => Prog.pure (f a)) fs s = (run M p fs s).map f := by
  induction p generalizing fs s with
  | pure a => rfl
  | call o k ih =>
      rw [Prog.call_bind, run_call, run_call]
      rcases M.act (fs.headD M.quiet) o s with ⟨_ | r, s'⟩
      · rfl
      · exact ih r _ _

end Run

/-- Programs with a volatile memory `ρ`, which a loss of power wipes. -/
abbrev StProg (Op : Type) (Ret : Op → Type) (ρ α : Type) := StateT ρ (Prog Op Ret) α

namespace StProg

variable {Op : Type} {Ret : Op → Type} {ρ α β : Type}

/-- One call, the memory being left alone. -/
def perform (o : Op) : StProg Op Ret ρ (Ret o) := StateT.lift (Prog.perform o)

/-- `for i in [i, i + n)`: the body threads a value and stops the loop by
returning `none`. -/
def loopFrom (body : ℕ → β → StProg Op Ret ρ (Option β)) (i : ℕ) :
    ℕ → β → StProg Op Ret ρ (Option β)
  | 0, b => pure (some b)
  | n + 1, b => do
      match ← body i b with
      | none => pure none
      | some b' => loopFrom body (i + 1) n b'

/-- `for (i = 0; i < n; ++i)` with an early exit. -/
def loop (n : ℕ) (body : ℕ → β → StProg Op Ret ρ (Option β)) (b : β) :
    StProg Op Ret ρ (Option β) := loopFrom body 0 n b

end StProg

/-- The same for programs with a memory. -/
theorem run_stBind_done {Op : Type} {Ret : Op → Type} {σ φ ρ α : Type}
    {M : Machine Op Ret σ φ} {m : StProg Op Ret ρ α} {fs : List φ} {s s' : σ} {a : α} {u u' : ρ}
    (h : run M (m.run u) fs s = .done (a, u') s') :
    ∃ n, ∀ {β : Type} (k : α → StProg Op Ret ρ β),
      run M ((m >>= k).run u) fs s = run M ((k a).run u') (fs.drop n) s' := by
  obtain ⟨n, hn⟩ := run_bind_done h
  refine ⟨n, fun k => ?_⟩
  rw [StateT.run_bind]
  exact hn fun x => (k x.1).run x.2

end Crash
