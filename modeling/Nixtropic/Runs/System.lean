import Mathlib.Algebra.Group.Nat.Defs
import Mathlib.Data.List.Induction

/-!
Systems that take one action after another. A system is its first state and
what an action does; a run is the list of its actions. Properties of all runs
are proved from one action by the rules below.
-/

namespace Nixtropic.Runs

/-- A first state and what each action does. -/
structure System (σ α : Type) where
  init : σ
  step : σ → α → σ

namespace System

variable {σ α : Type} (M : System σ α)

/-- The state after the actions, from a given state. -/
def runFrom (s : σ) (acts : List α) : σ := acts.foldl M.step s

/-- The state after the actions. -/
def run (acts : List α) : σ := M.runFrom M.init acts

@[simp] theorem runFrom_nil (s : σ) : M.runFrom s [] = s := rfl

@[simp] theorem runFrom_cons (s : σ) (a : α) (acts : List α) :
    M.runFrom s (a :: acts) = M.runFrom (M.step s a) acts := rfl

theorem runFrom_append (s : σ) (acts acts' : List α) :
    M.runFrom s (acts ++ acts') = M.runFrom (M.runFrom s acts) acts' :=
  List.foldl_append

@[simp] theorem run_nil : M.run [] = M.init := rfl

theorem run_append (acts acts' : List α) :
    M.run (acts ++ acts') = M.runFrom (M.run acts) acts' :=
  M.runFrom_append M.init acts acts'

theorem run_concat (acts : List α) (a : α) : M.run (acts ++ [a]) = M.step (M.run acts) a :=
  M.run_append acts [a]

variable {M} {I : σ → Prop}

/-- What every action keeps, every run keeps. -/
theorem runFrom_keeps (hstep : ∀ s a, I s → I (M.step s a)) {s : σ} (hs : I s) (acts : List α) :
    I (M.runFrom s acts) := by
  induction acts generalizing s with
  | nil => exact hs
  | cons a acts ih => exact ih (hstep s a hs)

/-- What holds at first and is kept by every action holds after every run. -/
theorem run_keeps (hinit : I M.init) (hstep : ∀ s a, I s → I (M.step s a)) (acts : List α) :
    I (M.run acts) :=
  runFrom_keeps hstep hinit acts

/-- What is kept by the actions that meet `C`, a run keeps all of whose actions
meet it. -/
theorem runFrom_keeps_of {C : σ → α → Prop} (hstep : ∀ s a, I s → C s a → I (M.step s a)) {s : σ}
    (hs : I s) {acts : List α} (hC : ∀ pre a, pre ++ [a] <+: acts → C (M.runFrom s pre) a) :
    I (M.runFrom s acts) := by
  induction acts using List.reverseRecOn with
  | nil => exact hs
  | append_singleton pre a ih =>
      rw [runFrom_append]
      apply hstep
      · exact ih fun p b hp => hC p b (hp.trans (List.prefix_append pre [a]))
      · exact hC pre a List.prefix_rfl

theorem run_keeps_of {C : σ → α → Prop} (hinit : I M.init)
    (hstep : ∀ s a, I s → C s a → I (M.step s a)) {acts : List α}
    (hC : ∀ pre a, pre ++ [a] <+: acts → C (M.run pre) a) : I (M.run acts) :=
  runFrom_keeps_of hstep hinit hC

/-- The first action and the others. -/
theorem forall_runFrom_cons {C : σ → α → Prop} {s : σ} {a : α} {acts : List α} (ha : C s a)
    (h : ∀ pre b, pre ++ [b] <+: acts → C (M.runFrom (M.step s a) pre) b) :
    ∀ pre b, pre ++ [b] <+: a :: acts → C (M.runFrom s pre) b := by
  intro pre b hp
  cases pre with
  | nil =>
      obtain ⟨rfl, -⟩ := List.cons_prefix_cons.mp hp
      exact ha
  | cons x pre =>
      obtain ⟨rfl, hrest⟩ := List.cons_prefix_cons.mp hp
      exact h pre b hrest

theorem forall_runFrom_nil {C : σ → α → Prop} {s : σ} :
    ∀ pre b, pre ++ [b] <+: [] → C (M.runFrom s pre) b := by
  intro pre b hp
  simp at hp

end System

end Nixtropic.Runs
