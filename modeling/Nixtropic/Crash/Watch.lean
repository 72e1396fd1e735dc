import Nixtropic.Crash.Logic

/-!
Watched runs: which of the calls met what.

A statement of the logic speaks of the fates of all calls at once. To say that
something happened only because one call of a certain kind met a certain fate,
the machine is given a bit that remembers whether such a call was made. The
watched machine is a machine like any other, so that the rules of the logic
serve it too, and its runs are those of the machine it watches.
-/

namespace Crash

variable {Op : Type} {Ret : Op → Type} {σ φ ρ α : Type}

/-- Some call of the run is one that `B` speaks of. -/
def Struck (M : Machine Op Ret σ φ) (B : φ → Op → σ → Prop) :
    Prog Op Ret α → List φ → σ → Prop
  | .pure _, _, _ => False
  | .call o k, fs, s => B (fs.headD M.quiet) o s ∨
      match M.act (fs.headD M.quiet) o s with
      | (some r, s') => Struck M B (k r) fs.tail s'
      | (none, _) => False

/-- The machine that remembers whether `B` spoke of one of its calls. -/
def Machine.watch (M : Machine Op Ret σ φ) (B : φ → Op → σ → Prop) :
    Machine Op Ret (σ × Prop) φ where
  act f o x := ((M.act f o x.1).1, (M.act f o x.1).2, x.2 ∨ B f o x.1)
  quiet := M.quiet

section Watch

variable {M : Machine Op Ret σ φ} {B : φ → Op → σ → Prop} {A : φ → Prop}

theorem watch_act (f : φ) (o : Op) (s : σ) (g : Prop) :
    (M.watch B).act f o (s, g) = ((M.act f o s).1, (M.act f o s).2, g ∨ B f o s) := rfl

/-- What the watched machine remembers is what happened to the machine. -/
theorem run_of_wp_watch (hquiet : A M.quiet) {p : Prog Op Ret α} {Q : α → σ × Prop → Prop}
    {C : σ × Prop → Prop} {s : σ} {g : Prop} (h : wp (M.watch B) A p Q C (s, g)) {fs : List φ}
    (hfs : ∀ f ∈ fs, A f) :
    (run M p fs s).Satisfies (fun a s' => Q a (s', g ∨ Struck M B p fs s))
      (fun s' => C (s', g ∨ Struck M B p fs s)) := by
  induction p generalizing s g fs with
  | pure a =>
      simp only [Struck, or_false]
      exact h
  | call o k ih =>
      have hfate : A (fs.headD M.quiet) := by
        cases fs with
        | nil => exact hquiet
        | cons f fs => exact hfs f List.mem_cons_self
      have hcall := h _ hfate
      rw [watch_act] at hcall
      rw [run_call]
      simp only [Struck]
      rcases hact : M.act (fs.headD M.quiet) o s with ⟨_ | r, s'⟩
      · simp only [hact] at hcall ⊢
        simpa using hcall
      · simp only [hact] at hcall ⊢
        have hrest := ih r hcall fun f hf => hfs f (List.mem_of_mem_tail hf)
        simpa only [or_assoc] using hrest

theorem run_of_swp_watch (hquiet : A M.quiet) {m : StProg Op Ret ρ α}
    {Q : α → ρ → σ × Prop → Prop} {C : σ × Prop → Prop} {u : ρ} {s : σ}
    (h : swp (M.watch B) A m Q C u (s, False)) {fs : List φ} (hfs : ∀ f ∈ fs, A f) :
    (run M (m.run u) fs s).Satisfies (fun x s' => Q x.1 x.2 (s', Struck M B (m.run u) fs s))
      (fun s' => C (s', Struck M B (m.run u) fs s)) := by
  have hrun := run_of_wp_watch hquiet h hfs
  simpa only [false_or] using hrun

/-- One watched call. -/
theorem swp_watch_perform {o : Op} {Q : Ret o → ρ → σ × Prop → Prop} {C : σ × Prop → Prop}
    {u : ρ} {s : σ} {g : Prop}
    (h : ∀ f, A f →
      match M.act f o s with
      | (some r, s') => Q r u (s', g ∨ B f o s)
      | (none, s') => C (s', g ∨ B f o s)) :
    swp (M.watch B) A (StProg.perform o : StProg Op Ret ρ (Ret o)) Q C u (s, g) := by
  rw [swp_perform]
  intro f hf
  have hcall := h f hf
  rw [watch_act]
  rcases hact : M.act f o s with ⟨_ | r, s'⟩
  · rw [hact] at hcall
    exact hcall
  · rw [hact] at hcall
    exact hcall

end Watch

end Crash
