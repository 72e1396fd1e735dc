import Nixtropic.Crash.Program

/-!
A call that returned, as its caller sees it: what it returned, what it left, and the
fates that are left for the calls behind it. A caller that ran to its end is taken
apart at its calls.
-/

namespace Crash

section Returns

variable {Op : Type} {Ret : Op → Type} {σ φ ρ α β : Type}

/-- The power went in the call, and so in what it is a part of. -/
theorem run_bind_cut {M : Machine Op Ret σ φ} {p : Prog Op Ret α} {fs : List φ} {s s' : σ}
    (h : run M p fs s = .cut s') (k : α → Prog Op Ret β) : run M (p >>= k) fs s = .cut s' := by
  induction p generalizing fs s with
  | pure a => cases h
  | call o f ih =>
      rw [run_call] at h
      rw [Prog.call_bind, run_call]
      rcases hact : M.act (fs.headD M.quiet) o s with ⟨_ | r, s₁⟩
      · rw [hact] at h
        cases h
        rfl
      · rw [hact] at h
        exact ih r h

/-- A memory, the fates to come, and the state of the machine. -/
abbrev Point (φ ρ σ : Type) := ρ × List φ × σ

/-- From `x` on the call returns `a`, and what follows it goes on from `x'`. -/
def Returns (M : Machine Op Ret σ φ) (m : StProg Op Ret ρ α) (x : Point φ ρ σ) (a : α)
    (x' : Point φ ρ σ) : Prop :=
  ∀ {β : Type} (k : α → StProg Op Ret ρ β),
    run M ((m >>= k).run x.1) x.2.1 x.2.2 = run M ((k a).run x'.1) x'.2.1 x'.2.2

variable {M : Machine Op Ret σ φ} {m : StProg Op Ret ρ α} {x x' : Point φ ρ σ} {a : α}

theorem Returns.run_eq (h : Returns M m x a x') :
    run M (m.run x.1) x.2.1 x.2.2 = .done (a, x'.1) x'.2.2 := by
  have hpure := h fun a => (pure a : StProg Op Ret ρ α)
  rw [bind_pure] at hpure
  exact hpure

/-- A caller that ran to its end has come back from its first call. -/
theorem returns_of_bind {k : α → StProg Op Ret ρ β} {c : β} {u' : ρ} {s' : σ}
    (h : run M ((m >>= k).run x.1) x.2.1 x.2.2 = .done (c, u') s') :
    ∃ a x', Returns M m x a x' ∧ run M ((k a).run x'.1) x'.2.1 x'.2.2 = .done (c, u') s' := by
  cases hm : run M (m.run x.1) x.2.1 x.2.2 with
  | cut s₁ =>
      rw [StateT.run_bind, run_bind_cut hm] at h
      cases h
  | done r s₁ =>
      obtain ⟨a, u₁⟩ := r
      obtain ⟨n, hn⟩ := run_stBind_done hm
      refine ⟨a, (u₁, x.2.1.drop n, s₁), hn, ?_⟩
      rw [← hn k]
      exact h

end Returns

end Crash
