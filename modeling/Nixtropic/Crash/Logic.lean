import Nixtropic.Crash.Program

/-!
A program logic for runs that may be cut.

`wp M A p Q C s` says: started in `s`, and whatever fates in `A` the calls of
`p` meet, the run either returns a value and a state satisfying `Q`, or is cut
in a state satisfying `C`. It is a fold over the program, so that it computes
along the program text, and `run_of_wp` turns it into a statement about every
fault schedule drawn from `A`.

Taking for `A` only the quiet fate gives the statement about undisturbed runs;
one proof of a function can therefore serve both, with a postcondition that
says of a failure that `A` must have allowed one.
-/

namespace Crash

variable {Op : Type} {Ret : Op → Type} {σ φ ρ α β : Type}

/-- What holds after every run of the program under fates in `A`. -/
def wp (M : Machine Op Ret σ φ) (A : φ → Prop) :
    Prog Op Ret α → (α → σ → Prop) → (σ → Prop) → σ → Prop
  | .pure a, Q, _, s => Q a s
  | .call o k, Q, C, s => ∀ f, A f →
      match M.act f o s with
      | (some r, s') => wp M A (k r) Q C s'
      | (none, s') => C s'

section Prog

variable {M : Machine Op Ret σ φ} {A : φ → Prop}

@[simp] theorem wp_pure {a : α} {Q : α → σ → Prop} {C : σ → Prop} {s : σ} :
    wp M A (.pure a) Q C s ↔ Q a s := Iff.rfl

theorem wp_mono {p : Prog Op Ret α} {Q Q' : α → σ → Prop} {C C' : σ → Prop} {s : σ}
    (h : wp M A p Q C s) (hQ : ∀ a s, Q a s → Q' a s) (hC : ∀ s, C s → C' s) :
    wp M A p Q' C' s := by
  induction p generalizing s with
  | pure a => exact hQ a s h
  | call o k ih =>
      intro f hf
      have hcall := h f hf
      rcases hact : M.act f o s with ⟨_ | r, s'⟩
      · simp only [hact] at hcall
        exact hC s' hcall
      · simp only [hact] at hcall
        exact ih r hcall

theorem wp_bind {p : Prog Op Ret α} {f : α → Prog Op Ret β} {Q : β → σ → Prop}
    {C : σ → Prop} {s : σ} :
    wp M A (p >>= f) Q C s ↔ wp M A p (fun a => wp M A (f a) Q C) C s := by
  induction p generalizing s with
  | pure a => exact Iff.rfl
  | call o k ih =>
      refine forall_congr' fun g => forall_congr' fun _ => ?_
      rcases M.act g o s with ⟨_ | r, s'⟩
      · exact Iff.rfl
      · exact ih r

/-- What an outcome must satisfy. -/
def Outcome.Satisfies (Q : α → σ → Prop) (C : σ → Prop) : Outcome α σ → Prop
  | .done a s => Q a s
  | .cut s => C s

@[simp] theorem Outcome.satisfies_done {Q : α → σ → Prop} {C : σ → Prop} {a : α} {s : σ} :
    (Outcome.done a s).Satisfies Q C ↔ Q a s := Iff.rfl

@[simp] theorem Outcome.satisfies_cut {Q : α → σ → Prop} {C : σ → Prop} {s : σ} :
    (Outcome.cut s : Outcome α σ).Satisfies Q C ↔ C s := Iff.rfl

/-- The logic is sound for every schedule of allowed fates. -/
theorem run_of_wp (hquiet : A M.quiet) {p : Prog Op Ret α} {Q : α → σ → Prop}
    {C : σ → Prop} {s : σ} (h : wp M A p Q C s) {fs : List φ} (hfs : ∀ f ∈ fs, A f) :
    (run M p fs s).Satisfies Q C := by
  induction p generalizing s fs with
  | pure a => exact h
  | call o k ih =>
      have hfate : A (fs.headD M.quiet) := by
        cases fs with
        | nil => exact hquiet
        | cons f fs => exact hfs f List.mem_cons_self
      have hcall := h _ hfate
      rw [run_call]
      rcases hact : M.act (fs.headD M.quiet) o s with ⟨_ | r, s'⟩
      · rw [hact] at hcall
        exact hcall
      · rw [hact] at hcall
        exact ih r hcall fun f hf => hfs f (List.mem_of_mem_tail hf)

end Prog

/-! ### Programs with a volatile memory -/

/-- The same judgment for a program with a memory, which a cut loses. -/
def swp (M : Machine Op Ret σ φ) (A : φ → Prop) (m : StProg Op Ret ρ α)
    (Q : α → ρ → σ → Prop) (C : σ → Prop) (u : ρ) (s : σ) : Prop :=
  wp M A (m.run u) (fun x => Q x.1 x.2) C s

section StProg

variable {M : Machine Op Ret σ φ} {A : φ → Prop}

theorem swp_mono {m : StProg Op Ret ρ α} {Q Q' : α → ρ → σ → Prop} {C C' : σ → Prop}
    {u : ρ} {s : σ} (h : swp M A m Q C u s) (hQ : ∀ a u s, Q a u s → Q' a u s)
    (hC : ∀ s, C s → C' s) : swp M A m Q' C' u s :=
  wp_mono h (fun x s hx => hQ x.1 x.2 s hx) hC

@[simp] theorem swp_pure {a : α} {Q : α → ρ → σ → Prop} {C : σ → Prop} {u : ρ} {s : σ} :
    swp M A (pure a) Q C u s ↔ Q a u s := Iff.rfl

theorem swp_bind {m : StProg Op Ret ρ α} {f : α → StProg Op Ret ρ β}
    {Q : β → ρ → σ → Prop} {C : σ → Prop} {u : ρ} {s : σ} :
    swp M A (m >>= f) Q C u s ↔ swp M A m (fun a => swp M A (f a) Q C) C u s := by
  unfold swp
  rw [StateT.run_bind, wp_bind]

theorem swp_map {m : StProg Op Ret ρ α} {f : α → β} {Q : β → ρ → σ → Prop} {C : σ → Prop}
    {u : ρ} {s : σ} : swp M A (f <$> m) Q C u s ↔ swp M A m (fun a => Q (f a)) C u s := by
  rw [← bind_pure_comp, swp_bind]
  exact Iff.rfl

@[simp] theorem swp_get {Q : ρ → ρ → σ → Prop} {C : σ → Prop} {u : ρ} {s : σ} :
    swp M A (get : StProg Op Ret ρ ρ) Q C u s ↔ Q u u s := Iff.rfl

@[simp] theorem swp_set {v : ρ} {Q : PUnit → ρ → σ → Prop} {C : σ → Prop} {u : ρ} {s : σ} :
    swp M A (set v : StProg Op Ret ρ PUnit) Q C u s ↔ Q ⟨⟩ v s := Iff.rfl

theorem swp_perform {o : Op} {Q : Ret o → ρ → σ → Prop} {C : σ → Prop} {u : ρ} {s : σ} :
    swp M A (StProg.perform o : StProg Op Ret ρ (Ret o)) Q C u s ↔
      ∀ f, A f →
        match M.act f o s with
        | (some r, s') => Q r u s'
        | (none, s') => C s' := by
  refine forall_congr' fun f => forall_congr' fun _ => ?_
  rcases M.act f o s with ⟨_ | r, s'⟩ <;> exact Iff.rfl

/-- The rule for a loop with an early exit: `I i b` holds before the `i`-th
turn with the threaded value `b`, and `E` holds when the body gave up. -/
theorem swp_loopFrom {m : ℕ → β → StProg Op Ret ρ (Option β)} {n : ℕ}
    (I : ℕ → β → ρ → σ → Prop) (E : ρ → σ → Prop) {C : σ → Prop}
    (hm : ∀ i b u s, i < n → I i b u s →
      swp M A (m i b) (fun r u s => match r with
        | some b' => I (i + 1) b' u s
        | none => E u s) C u s)
    (k : ℕ) : ∀ {i b u s}, i + k = n → I i b u s →
      swp M A (StProg.loopFrom m i k b) (fun r u s => match r with
        | some b' => I n b' u s
        | none => E u s) C u s := by
  induction k with
  | zero =>
      intro i b u s hi hI
      obtain rfl : i = n := by omega
      exact hI
  | succ k ih =>
      intro i b u s hi hI
      rw [StProg.loopFrom, swp_bind]
      refine swp_mono (hm i b u s (by omega) hI) ?_ fun _ h => h
      rintro (_ | b') u' s' h
      · exact h
      · exact ih (by omega) h

theorem swp_loop {m : ℕ → β → StProg Op Ret ρ (Option β)} {n : ℕ}
    (I : ℕ → β → ρ → σ → Prop) (E : ρ → σ → Prop) {C : σ → Prop}
    (hm : ∀ i b u s, i < n → I i b u s →
      swp M A (m i b) (fun r u s => match r with
        | some b' => I (i + 1) b' u s
        | none => E u s) C u s)
    {b : β} {u : ρ} {s : σ} (hI : I 0 b u s) :
    swp M A (StProg.loop n m b) (fun r u s => match r with
      | some b' => I n b' u s
      | none => E u s) C u s :=
  swp_loopFrom I E hm n (by omega) hI

/-- The logic is sound for runs of programs with a memory. -/
theorem run_of_swp (hquiet : A M.quiet) {m : StProg Op Ret ρ α} {Q : α → ρ → σ → Prop}
    {C : σ → Prop} {u : ρ} {s : σ} (h : swp M A m Q C u s) {fs : List φ}
    (hfs : ∀ f ∈ fs, A f) :
    (run M (m.run u) fs s).Satisfies (fun x => Q x.1 x.2) C :=
  run_of_wp hquiet h hfs

end StProg

/-! ### Whole programs -/

section Whole

variable {M : Machine Op Ret σ φ} {A : φ → Prop}

/-- What holds of every value and state holds after every run. -/
theorem wp_any {p : Prog Op Ret α} {Q : α → σ → Prop}
    {C : σ → Prop} {s : σ} (hQ : ∀ a x, Q a x) (hC : ∀ x, C x) : wp M A p Q C s := by
  induction p generalizing s with
  | pure a => exact hQ a s
  | call o k ih =>
      intro f _
      rcases M.act f o s with ⟨_ | r, x⟩
      · exact hC x
      · exact ih r

theorem swp_any {m : StProg Op Ret ρ α}
    {Q : α → ρ → σ → Prop} {C : σ → Prop} {u : ρ} {s : σ} (hQ : ∀ a v x, Q a v x)
    (hC : ∀ x, C x) : swp M A m Q C u s := wp_any (fun x s => hQ x.1 x.2 s) hC

/-- Whatever the first program does. -/
theorem swp_bind_any {m : StProg Op Ret ρ α}
    {f : α → StProg Op Ret ρ β} {Q : β → ρ → σ → Prop} {C : σ → Prop} {u : ρ} {s : σ}
    (hf : ∀ a v x, swp M A (f a) Q C v x) (hC : ∀ x, C x) : swp M A (m >>= f) Q C u s := by
  rw [swp_bind]
  exact swp_any hf hC

theorem wp_and {p : Prog Op Ret α}
    {Q Q' : α → σ → Prop} {C C' : σ → Prop} {s : σ} (h : wp M A p Q C s)
    (h' : wp M A p Q' C' s) :
    wp M A p (fun a x => Q a x ∧ Q' a x) (fun x => C x ∧ C' x) s := by
  induction p generalizing s with
  | pure a => exact ⟨h, h'⟩
  | call o k ih =>
      intro f hf
      have hcall := h f hf
      have hcall' := h' f hf
      rcases hact : M.act f o s with ⟨_ | r, x⟩
      · rw [hact] at hcall hcall'
        exact ⟨hcall, hcall'⟩
      · rw [hact] at hcall hcall'
        exact ih r hcall hcall'

/-- Two judgments of one program. -/
theorem swp_and {m : StProg Op Ret ρ α}
    {Q Q' : α → ρ → σ → Prop} {C C' : σ → Prop} {u : ρ} {s : σ} (h : swp M A m Q C u s)
    (h' : swp M A m Q' C' u s) :
    swp M A m (fun a v x => Q a v x ∧ Q' a v x) (fun x => C x ∧ C' x) u s := wp_and h h'

/-- A relation that every call keeps is kept by every program. -/
theorem wp_rel {R : σ → σ → Prop} (hrefl : ∀ s, R s s)
    (htrans : ∀ {s x y}, R s x → R x y → R s y) (hact : ∀ f o s, R s (M.act f o s).2)
    (p : Prog Op Ret α) (s : σ) : wp M A p (fun _ x => R s x) (fun x => R s x) s := by
  induction p generalizing s with
  | pure a => exact hrefl s
  | call o k ih =>
      intro f _
      have hstep := hact f o s
      rcases hr : M.act f o s with ⟨_ | r, x⟩
      · rw [hr] at hstep
        exact hstep
      · rw [hr] at hstep
        exact wp_mono (ih r x) (fun _ _ h => htrans hstep h) fun _ h => htrans hstep h

theorem swp_rel {R : σ → σ → Prop} (hrefl : ∀ s, R s s)
    (htrans : ∀ {s x y}, R s x → R x y → R s y) (hact : ∀ f o s, R s (M.act f o s).2)
    (m : StProg Op Ret ρ α) (u : ρ) (s : σ) :
    swp M A m (fun _ _ x => R s x) (fun x => R s x) u s :=
  wp_rel hrefl htrans hact (m.run u) s

/-- Where no call is cut, no program is. -/
theorem wp_uncut (hact : ∀ f, A f → ∀ o s, (M.act f o s).1 ≠ none) (p : Prog Op Ret α) (s : σ) :
    wp M A p (fun _ _ => True) (fun _ => False) s := by
  induction p generalizing s with
  | pure a => trivial
  | call o k ih =>
      intro f hf
      have hne := hact f hf o s
      rcases hr : M.act f o s with ⟨_ | r, x⟩
      · rw [hr] at hne
        exact hne rfl
      · exact ih r x

theorem swp_uncut (hact : ∀ f, A f → ∀ o s, (M.act f o s).1 ≠ none) (m : StProg Op Ret ρ α)
    (u : ρ) (s : σ) : swp M A m (fun _ _ _ => True) (fun _ => False) u s :=
  wp_uncut hact (m.run u) s

end Whole

end Crash
