import Nixtropic.Crash.Logic

/-!
Programs of a part inside programs of the whole.

A part has its own operations, machine state and memory; the whole has more of
each. `Prog.inl` reads a program of the part as one of the whole, `zoom` does
the same for programs with a memory, the memory of the part being a component
of the memory of the whole. A machine of the whole that carries out the
operations of the part as the machine of the part does is an `Extends`, and
what is proved of a part then holds inside the whole.

`Keeps` is the judgment for invariants: it composes along the program text,
whatever values the program computes.
-/

namespace Crash

/-- The replies to the operations of two kinds. -/
abbrev Both {Op Op' : Type} (Ret : Op → Type) (Ret' : Op' → Type) : Op ⊕ Op' → Type
  | .inl o => Ret o
  | .inr o => Ret' o

section Lift

variable {Op Op' : Type} {Ret : Op → Type} {Ret' : Op' → Type} {α β ρ ρ' σ σ' φ φ' : Type}

/-- A program of the part, as a program of the whole. -/
def Prog.inl : Prog Op Ret α → Prog (Op ⊕ Op') (Both Ret Ret') α
  | .pure a => .pure a
  | .call o k => .call (.inl o) fun r => (k r).inl

@[simp] theorem Prog.inl_pure (a : α) :
    (Prog.pure a : Prog Op Ret α).inl = (.pure a : Prog (Op ⊕ Op') (Both Ret Ret') α) := rfl

/-- Where the memory of the part sits in the memory of the whole. -/
structure Cell (ρ' ρ : Type) where
  get : ρ' → ρ
  put : ρ' → ρ → ρ'

/-- A program of the part that works on its cell of the memory. -/
def zoom (c : Cell ρ' ρ) (m : StProg Op Ret ρ α) : StProg (Op ⊕ Op') (Both Ret Ret') ρ' α :=
  fun u => (m.run (c.get u)).inl >>= fun x => Prog.pure (x.1, c.put u x.2)

/-- The machine of the whole does with the operations of the part what the
machine of the part does, and leaves the rest alone. -/
structure Extends (M : Machine Op Ret σ φ)
    (M' : Machine (Op ⊕ Op') (Both Ret Ret') σ' φ') where
  fate : φ' → φ
  part : σ' → σ
  put : σ' → σ → σ'
  act_eq : ∀ f o s, M'.act f (.inl o) s =
    ((M.act (fate f) o (part s)).1, put s (M.act (fate f) o (part s)).2)
  part_put : ∀ s x, part (put s x) = x
  put_put : ∀ s x y, put (put s x) y = put s y
  put_part : ∀ s, put s (part s) = s

variable {M : Machine Op Ret σ φ} {M' : Machine (Op ⊕ Op') (Both Ret Ret') σ' φ'}
  {A : φ' → Prop}

/-- The fates of the part that the fates of the whole amount to. -/
def Extends.allowed (e : Extends M M') (A : φ' → Prop) : φ → Prop :=
  fun f => ∃ f', A f' ∧ e.fate f' = f

theorem Extends.wp_inl (e : Extends M M') {p : Prog Op Ret α} {Q : α → σ' → Prop}
    {C : σ' → Prop} {s : σ'}
    (h : wp M (e.allowed A) p (fun a x => Q a (e.put s x)) (fun x => C (e.put s x)) (e.part s)) :
    wp M' A p.inl Q C s := by
  induction p generalizing s with
  | pure a => simpa [e.put_part] using h
  | call o k ih =>
      intro f hf
      have hcall := h (e.fate f) ⟨f, hf, rfl⟩
      rw [e.act_eq]
      rcases hact : M.act (e.fate f) o (e.part s) with ⟨_ | r, x⟩
      · rw [hact] at hcall
        exact hcall
      · rw [hact] at hcall
        refine ih r ?_
        simpa only [e.part_put, e.put_put] using hcall

/-- What a program of the part is proved to do, it does inside the whole. -/
theorem Extends.swp_zoom (e : Extends M M') {c : Cell ρ' ρ} {m : StProg Op Ret ρ α}
    {Q : α → ρ' → σ' → Prop} {C : σ' → Prop} {u : ρ'} {s : σ'}
    (h : swp M (e.allowed A) m (fun a v x => Q a (c.put u v) (e.put s x))
      (fun x => C (e.put s x)) (c.get u) (e.part s)) :
    swp M' A (zoom c m) Q C u s := by
  change wp M' A ((m.run (c.get u)).inl >>= fun x => Prog.pure (x.1, c.put u x.2)) _ C s
  rw [wp_bind]
  exact e.wp_inl h

end Lift

section Keeps

variable {Op : Type} {Ret : Op → Type} {α β ρ σ φ : Type} {M : Machine Op Ret σ φ}
  {A : φ → Prop} {I : ρ → σ → Prop} {C : σ → Prop}

/-- Every run of the program keeps `I`; a run that is cut ends in `C`. -/
def Keeps (M : Machine Op Ret σ φ) (A : φ → Prop) (I : ρ → σ → Prop) (C : σ → Prop)
    (m : StProg Op Ret ρ α) : Prop :=
  ∀ u s, I u s → swp M A m (fun _ u s => I u s) C u s

theorem keeps_pure (a : α) : Keeps M A I C (pure a : StProg Op Ret ρ α) := fun _ _ h => h

theorem keeps_bind {m : StProg Op Ret ρ α} {f : α → StProg Op Ret ρ β}
    (hm : Keeps M A I C m) (hf : ∀ a, Keeps M A I C (f a)) : Keeps M A I C (m >>= f) := by
  intro u s h
  rw [swp_bind]
  exact swp_mono (hm u s h) (fun a u s h => hf a u s h) fun _ h => h

/-- The first two steps together. -/
theorem keeps_bind_assoc {γ : Type} {m : StProg Op Ret ρ α} {f : α → StProg Op Ret ρ β}
    {g : β → StProg Op Ret ρ γ} (hm : Keeps M A I C (m >>= f)) (hg : ∀ b, Keeps M A I C (g b)) :
    Keeps M A I C (m >>= fun a => f a >>= g) := by
  rw [← bind_assoc]
  exact keeps_bind hm hg

theorem keeps_get : Keeps M A I C (get : StProg Op Ret ρ ρ) := fun _ _ h => h

theorem keeps_ite {c : Prop} [Decidable c] {m m' : StProg Op Ret ρ α} (h : Keeps M A I C m)
    (h' : Keeps M A I C m') : Keeps M A I C (if c then m else m') := by
  split
  · exact h
  · exact h'

/-- Reading the variables first. -/
theorem keeps_get_bind {f : ρ → StProg Op Ret ρ α} (h : ∀ u, Keeps M A I C (f u)) :
    Keeps M A I C (get >>= f) := keeps_bind keeps_get h

theorem keeps_modify {f : ρ → ρ} (h : ∀ u s, I u s → I (f u) s) :
    Keeps M A I C (modify f : StProg Op Ret ρ PUnit) := fun u s hu => h u s hu

theorem keeps_loopFrom {body : ℕ → β → StProg Op Ret ρ (Option β)}
    (hbody : ∀ i b, Keeps M A I C (body i b)) (n : ℕ) :
    ∀ i b, Keeps M A I C (StProg.loopFrom body i n b) := by
  induction n with
  | zero => exact fun i b => keeps_pure _
  | succ n ih =>
      intro i b
      refine keeps_bind (hbody i b) fun r => ?_
      cases r with
      | none => exact keeps_pure _
      | some b' => exact ih (i + 1) b'

theorem keeps_loop {body : ℕ → β → StProg Op Ret ρ (Option β)} {n : ℕ} {b : β}
    (hbody : ∀ i b, Keeps M A I C (body i b)) : Keeps M A I C (StProg.loop n body b) :=
  keeps_loopFrom hbody n 0 b

/-- The same where the body need only be kept within the bound. -/
theorem keeps_loop_lt {body : ℕ → β → StProg Op Ret ρ (Option β)} {n : ℕ} {b : β}
    (hbody : ∀ i b, i < n → Keeps M A I C (body i b)) : Keeps M A I C (StProg.loop n body b) := by
  intro u s hI
  refine swp_mono (swp_loop (fun _ _ u s => I u s) I ?_ hI) ?_ fun _ h => h
  · intro i b' u' s' hi h
    apply swp_mono (hbody i b' hi u' s' h) _ fun _ h => h
    rintro (_ | b'') u'' s'' h' <;> exact h'
  · rintro (_ | b') u' s' h <;> exact h

/-- An invariant in use: what is proved of a run under `I` may use it. -/
theorem Keeps.swp {m : StProg Op Ret ρ α} (h : Keeps M A I C m) {u : ρ} {s : σ} (hI : I u s)
    {Q : α → ρ → σ → Prop} {C' : σ → Prop} (hQ : ∀ a u s, I u s → Q a u s)
    (hC : ∀ s, C s → C' s) : Crash.swp M A m Q C' u s :=
  swp_mono (h u s hI) (fun a u s h => hQ a u s h) hC

@[simp] theorem swp_modify {f : ρ → ρ} {Q : PUnit → ρ → σ → Prop} {u : ρ} {s : σ} :
    Crash.swp M A (modify f : StProg Op Ret ρ PUnit) Q C u s ↔ Q ⟨⟩ (f u) s := Iff.rfl

end Keeps

end Crash
