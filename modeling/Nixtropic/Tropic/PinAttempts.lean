import Nixtropic.Tropic.PinRuns

/-!
The attempt bound: between two right PINs, and after a setup, a PIN is tried
on the chip at most `rounds` times, whatever fails in between.

A restore call is made right after a tag was found right, and at no other
time, so the tries since the last right PIN are the `probes` of the log. The
log is emptied when the setup returns, so that it counts from there.
-/

namespace Nixtropic

open Crash

/-- Runs of every call but a setup. -/
inductive Attempts (P : Prims) (L : Layout) (w : World) (u : Bool) : World → Bool → Prop
  | refl : Attempts P L w u w u
  | call {w' : World} {u' : Bool} {fs : List Fate} (c : PinCall)
      (hc : ∀ mat pinLen, c ≠ .setup mat pinLen) (h : Attempts P L w u w' u')
      (hfs : ∀ f ∈ fs, L.record.Faults P f) :
      Attempts P L w u (c.run P L u' fs w').state (flagAfter (c.run P L u' fs w'))
  | reboot {w' : World} {u' : Bool} (h : Attempts P L w u w' u') : Attempts P L w u w' false

section Attempts

variable {P : Prims} {L : Layout} {w w' : World} {u u' : Bool} {fs : List Fate} {c : PinCall}

/-- Only a right PIN lets a call other than a setup install anything, and then
no attempt counts. -/
theorem PinCall.Installs.probes (hc : ∀ mat pinLen, c ≠ .setup mat pinLen) {s mat : Bytes}
    (h : c.Installs P L w w' s mat) : Nixtropic.probes w'.log = 0 := by
  cases c with
  | status => exact h.elim
  | verify m => exact h.elim
  | setup m n => exact absurd rfl (hc m n)
  | change o n l =>
      obtain ⟨-, g, b, w₁, -, hright, hsil⟩ := h
      exact hsil.probes.trans hright.probes

theorem Bounded.call (hL : validLayout L = true) (hc : ∀ mat pinLen, c ≠ .setup mat pinLen)
    (hfs : ∀ f ∈ fs, L.record.Faults P f) (hk : Known P L w) (h : Bounded P L w false) :
    Bounded P L (c.run P L u fs w).state false :=
  h.via (fun _ _ _ hI => PinCall.Installs.probes hc hI) (c.via hL hfs hk).1

theorem Attempts.bounded (hL : validLayout L = true) (hk : Known P L w)
    (hb : Bounded P L w false) (h : Attempts P L w u w' u') :
    Known P L w' ∧ Bounded P L w' false := by
  induction h with
  | refl => exact ⟨hk, hb⟩
  | call c hc h hfs ih => exact ⟨(c.via hL hfs ih.1).2, ih.2.call hL hc hfs ih.1⟩
  | reboot h ih => exact ih

/-- A blocked PIN is neither tried nor found right, and stays blocked. -/
theorem blocked_call (hL : validLayout L = true) (hc : ∀ mat pinLen, c ≠ .setup mat pinLen)
    (hfs : ∀ f ∈ fs, L.record.Faults P f) (hk : Known P L w)
    (hfull : ∀ g b, Now P L w g b → L.rounds ≤ b.next) :
    (c.run P L u fs w).Satisfies (fun x w' => x.1.correct = false ∧ Silent w w')
      (fun w' => Silent w w') := by
  have hA := among_leaves hfs
  suffices h : swp (chip P) (Among fs) (c.prog P L)
      (fun reply _ w' => reply.correct = false ∧ Silent w w') (fun w' => Silent w w') u w from
    run_among h
  rcases hk with hv | ⟨g, b, hb⟩
  · cases c with
    | status =>
        rw [PinCall.prog, swp_bind]
        exact swp_mono (swp_status_vacant (I := fun _ _ _ => True) hA hL hv)
          (fun _ _ w' h => ⟨rfl, h.2.1⟩) fun w' h => h.2.1
    | verify mat =>
        refine swp_mono (swp_verify_vacant (I := fun _ _ _ => True) hA hL hv) ?_
          fun w' h => h.2.1
        rintro _ _ w' ⟨-, hsil, -, rc, -, rfl⟩
        exact ⟨rfl, hsil⟩
    | change oldMat newMat pinLen =>
        refine swp_mono (swp_change_vacant (I := fun _ _ _ => True) hA hv) ?_ fun w' h => h.2.1
        rintro _ _ w' ⟨-, hsil, -, rc, -, rfl⟩
        exact ⟨rfl, hsil⟩
    | setup mat pinLen => exact absurd rfl (hc mat pinLen)
  · have hn := hfull g b hb
    cases c with
    | status =>
        rw [PinCall.prog, swp_bind]
        exact swp_mono (swp_status (I := fun _ _ _ => True) hA hL hb)
          (fun _ _ w' h => ⟨rfl, h.1.silent⟩) fun w' h => h.1.silent
    | verify mat =>
        refine swp_mono (swp_verify (I := fun _ _ _ => True) hA hL hb) ?_
          fun w' h => h.1.full hn
        rintro reply _ w' ⟨hver, ⟨s, rfl, hr⟩ | ⟨rfl, -⟩ | ⟨rfl, -⟩ | ⟨rfl, -⟩⟩
        · exact absurd hr.left (by omega)
        all_goals exact ⟨rfl, hver.full hn⟩
    | change oldMat newMat pinLen =>
        refine swp_mono (swp_change (I := fun _ _ _ => True) hA hL hb
          fun _ _ _ _ _ => trivial) ?_ fun w' h => h.full hn
        rintro reply _ w' ⟨hch, ⟨s, b', w₁, rfl, -, -, hr, -⟩ | ⟨rfl, -⟩ | ⟨rfl, -⟩ | ⟨rfl, -⟩⟩
        · exact absurd hr.left (by omega)
        all_goals exact ⟨rfl, hch.full hn⟩
    | setup mat pinLen => exact absurd rfl (hc mat pinLen)

theorem Outcome.state_of_satisfies {α σ : Type} {Q : α → σ → Prop} {J : σ → Prop}
    {out : Outcome α σ} (h : out.Satisfies Q J) (hQ : ∀ a s, Q a s → J s) : J out.state := by
  cases out with
  | done a s => exact hQ a s h
  | cut s => exact h

/-- Once all attempts are used up, no call but a setup changes that. -/
theorem Attempts.blocked (hL : validLayout L = true) (hk : Known P L w)
    (hb : Bounded P L w false) (hp : probes w.log = L.rounds) (h : Attempts P L w u w' u') :
    probes w'.log = L.rounds := by
  induction h with
  | refl => exact hp
  | @call w₁ u₁ fs c hc h hfs ih =>
      obtain ⟨hk₁, hb₁⟩ := h.bounded hL hk hb
      have hfull : ∀ g b, Now P L w₁ g b → L.rounds ≤ b.next := fun g b hnow =>
        ih ▸ hb₁.count g b hnow
      have hsil := Outcome.state_of_satisfies (blocked_call (u := u₁) hL hc hfs hk₁ hfull)
        fun _ _ h => h.2
      exact hsil.probes.trans ih
  | reboot h ih => exact ih

end Attempts

end Nixtropic
