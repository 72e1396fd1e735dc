import Nixtropic.Tropic.PinCalls
import Nixtropic.Tropic.RecPairRuns

/-!
Runs of the PIN kernel: any calls in any order, any of whose chip calls may
meet a fault, with reboots in between.

The history keeps which pairs of a secret and a material were set up, and with
it the key that the setup answered. A change adds its new material to the
pairs of the old one: the secret stays.
-/

namespace Nixtropic

open Crash

inductive PinCall where
  | status
  | verify (mat : Bytes)
  | change (oldMat newMat : Bytes) (pinLen : UInt8)
  | setup (mat : Bytes) (pinLen : UInt8)

def PinCall.prog (P : Prims) (L : Layout) : PinCall → PairM PmdReply
  | .status => do
      let _ ← pinMdKernelStatus P L
      pure (.bare .ok)
  | .verify mat => pinMdKernelVerify P L mat
  | .change oldMat newMat pinLen => pinMdKernelChange P L oldMat newMat pinLen
  | .setup mat pinLen => pinMdKernelSetup P L mat pinLen

/-- The `uncertain` flag after a run: a loss of power clears it. -/
def flagAfter {α σ : Type} : Outcome (α × Bool) σ → Bool
  | .done x _ => x.2
  | .cut _ => false

/-- One run of a call. -/
def PinCall.run (P : Prims) (L : Layout) (c : PinCall) (u : Bool) (fs : List Fate) (w : World) :
    Outcome (PmdReply × Bool) World :=
  Crash.run (chip P) ((c.prog P L).run u) fs w

/-- A secret, a material it was set up with, and the key that its setup
answered, if it answered one. -/
structure Enrolment where
  s : Bytes
  mat : Bytes
  k : Option Bytes

/-- The key of a call that returned `PMD_OK`. -/
def okKey : Outcome (PmdReply × Bool) World → Option Bytes
  | .done (⟨.ok, _, k⟩, _) _ => some k
  | _ => none

def PinCall.enrols (c : PinCall) (w : World) (out : Outcome (PmdReply × Bool) World)
    (es : List Enrolment) : List Enrolment :=
  match c with
  | .setup mat _ => ⟨w.draw 32, mat, okKey out⟩ :: es
  | .change oldMat newMat _ =>
      (es.filter fun e => decide (e.mat = oldMat)).map (fun e => { e with mat := newMat }) ++ es
  | _ => es

/-- The states reachable from a pair that holds no record. -/
inductive PinReach (P : Prims) (L : Layout) : List Enrolment → World → Bool → Prop
  | start {w : World} {u : Bool} (ho : Vacant P L w) : PinReach P L [] w u
  | call {es : List Enrolment} {w : World} {u : Bool} {fs : List Fate} (c : PinCall)
      (hr : PinReach P L es w u) (hfs : ∀ f ∈ fs, L.record.Faults P f) :
      PinReach P L (c.enrols w (c.run P L u fs w) es) (c.run P L u fs w).state
        (flagAfter (c.run P L u fs w))
  | reboot {es : List Enrolment} {w : World} {u : Bool} (hr : PinReach P L es w u) :
      PinReach P L es w false

/-- The pair holds nothing or a binding. -/
def Known (P : Prims) (L : Layout) (w : World) : Prop :=
  Vacant P L w ∨ ∃ g b, Now P L w g b

/-- The pairs a call may install, made in `w`. -/
def PinCall.Installs (P : Prims) (L : Layout) (c : PinCall) (w : World) (w' : World)
    (s mat : Bytes) : Prop :=
  match c with
  | .setup mat' _ => s = w.draw 32 ∧ mat = mat'
  | .change oldMat newMat _ => mat = newMat ∧
      ∃ g b w₁, Now P L w g b ∧ Right P L g b oldMat s false w w₁ ∧ Silent w₁ w'
  | _ => False

section Runs

variable {P : Prims} {L : Layout} {w : World} {u : Bool} {fs : List Fate}

theorem Holding.known {G : ℕ} {S : Binding → Prop} (h : Holding P L w G S) : Known P L w := by
  obtain ⟨g, b, hb, -⟩ := h
  exact .inr ⟨g, b, hb⟩

/-- A rule whose two conclusions are about the state alone, as a statement
about the state in which a run ends. -/
theorem state_among {ρ α : Type} {m : Fw ρ α} {Q : α → ρ → World → Prop} {C J : World → Prop}
    {v : ρ} (h : swp (chip P) (Among fs) m Q C v w) (hQ : ∀ a v w', Q a v w' → J w')
    (hC : ∀ w', C w' → J w') : J (run (chip P) (m.run v) fs w).state := by
  have hpost := run_among h
  generalize run (chip P) (m.run v) fs w = out at hpost ⊢
  rcases out with ⟨⟨a, v'⟩, w'⟩ | w'
  · exact hQ a v' w' hpost
  · exact hC w' hpost

/-- Every call takes steps only, and installs only what it may. -/
theorem PinCall.swp_prog {A : Fate → Prop} (hA : ∀ f, A f → f.leaves (Invalid P L.record))
    (hL : validLayout L = true) (c : PinCall) (hk : Known P L w) :
    swp (chip P) A (c.prog P L)
      (fun _ _ w' => Via P L (c.Installs P L w) w w' ∧ Known P L w')
      (fun w' => Via P L (c.Installs P L w) w w' ∧ Known P L w') u w := by
  rcases hk with hv | ⟨g, b, hb⟩
  · cases c with
    | status =>
        rw [PinCall.prog, swp_bind]
        exact swp_mono (swp_status_vacant hA hL hv) (fun _ _ w' h => ⟨h.1, .inl h.2.2.1⟩)
          fun w' h => ⟨h.1, .inl h.2.2⟩
    | verify mat =>
        exact swp_mono (swp_verify_vacant hA hL hv) (fun _ _ w' h => ⟨h.1, .inl h.2.2.1⟩)
          fun w' h => ⟨h.1, .inl h.2.2⟩
    | change oldMat newMat pinLen =>
        exact swp_mono (swp_change_vacant hA hv) (fun _ _ w' h => ⟨h.1, .inl h.2.2.1⟩)
          fun w' h => ⟨h.1, .inl h.2.2⟩
    | setup mat pinLen =>
        have hknown : ∀ {w' : World}, (Vacant P L w' ∨ ∃ b, Now P L w' 1 b) → Known P L w' :=
          fun h => h.imp_right fun ⟨b, hb⟩ => ⟨1, b, hb⟩
        refine swp_mono (swp_setup_vacant hA hL hv fun w' _ => ⟨rfl, rfl⟩) ?_
          fun w' h => ⟨h.1, hknown h.2⟩
        rintro _ _ w' ⟨hvia, ⟨-, -, -, b, -, hinst⟩ | ⟨-, -, h⟩⟩
        · exact ⟨hvia, .inr ⟨1, b, hinst.kept.now⟩⟩
        · exact ⟨hvia, hknown h⟩
  · cases c with
    | status =>
        rw [PinCall.prog, swp_bind]
        exact swp_mono (swp_status hA hL hb) (fun _ _ w' h => ⟨h.1.via, h.1.holding.known⟩)
          fun w' h => ⟨h.1.via, h.1.holding.known⟩
    | verify mat =>
        exact swp_mono (swp_verify hA hL hb) (fun _ _ w' h => ⟨h.1.via, h.1.holding.known⟩)
          fun w' h => ⟨h.1.via, h.1.holding.known⟩
    | change oldMat newMat pinLen =>
        exact swp_mono (swp_change hA hL hb
          fun s w₁ w' hr hs => ⟨rfl, g, b, w₁, hb, hr, hs⟩)
          (fun _ _ w' h => ⟨h.1.via, h.1.holding.known⟩) fun w' h => ⟨h.via, h.holding.known⟩
    | setup mat pinLen =>
        exact swp_mono (swp_setup hA hL hb fun w' _ => ⟨rfl, rfl⟩)
          (fun _ _ w' h => ⟨h.1, h.2.1.known⟩) fun w' h => ⟨h.1, h.2.known⟩

theorem PinCall.via (hL : validLayout L = true) (hfs : ∀ f ∈ fs, L.record.Faults P f)
    (c : PinCall) (hk : Known P L w) :
    Via P L (c.Installs P L w) w (c.run P L u fs w).state ∧
      Known P L (c.run P L u fs w).state :=
  state_among (J := fun w' => Via P L (c.Installs P L w) w w' ∧ Known P L w')
    (c.swp_prog (among_leaves hfs) hL hk) (fun _ _ _ h => h) fun _ h => h

theorem PinReach.known {es : List Enrolment} (hL : validLayout L = true)
    (h : PinReach P L es w u) : Known P L w := by
  induction h with
  | start ho => exact .inl ho
  | call c hr hfs ih => exact (c.via hL hfs ih).2
  | reboot hr ih => exact ih

/-- The secret and the material are in the history, and the key its setup
answered is the key of this secret. -/
def Enrolled (P : Prims) (es : List Enrolment) (s mat : Bytes) : Prop :=
  ∃ e ∈ es, e.s = s ∧ e.mat = mat ∧ ∀ k ∈ e.k, k = keyK P s

/-- A setup answers the key of the secret it drew. -/
theorem setup_key (hL : validLayout L = true) (hfs : ∀ f ∈ fs, L.record.Faults P f)
    (hk : Known P L w) (mat : Bytes) (pinLen : UInt8) :
    ∀ k ∈ okKey ((PinCall.setup mat pinLen).run P L u fs w), k = keyK P (w.draw 32) := by
  intro k hkey
  have hA := among_leaves hfs
  have hrule : swp (chip P) (Among fs) (pinMdKernelSetup P L mat pinLen)
      (fun reply _ _ => reply.rc = .ok → reply.k = keyK P (w.draw 32)) (fun _ => True) u w := by
    rcases hk with hv | ⟨g, b, hb⟩
    · refine swp_mono (swp_setup_vacant (I := fun _ _ _ => True) hA hL hv
        fun _ _ => trivial) ?_ fun _ _ => trivial
      rintro reply u' w' ⟨-, ⟨rfl, -⟩ | ⟨rfl, -⟩⟩
      · exact fun _ => rfl
      · exact nofun
    · refine swp_mono (swp_setup (I := fun _ _ _ => True) hA hL hb
        fun _ _ => trivial) ?_ fun _ _ => trivial
      rintro reply u' w' ⟨-, -, ⟨rfl, -⟩ | ⟨rfl, -⟩⟩
      · exact fun _ => rfl
      · exact nofun
  have h := run_among hrule
  change k ∈ okKey (Crash.run (chip P) ((pinMdKernelSetup P L mat pinLen).run u) fs w) at hkey
  generalize Crash.run (chip P) ((pinMdKernelSetup P L mat pinLen).run u) fs w = out at h hkey
  rcases out with ⟨⟨⟨rc, correct, k'⟩, u'⟩, w'⟩ | w'
  · cases rc with
    | ok =>
        obtain rfl : k' = k := by simpa [okKey] using hkey
        exact h rfl
    | _ => simp [okKey] at hkey
  · simp [okKey] at hkey

/-- In every reachable state the binding was made for an enrolled pair, and
its slots from `next` on are armed. -/
theorem PinReach.sound {es : List Enrolment} (hL : validLayout L = true)
    (h : PinReach P L es w u) (hid : Ideal P w.log) : Sound P L (Enrolled P es) w := by
  induction h with
  | start ho => exact .inl ho
  | @call es w u fs c hr hfs ih =>
      obtain ⟨hvia, -⟩ := c.via (u := u) hL hfs (hr.known hL)
      have hw : Sound P L (Enrolled P es) w := ih (hid.anti hvia.log)
      have hmem : ∀ s mat, Enrolled P es s mat →
          Enrolled P (c.enrols w (c.run P L u fs w) es) s mat := by
        rintro s mat ⟨e, he, heq⟩
        refine ⟨e, ?_, heq⟩
        cases c with
        | status => exact he
        | verify m => exact he
        | change o n l => exact List.mem_append_right _ he
        | setup m l => exact List.mem_cons_of_mem _ he
      refine Sound.via (validLayout_ok hL) (fun w' s mat hid' hI => ?_) hvia hid (hw.mono hmem)
      cases c with
      | status => exact hI.elim
      | verify m => exact hI.elim
      | setup m l =>
          obtain ⟨rfl, rfl⟩ := hI
          exact ⟨_, List.mem_cons_self, rfl, rfl, setup_key hL hfs (hr.known hL) _ _⟩
      | change o n l =>
          obtain ⟨rfl, g, b, w₁, hb, hright, hsil⟩ := hI
          -- the change was let in by the material of the live binding
          rcases hw with hv | ⟨g₀, b₀, s₀, mat₀, hb₀, ⟨e, he, rfl, rfl, hek⟩, hm₀, -⟩
          · exact absurd hv hb.not_vacant
          · obtain ⟨-, rfl⟩ := hb.unique hb₀
            obtain ⟨l', hl', -⟩ := hsil
            have hlog : w₁.log <:+ w'.log := ⟨l', hl'.symm⟩
            obtain ⟨hs, hmat, -⟩ := guess_key hm₀ hright.log (hid'.anti hlog) hright.left
              hright.tried (hright.eq ▸ hright.tag)
            refine ⟨{ e with mat := mat }, List.mem_append_left _ (List.mem_map.mpr
              ⟨e, List.mem_filter.mpr ⟨he, decide_eq_true hmat.symm⟩, rfl⟩), ?_, rfl, ?_⟩
            · exact (hright.eq.trans hs).symm
            · rw [hright.eq, hs]
              exact hek
  | reboot hr ih => exact ih hid

end Runs

/-- A layout of two ranges with two attempts each. -/
def demoLayout : Layout where
  record := demoPair
  base0 := 0
  base1 := 2
  ranges := 2
  rounds := 2
  matLen := 1

theorem demo_valid : validLayout demoLayout = true := by decide

theorem vacant_blank : Vacant mixPrims demoLayout .blank :=
  ⟨invalid_empty _ _, invalid_empty _ _⟩

end Nixtropic
