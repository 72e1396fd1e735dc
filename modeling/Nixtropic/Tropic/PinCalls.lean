import Nixtropic.Tropic.PinInvariants

/-!
The public calls of the PIN kernel: status, verify, change and setup, each
with what it answers and what it leaves behind.
-/

namespace Nixtropic

open Crash

section Calls

variable {P : Prims} {A : Fate → Prop} {L : Layout} {I : World → Bytes → Bytes → Prop}
  {u : Bool} {w : World} {g : ℕ} {b : Binding}

theorem Holding.congr {w' : World} {G : ℕ} {S : Binding → Prop} (h : Holding P L w G S)
    (hr : w'.rmem = w.rmem) : Holding P L w' G S := by
  obtain ⟨g, b, hb, hs⟩ := h
  exact ⟨g, b, hb.congr hr, hs⟩

theorem via_hmac (w : World) (key msg : Bytes) : Via P L I w (w.note (.hmac key msg)) :=
  .of_keep fun _ => .hmac key msg

theorem silent_hmac (w : World) (key msg : Bytes) : Silent w (w.note (.hmac key msg)) :=
  silent_note (by simp) _ rfl

/-- `Installed` survives the last HMAC of a call. -/
theorem Installed.note {s mat : Bytes} {pinLen : UInt8} (h : Installed P L w g b s mat pinLen)
    (key msg : Bytes) : Installed P L (w.note (.hmac key msg)) g b s mat pinLen :=
  ⟨h.kept.congr rfl, h.pending, h.next, h.pinLen, h.made.mono (List.suffix_cons _ _), h.armed⟩

theorem Retired.note {range : ℕ} (h : Retired P L w range) (key msg : Bytes) :
    Retired P L (w.note (.hmac key msg)) range := by
  intro i hi
  obtain ⟨rnd, hm, hasked⟩ := h i hi
  exact ⟨rnd, hm, hasked.mono (List.suffix_cons _ _)⟩

/-! ### Status -/

def PinStatusPost (P : Prims) (A : Fate → Prop) (L : Layout)
    (I : World → Bytes → Bytes → Prop) (g : ℕ) (b : Binding) (u : Bool) (w : World)
    (st : PmdStatus) (u' : Bool) (w' : World) : Prop :=
  Settling P L I g b w w' ∧
    (u' = false ∧ Kept P L w' (g + b.debt) b.settled ∧
        st = ⟨if L.rounds ≤ b.next then .blocked else .active, L.rounds - b.next, b.pinLen⟩ ∨
      st = ⟨.error, 0, 0⟩ ∧ (u = true ∨ Stormy A ∨ b.retirePending = true ∧ g = uint32Max))

theorem swp_status (hA : ∀ f, A f → f.leaves (Invalid P L.record)) (hL : validLayout L = true)
    (hb : Now P L w g b) :
    swp (chip P) A (pinMdKernelStatus P L) (PinStatusPost P A L I g b u w)
      (fun w' => Settling P L I g b w w' ∧ Stormy A) u w := by
  rw [pinMdKernelStatus, if_neg (by simp [hL]), swp_bind]
  refine swp_mono (swp_settle (I := I) hA (validLayout_ok hL) hb) ?_ fun _ h => h
  rintro (b₁ | _ | _) u₁ w₁ ⟨hs, hst⟩
  · obtain ⟨rfl, rfl, hkept, -⟩ := hst
    exact ⟨hs, .inl ⟨rfl, hkept, rfl⟩⟩
  · exact hst.elim
  · exact ⟨hs, .inr ⟨rfl, hst⟩⟩

theorem swp_status_vacant (hA : ∀ f, A f → f.leaves (Invalid P L.record))
    (hL : validLayout L = true) (ho : Vacant P L w) :
    swp (chip P) A (pinMdKernelStatus P L)
      (fun st _ w' => Via P L I w w' ∧ Silent w w' ∧ Vacant P L w' ∧
        (st = ⟨.absent, 0, 0⟩ ∨ st = ⟨.error, 0, 0⟩))
      (fun w' => Via P L I w w' ∧ Silent w w' ∧ Vacant P L w') u w := by
  rw [pinMdKernelStatus, if_neg (by simp [hL]), swp_bind]
  refine swp_mono (swp_settle_vacant (I := I) hA ho) ?_ ?_
  · rintro (b₁ | _ | _) u₁ w₁ ⟨ht, hvia, hvac, hst⟩
    · exact hst.elim
    · exact ⟨hvia, ht.silent, hvac, .inl rfl⟩
    · exact ⟨hvia, ht.silent, hvac, .inr rfl⟩
  · rintro w₁ ⟨ht, hvia, hvac⟩
    exact ⟨hvia, ht.silent, hvac⟩

/-! ### Verify -/

/-- The chip after a right PIN: the range is armed again from the start. -/
structure Right (P : Prims) (L : Layout) (g : ℕ) (b : Binding) (mat s : Bytes) (u' : Bool)
    (w w' : World) : Prop where
  certain : u' = false
  left : b.next < L.rounds
  eq : s = guess P L w.mad b mat
  tag : keyTag P s = b.tag
  tried : Tried P L w'.log w.mad b mat
  kept : Kept P L w' (g + b.debt + 2) { b.settled with next := 0 }
  armed : Armed P L w'.mad b.range 0 s
  probes : Nixtropic.probes w'.log = 0
  restored : Restored P L w'.log b.range (triedMad P L w.mad b mat) s
  log : w.log <:+ w'.log

/-- The chip after a wrong PIN: one attempt is spent. -/
structure Wrong (P : Prims) (L : Layout) (g : ℕ) (b : Binding) (mat : Bytes) (u' : Bool)
    (w w' : World) : Prop where
  certain : u' = false
  left : b.next < L.rounds
  tag : keyTag P (guess P L w.mad b mat) ≠ b.tag
  tried : Tried P L w'.log w.mad b mat
  kept : Kept P L w' (g + b.debt + 1) { b.settled with next := b.next + 1 }
  log : w.log <:+ w'.log

def PinVerifyPost (P : Prims) (A : Fate → Prop) (L : Layout)
    (I : World → Bytes → Bytes → Prop) (g : ℕ) (b : Binding) (mat : Bytes) (u : Bool)
    (w : World) (reply : PmdReply) (u' : Bool) (w' : World) : Prop :=
  Verifying P L I g b w w' ∧
    ((∃ s, reply = ⟨.ok, true, keyK P s⟩ ∧ Right P L g b mat s u' w w') ∨
      reply = .bare .ok ∧ Wrong P L g b mat u' w w' ∨
      reply = .bare .blocked ∧ u' = false ∧ L.rounds ≤ b.next ∨
      reply = .bare .err ∧ (u = true ∨ Stormy A ∨ uint32Max ≤ g + b.debt + 1))

theorem Verifying.note {w' : World} (h : Verifying P L I g b w w') (key msg : Bytes) :
    Verifying P L I g b w (w'.note (.hmac key msg)) :=
  ⟨h.via.trans (via_hmac _ _ _), h.holding.congr rfl,
    fun hf => (h.full hf).trans (silent_hmac _ _ _)⟩

theorem swp_verify (hA : ∀ f, A f → f.leaves (Invalid P L.record)) (hL : validLayout L = true)
    {mat : Bytes} (hb : Now P L w g b) :
    swp (chip P) A (pinMdKernelVerify P L mat) (PinVerifyPost P A L I g b mat u w)
      (fun w' => Verifying P L I g b w w' ∧ Stormy A) u w := by
  rw [pinMdKernelVerify, if_neg (by simp [hL]), swp_bind]
  refine swp_mono (swp_verifyS (I := I) hA (validLayout_ok hL) hb) ?_ fun _ h => h
  rintro (s | _ | _ | _ | _) u₁ w₁ ⟨hver, hres⟩
  · obtain ⟨rfl, hn, hs, htag, htried, hkept, harmed, hprobes, hrest⟩ := hres
    simp only []
    rw [swp_bind]
    refine swp_hmac ?_
    refine ⟨hver.note _ _, .inl ⟨s, rfl, rfl, hn, hs, htag,
      htried.mono (List.suffix_cons _ _), hkept.congr rfl, harmed, ?_,
      hrest.mono (List.suffix_cons _ _), hver.via.log.trans (List.suffix_cons _ _)⟩⟩
    exact (silent_hmac w₁ _ _).probes.trans hprobes
  · obtain ⟨rfl, hn, htag, htried, hkept⟩ := hres
    exact ⟨hver, .inr (.inl ⟨rfl, rfl, hn, htag, htried, hkept, hver.via.log⟩)⟩
  · exact ⟨hver, .inr (.inr (.inr ⟨rfl, hres⟩))⟩
  · exact ⟨hver, .inr (.inr (.inl ⟨rfl, hres⟩))⟩
  · exact hres.elim

theorem swp_verify_vacant (hA : ∀ f, A f → f.leaves (Invalid P L.record))
    (hL : validLayout L = true) {mat : Bytes} (ho : Vacant P L w) :
    swp (chip P) A (pinMdKernelVerify P L mat)
      (fun reply _ w' => Via P L I w w' ∧ Silent w w' ∧ Vacant P L w' ∧
        ∃ rc, rc ≠ .ok ∧ reply = .bare rc)
      (fun w' => Via P L I w w' ∧ Silent w w' ∧ Vacant P L w') u w := by
  rw [pinMdKernelVerify, if_neg (by simp [hL]), swp_bind]
  refine swp_mono (swp_verifyS_vacant (I := I) hA ho) ?_ fun _ h => h
  rintro res u₁ w₁ ⟨hvia, hsil, hvac, rfl | rfl⟩
  · exact ⟨hvia, hsil, hvac, .absent, nofun, rfl⟩
  · exact ⟨hvia, hsil, hvac, .err, nofun, rfl⟩

/-! ### Which PIN is right -/

/-- The material of the binding opens the next slot while it is armed. -/
theorem guess_right {l : List Event} {s mat : Bytes} {mad : ℕ → Bytes}
    (hm : Made P L l b s mat) (ha : Armed P L mad b.range b.next s) (hn : b.next < L.rounds) :
    guess P L mad b mat = s := by
  have hslot : mad (trySlot L b) = P.f1 (keyU P s) (trySlot L b) := ha b.next le_rfl hn
  rw [guess, hm.ci _ hn, tryAnswer, hslot]
  exact xorBytes_cancel (hm.s_length.trans (P.hmac_length _ _).symm)

/-- Without collisions only that material does, and only while the slot is
armed. -/
theorem guess_key {l l' : List Event} {s mat mat' : Bytes} {mad : ℕ → Bytes}
    (hm : Made P L l b s mat) (hl : l <:+ l') (hid : Ideal P l') (hn : b.next < L.rounds)
    (htried : Tried P L l' mad b mat') (htag : keyTag P (guess P L mad b mat') = b.tag) :
    guess P L mad b mat' = s ∧ mat' = mat ∧
      mad (trySlot L b) = P.f1 (keyU P s) (trySlot L b) := by
  have hm' := hm.mono hl
  have hs : guess P L mad b mat' = s := hm'.eq_of_tag hid htag htried.asked_s
  have hkey : P.hmac (tryAnswer P L mad b mat') mat' =
      P.hmac (armedAnswer P s mat (trySlot L b)) mat := by
    have hopen := hs
    rw [guess, hm.ci _ hn] at hopen
    exact xorBytes_key (hm.s_length.trans (P.hmac_length _ _).symm)
      (hm.s_length.trans (P.hmac_length _ _).symm) hopen
  obtain ⟨hw, rfl⟩ := hid.hmac htried.asked_w (hm'.asked_ci _ hn) hkey
  exact ⟨hs, rfl, hid.f2 htried.called (hm'.called _ hn) hw⟩

/-! ### Change -/

/-- The bindings that a change of `b` passes through. -/
def Binding.Changes (b : Binding) (pinLen : UInt8) (b' : Binding) : Prop :=
  b.Verifies b' ∨ b'.range = 1 - b.range ∧ b'.next = 0 ∧ b'.pinLen = pinLen

/-- Any chip state during a change of the binding `b`. -/
structure Changing (P : Prims) (L : Layout) (I : World → Bytes → Bytes → Prop) (g : ℕ)
    (b : Binding) (pinLen : UInt8) (w w' : World) : Prop where
  via : Via P L I w w'
  holding : Holding P L w' (g + b.debt + 4) (b.Changes pinLen)
  full : L.rounds ≤ b.next → Silent w w'

def PinChangePost (P : Prims) (A : Fate → Prop) (L : Layout)
    (I : World → Bytes → Bytes → Prop) (g : ℕ) (b : Binding) (old new : Bytes)
    (pinLen : UInt8) (u : Bool) (w : World) (reply : PmdReply) (u' : Bool) (w' : World) : Prop :=
  Changing P L I g b pinLen w w' ∧
    ((∃ s b' w₁, reply = ⟨.ok, true, keyK P s⟩ ∧ u' = false ∧ L.ranges = 2 ∧
        Right P L g b old s false w w₁ ∧ w₁.log <:+ w'.log ∧ Asked w'.log (.hmac s [0x02]) ∧
        Retired P L w' b.range ∧ b'.range = 1 - b.range ∧
        Installed P L w' (g + b.debt + 4) b' s new pinLen) ∨
      reply = .bare .ok ∧ Wrong P L g b old u' w w' ∨
      reply = .bare .blocked ∧ u' = false ∧ L.rounds ≤ b.next ∨
      reply = .bare .err ∧
        (L.ranges < 2 ∨ u = true ∨ Stormy A ∨ uint32Max ≤ g + b.debt + 3))

theorem Verifying.changing {w' : World} (h : Verifying P L I g b w w') (pinLen : UInt8) :
    Changing P L I g b pinLen w w' :=
  ⟨h.via, h.holding.mono (by omega) fun _ h => .inl h, h.full⟩

theorem Changing.note {w' : World} {pinLen : UInt8} (h : Changing P L I g b pinLen w w')
    (key msg : Bytes) : Changing P L I g b pinLen w (w'.note (.hmac key msg)) :=
  ⟨h.via.trans (via_hmac _ _ _), h.holding.congr rfl,
    fun hf => (h.full hf).trans (silent_hmac _ _ _)⟩

theorem guess_length {mad : ℕ → Bytes} {mat : Bytes} (hwf : b.Wf L) (hn : b.next < L.rounds) :
    (guess P L mad b mat).length = 32 := by
  have hc : (b.ci.getD b.next []).length = slotSize := by
    rw [List.getD_eq_getElem _ _ (by rw [hwf.ci]; exact hn)]
    exact hwf.ci_length _ (List.getElem_mem _)
  rw [guess, xorBytes_length (by rw [hc, P.hmac_length]; rfl), hc]
  rfl

theorem swp_change (hA : ∀ f, A f → f.leaves (Invalid P L.record)) (hL : validLayout L = true)
    {old new : Bytes} {pinLen : UInt8} (hb : Now P L w g b)
    (hI : ∀ s w₁ w', Right P L g b old s false w w₁ → Silent w₁ w' → I w' s new) :
    swp (chip P) A (pinMdKernelChange P L old new pinLen)
      (PinChangePost P A L I g b old new pinLen u w)
      (fun w' => Changing P L I g b pinLen w w') u w := by
  have hok := validLayout_ok hL
  rw [pinMdKernelChange]
  split
  · rename_i hbad
    have hone : L.ranges < 2 := by
      rcases hbad with h | h
      · rw [hL] at h
        cases h
      · exact h
    refine ⟨⟨.refl w, ⟨g, b, hb, by omega, .inl (.inl rfl)⟩, fun _ => .refl w⟩,
      .inr (.inr (.inr ⟨rfl, .inl hone⟩))⟩
  · rw [swp_bind]
    refine swp_mono (swp_verifyS (I := I) hA hok hb) ?_ ?_
    · rintro (s | _ | _ | _ | _) u₁ w₁ ⟨hver, hres⟩
      · obtain ⟨rfl, hn, hs, htag, htried, hkept, harmed, hprobes, hrest⟩ := hres
        have hright : Right P L g b old s false w w₁ :=
          ⟨rfl, hn, hs, htag, htried, hkept, harmed, hprobes, hrest, hver.via.log⟩
        have hlen : s.length = 32 := by
          rw [hs]
          exact guess_length hb.wf hn
        have hmid : ∀ {w' : World}, Via P L I w₁ w' →
            Holding P L w' (g + b.debt + 4)
              (({ b.settled with next := 0 } : Binding).Sets pinLen) →
            Changing P L I g b pinLen w w' := by
          intro w' hvia hh
          refine ⟨hver.via.trans hvia, hh.mono le_rfl ?_, fun hf => by omega⟩
          rintro b' (h | h | h)
          · exact .inl (.inr (.inr (.inr h)))
          · exact .inl (.inr (.inr (.inr h)))
          · exact .inr h
        simp only []
        rw [swp_bind]
        refine swp_mono (swp_setupS (I := I) hA hok hlen hkept.now
          fun w' hw' _ => hI s w₁ w' hright hw') ?_ ?_
        · rintro ok u₂ w₂ ⟨hvia, hh, ⟨rfl, rfl, h2, hret, b', hrange, hinst⟩ | ⟨rfl, hwhy⟩⟩
          · simp only [if_true]
            rw [swp_bind]
            refine swp_hmac ?_
            exact ⟨(hmid hvia hh).note _ _, .inl ⟨s, b', w₁, rfl, rfl, h2, hright,
              hvia.log.trans (List.suffix_cons _ _), asked_note rfl, hret.note _ _, hrange,
              hinst.note _ _⟩⟩
          · refine ⟨hmid hvia hh, .inr (.inr (.inr ⟨rfl, ?_⟩))⟩
            rcases hwhy with h | h | h | h
            · exact .inl h
            · cases h
            · exact .inr (.inr (.inl h))
            · exact .inr (.inr (.inr h))
        · rintro w₂ ⟨hvia, hh⟩
          exact hmid hvia hh
      · obtain ⟨rfl, hn, htag, htried, hkept⟩ := hres
        exact ⟨hver.changing pinLen,
          .inr (.inl ⟨rfl, rfl, hn, htag, htried, hkept, hver.via.log⟩)⟩
      · refine ⟨hver.changing pinLen, .inr (.inr (.inr ⟨rfl, .inr ?_⟩))⟩
        rcases hres with h | h | h
        · exact .inl h
        · exact .inr (.inl h)
        · exact .inr (.inr (by omega))
      · exact ⟨hver.changing pinLen, .inr (.inr (.inl ⟨rfl, hres⟩))⟩
      · exact hres.elim
    · rintro w₁ ⟨hver, -⟩
      exact hver.changing pinLen

theorem swp_change_vacant (hA : ∀ f, A f → f.leaves (Invalid P L.record)) {old new : Bytes}
    {pinLen : UInt8} (ho : Vacant P L w) :
    swp (chip P) A (pinMdKernelChange P L old new pinLen)
      (fun reply _ w' => Via P L I w w' ∧ Silent w w' ∧ Vacant P L w' ∧
        ∃ rc, rc ≠ .ok ∧ reply = .bare rc)
      (fun w' => Via P L I w w' ∧ Silent w w' ∧ Vacant P L w') u w := by
  rw [pinMdKernelChange]
  split
  · exact ⟨.refl w, .refl w, ho, .err, nofun, rfl⟩
  · rw [swp_bind]
    refine swp_mono (swp_verifyS_vacant (I := I) hA ho) ?_ fun _ h => h
    rintro res u₁ w₁ ⟨hvia, hsil, hvac, rfl | rfl⟩
    · exact ⟨hvia, hsil, hvac, .absent, nofun, rfl⟩
    · exact ⟨hvia, hsil, hvac, .err, nofun, rfl⟩

/-! ### Setup -/

def PinSetupPost (P : Prims) (A : Fate → Prop) (L : Layout)
    (I : World → Bytes → Bytes → Prop) (g : ℕ) (b : Binding) (mat : Bytes) (pinLen : UInt8)
    (u : Bool) (w : World) (reply : PmdReply) (u' : Bool) (w' : World) : Prop :=
  Via P L I w w' ∧ Holding P L w' (g + b.debt + 2) (b.Sets pinLen) ∧
    (reply = ⟨.ok, false, keyK P (w.draw 32)⟩ ∧ u' = false ∧ L.ranges = 2 ∧
        Retired P L w' b.range ∧
        (∃ b', b'.range = 1 - b.range ∧
          Installed P L w' (g + b.debt + 2) b' (w.draw 32) mat pinLen) ∨
      reply = .bare .err ∧ (L.ranges < 2 ∨ u = true ∨ Stormy A ∨ uint32Max ≤ g + b.debt + 1))

theorem swp_setup (hA : ∀ f, A f → f.leaves (Invalid P L.record)) (hL : validLayout L = true)
    {mat : Bytes} {pinLen : UInt8} (hb : Now P L w g b)
    (hI : ∀ w', Kept P L w' (g + b.debt) b.settled → I w' (w.draw 32) mat) :
    swp (chip P) A (pinMdKernelSetup P L mat pinLen) (PinSetupPost P A L I g b mat pinLen u w)
      (fun w' => Via P L I w w' ∧ Holding P L w' (g + b.debt + 2) (b.Sets pinLen)) u w := by
  have hok := validLayout_ok hL
  have hdraw : ∀ n, Via P L I w ((w.note (.random 32)).spend n) := fun n =>
    .of_keep fun c => .random 32 n
  have hstay : ∀ n, Holding P L ((w.note (.random 32)).spend n) (g + b.debt + 2)
      (b.Sets pinLen) := fun n => ⟨g, b, hb.congr rfl, by omega, .inl rfl⟩
  rw [pinMdKernelSetup, if_neg (by simp [hL]), swp_bind]
  refine swp_random ?_ ?_ ?_
  · simp only []
    rw [swp_bind]
    refine swp_mono (swp_setupS (I := I) hA hok (World.draw_length w 32) (hb.congr rfl)
      fun w' _ hk => hI w' hk) ?_ ?_
    · rintro ok u₁ w₁ ⟨hvia, hh, ⟨rfl, rfl, h2, hret, b', hrange, hinst⟩ | ⟨rfl, hwhy⟩⟩
      · simp only [if_true]
        rw [swp_bind]
        refine swp_hmac ?_
        exact ⟨(hdraw 32).trans (hvia.trans (via_hmac _ _ _)), hh.congr rfl,
          .inl ⟨rfl, rfl, h2, hret.note _ _, b', hrange, hinst.note _ _⟩⟩
      · exact ⟨(hdraw 32).trans hvia, hh, .inr ⟨rfl, hwhy⟩⟩
    · rintro w₁ ⟨hvia, hh⟩
      exact ⟨(hdraw 32).trans hvia, hh⟩
  · exact fun hst n => ⟨hdraw n, hstay n, .inr ⟨rfl, .inr (.inr (.inl hst))⟩⟩
  · exact fun _ n => ⟨hdraw n, hstay n⟩

theorem swp_setup_vacant (hA : ∀ f, A f → f.leaves (Invalid P L.record))
    (hL : validLayout L = true) {mat : Bytes} {pinLen : UInt8} (ho : Vacant P L w)
    (hI : ∀ w', Vacant P L w' → I w' (w.draw 32) mat) :
    swp (chip P) A (pinMdKernelSetup P L mat pinLen)
      (fun reply u' w' => Via P L I w w' ∧
        (reply = ⟨.ok, false, keyK P (w.draw 32)⟩ ∧ u' = false ∧
            (∀ slot, ¬InRange L 0 slot → w'.mad slot = w.mad slot) ∧
            (∃ b, b.range = 0 ∧ Installed P L w' 1 b (w.draw 32) mat pinLen) ∨
          reply = .bare .err ∧ (u = true ∨ Stormy A ∨ ¬Blank P L.record w.rmem) ∧
            (Vacant P L w' ∨ ∃ b, Now P L w' 1 b)))
      (fun w' => Via P L I w w' ∧ (Vacant P L w' ∨ ∃ b, Now P L w' 1 b)) u w := by
  have hok := validLayout_ok hL
  have hdraw : ∀ n, Via P L I w ((w.note (.random 32)).spend n) := fun n =>
    .of_keep fun c => .random 32 n
  rw [pinMdKernelSetup, if_neg (by simp [hL]), swp_bind]
  refine swp_random ?_ ?_ ?_
  · simp only []
    rw [swp_bind]
    refine swp_mono (swp_setupS_vacant (I := I) hA hok (World.draw_length w 32) (ho.congr rfl)
      fun w' _ hv => hI w' hv) ?_ ?_
    · rintro ok u₁ w₁ ⟨hvia, ⟨rfl, rfl, hmad, b, hrange, hinst⟩ | ⟨rfl, hwhy, hmem⟩⟩
      · simp only [if_true]
        rw [swp_bind]
        refine swp_hmac ?_
        exact ⟨(hdraw 32).trans (hvia.trans (via_hmac _ _ _)),
          .inl ⟨rfl, rfl, hmad, b, hrange, hinst.note _ _⟩⟩
      · exact ⟨(hdraw 32).trans hvia, .inr ⟨rfl, hwhy, hmem⟩⟩
    · rintro w₁ ⟨hvia, hmem⟩
      exact ⟨(hdraw 32).trans hvia, hmem⟩
  · exact fun hst n => ⟨hdraw n, .inr ⟨rfl, .inr (.inl hst), .inl (ho.congr rfl)⟩⟩
  · exact fun _ n => ⟨hdraw n, .inl (ho.congr rfl)⟩

end Calls

end Nixtropic
