import Nixtropic.Tropic.PinRuns
import Nixtropic.Tropic.PinQueries

/-!
A PIN with attempts left works.

What an undisturbed call answers on a live binding, first for one binding and
then for every reachable state. A record of the last generation can no longer
be replaced, so that the statements ask for as many generations as the calls
need.
-/

namespace Nixtropic

open Crash

/-- The binding in the record was made for the secret and the material, and
its slots from `next` on are armed. -/
structure Live (P : Prims) (L : Layout) (w : World) (g : ℕ) (b : Binding) (s mat : Bytes) :
    Prop where
  now : Now P L w g b
  made : Made P L w.log b s mat
  armed : Armed P L w.mad b.range b.next s

/-- An undisturbed run of a verification, right after a reboot. -/
def verifyCalm (P : Prims) (L : Layout) (mat : Bytes) (w : World) :
    Outcome (PmdReply × Bool) World :=
  run (chip P) ((pinMdKernelVerify P L mat).run false) [] w

/-- An undisturbed run of a status call, right after a reboot. -/
def statusCalm (P : Prims) (L : Layout) (w : World) : Outcome (PmdStatus × Bool) World :=
  run (chip P) ((pinMdKernelStatus P L).run false) [] w

/-- What a status call reports of a binding. -/
def Binding.status (L : Layout) (b : Binding) : PmdStatus :=
  ⟨if L.rounds ≤ b.next then .blocked else .active, L.rounds - b.next, b.pinLen⟩

section Works

variable {P : Prims} {L : Layout} {w : World} {g : ℕ} {b : Binding} {s mat : Bytes}

/-- Without collisions a binding was made for one secret and one material. -/
theorem Made.unique {l : List Event} {s' mat' : Bytes} (hpos : 0 < L.rounds)
    (h : Made P L l b s mat) (h' : Made P L l b s' mat') (hid : Ideal P l) :
    s' = s ∧ mat' = mat := by
  have hs : s' = s := h.eq_of_tag hid h'.tag.symm h'.asked_tag
  subst hs
  have hkey : P.hmac (armedAnswer P s' mat' (mdSlot L b.range 0)) mat' =
      P.hmac (armedAnswer P s' mat (mdSlot L b.range 0)) mat := by
    have hci := h.ci 0 hpos
    rw [h'.ci 0 hpos] at hci
    refine xorBytes_key (a := s') (h.s_length.trans (P.hmac_length _ _).symm)
      (h.s_length.trans (P.hmac_length _ _).symm) ?_
    rw [← hci]
    exact xorBytes_cancel (h.s_length.trans (P.hmac_length _ _).symm)
  exact ⟨rfl, (hid.hmac (h'.asked_ci 0 hpos) (h.asked_ci 0 hpos) hkey).2⟩

theorem Live.mono_settling {I : World → Bytes → Bytes → Prop} {w' : World}
    (hL : L.Ok) (h : Live P L w g b s mat) (hs : Settling P L I g b w w') :
    ∃ g' b', Live P L w' g' b' s mat ∧ g' + b'.debt ≤ g + b.debt ∧ (b' = b ∨ b' = b.settled) := by
  obtain ⟨g', b', hnow, hg, hb'⟩ := hs.holding
  have hmade := h.made.mono hs.via.log
  have harmed : Armed P L w'.mad b.range b.next s := by
    intro i hi hr
    cases hp : b.retirePending with
    | false =>
        rw [hs.mad_eq hp]
        exact h.armed i hi hr
    | true =>
        have h2 := h.now.wf.pending hp
        have hrange := h.now.wf.range
        rw [hs.mad _ (inRange_apart hL hrange (by omega) (by omega) ⟨i, hr, rfl⟩)]
        exact h.armed i hi hr
  refine ⟨g', b', ⟨hnow, ?_, ?_⟩, hg, hb'⟩
  · rcases hb' with rfl | rfl
    · exact hmade
    · exact hmade.congr rfl rfl rfl
  · rcases hb' with rfl | rfl
    · exact harmed
    · exact harmed

/-- The material of a live binding is accepted, and answers the key of its
secret. -/
theorem Live.accepts (hL : validLayout L = true) (h : Live P L w g b s mat)
    (hn : b.next < L.rounds) (hg : g + b.debt + 2 ≤ uint32Max) :
    ∃ w', verifyCalm P L mat w = .done (⟨.ok, true, keyK P s⟩, false) w' ∧
      Right P L g b mat s false w w' := by
  have hs : guess P L w.mad b mat = s := guess_right h.made h.armed hn
  have hpost : (verifyCalm P L mat w).Satisfies _ _ :=
    run_among (swp_verify (I := fun _ _ _ => False) among_nil_leaves hL h.now)
  generalize verifyCalm P L mat w = out at hpost ⊢
  rcases out with ⟨⟨reply, u'⟩, w'⟩ | w'
  · obtain ⟨-, ⟨s', rfl, hr⟩ | ⟨-, hw⟩ | ⟨-, -, hfull⟩ | ⟨-, hu | hst | hmax⟩⟩ := hpost
    · obtain rfl : s' = s := hr.eq.trans hs
      obtain rfl := hr.certain
      exact ⟨w', rfl, hr⟩
    · exact absurd (hs ▸ h.made.tag.symm) hw.tag
    · omega
    · cases hu
    · exact absurd hst not_stormy_nil
    · omega
  · exact absurd hpost.2 not_stormy_nil

/-- Any other material is refused and costs an attempt. -/
theorem Live.refuses (hL : validLayout L = true) (h : Live P L w g b s mat)
    (hn : b.next < L.rounds) (hg : g + b.debt + 2 ≤ uint32Max) {m : Bytes} (hm : m ≠ mat) :
    ∃ reply w', verifyCalm P L m w = .done (reply, false) w' ∧
      (Ideal P w'.log → reply = ⟨.ok, false, zeros⟩ ∧ Wrong P L g b m false w w') := by
  have hpost : (verifyCalm P L m w).Satisfies _ _ :=
    run_among (swp_verify (I := fun _ _ _ => False) among_nil_leaves hL h.now)
  generalize verifyCalm P L m w = out at hpost ⊢
  rcases out with ⟨⟨reply, u'⟩, w'⟩ | w'
  · obtain ⟨-, ⟨s', rfl, hr⟩ | ⟨rfl, hw⟩ | ⟨-, -, hfull⟩ | ⟨-, hu | hst | hmax⟩⟩ := hpost
    · obtain rfl := hr.certain
      refine ⟨_, w', rfl, fun hid => ?_⟩
      -- only the material of the binding has its tag
      obtain ⟨-, hmat, -⟩ := guess_key h.made hr.log hid hn hr.tried (hr.eq ▸ hr.tag)
      exact absurd hmat hm
    · obtain rfl := hw.certain
      exact ⟨_, w', rfl, fun _ => ⟨rfl, hw⟩⟩
    · omega
    · cases hu
    · exact absurd hst not_stormy_nil
    · omega
  · exact absurd hpost.2 not_stormy_nil

/-- What an undisturbed status call reports. -/
theorem status_calm (hL : validLayout L = true) (hb : Now P L w g b)
    (hg : g + b.debt ≤ uint32Max) :
    ∃ w', statusCalm P L w = .done (b.status L, false) w' ∧
      Kept P L w' (g + b.debt) b.settled := by
  have hpost : (statusCalm P L w).Satisfies _ _ :=
    run_among (swp_status (I := fun _ _ _ => False) among_nil_leaves hL hb)
  generalize statusCalm P L w = out at hpost ⊢
  rcases out with ⟨⟨st, u'⟩, w'⟩ | w'
  · obtain ⟨-, ⟨rfl, hkept, rfl⟩ | ⟨-, hu | hst | ⟨hp, hmax⟩⟩⟩ := hpost
    · exact ⟨w', rfl, hkept⟩
    · cases hu
    · exact absurd hst not_stormy_nil
    · rw [debt_of_pending hp] at hg
      omega
  · exact absurd hpost.2 not_stormy_nil

/-- A run that meets nothing is not cut. -/
theorem run_calm {α : Type} (p : Prog Op Ret α) (w : World) :
    ∃ a w', run (chip P) p [] w = .done a w' := by
  induction p generalizing w with
  | pure a => exact ⟨a, w, rfl⟩
  | call o k ih =>
      rw [run_call]
      cases o <;> exact ih _ _

/-- An undisturbed setup of a blank pair succeeds. -/
theorem setup_calm (hL : validLayout L = true) (ho : Vacant P L w)
    (hblank : Blank P L.record w.rmem) (mat : Bytes) (pinLen : UInt8) :
    ∃ w' b, (PinCall.setup mat pinLen).run P L false [] w =
        .done (⟨.ok, false, keyK P (w.draw 32)⟩, false) w' ∧
      b.range = 0 ∧ Installed P L w' 1 b (w.draw 32) mat pinLen := by
  have hpost : ((PinCall.setup mat pinLen).run P L false [] w).Satisfies _ _ :=
    run_among (swp_setup_vacant (I := fun _ _ _ => True) among_nil_leaves hL ho
      fun _ _ => trivial)
  obtain ⟨⟨reply, u'⟩, w', hrun⟩ := run_calm (((PinCall.setup mat pinLen).prog P L).run false) w
  rw [PinCall.run, hrun] at hpost ⊢
  obtain ⟨-, ⟨rfl, rfl, -, b, hrange, hinst⟩ | ⟨-, hu | hst | hbad, -⟩⟩ := hpost
  · exact ⟨w', b, rfl, hrange, hinst⟩
  · cases hu
  · exact absurd hst not_stormy_nil
  · exact absurd hblank hbad

/-- A right PIN makes every slot of the range answer again. -/
theorem Right.opens {w' : World} (hm : Made P L w.log b s mat)
    (h : Right P L g b mat s false w w') {i : ℕ} (hi : i < L.rounds) :
    guess P L w'.mad { b with next := i } mat = s := by
  have hm' : Made P L w.log { b with next := i } s mat := hm.congr rfl rfl rfl
  exact guess_right hm' (fun j _ hj => h.armed j (Nat.zero_le j) hj) hi

/-- A status call of a run in which the pair held a live binding. -/
theorem live_of_status {u u' : Bool} {fs : List Fate} {es : List Enrolment} {st : PmdStatus}
    {w' : World} (hL : validLayout L = true) (hr : PinReach P L es w u)
    (hfs : ∀ f ∈ fs, L.record.Faults P f) (hid : Ideal P w'.log)
    (hst : run (chip P) ((pinMdKernelStatus P L).run u) fs w = .done (st, u') w')
    (hact : st.state = .active) :
    ∃ g b s mat, Live P L w' g b s mat ∧ Enrolled P es s mat ∧ b.retirePending = false ∧
      u' = false ∧ st = b.status L ∧ b.next < L.rounds := by
  have hA := among_leaves hfs
  rcases hr.known hL with hv | ⟨g, b, hb⟩
  · have hpost := done_among (swp_status_vacant (I := fun _ _ _ => False) hA hL hv) hst
    obtain ⟨-, -, -, rfl | rfl⟩ := hpost
    all_goals cases hact
  · have hpost := done_among (swp_status (I := fun _ _ _ => False) hA hL hb) hst
    obtain ⟨hset, ⟨rfl, hkept, rfl⟩ | ⟨rfl, -⟩⟩ := hpost
    · have hleft : b.next < L.rounds := by
        by_contra hge
        simp [Nat.le_of_not_lt hge] at hact
      have hsound := hr.sound hL (hid.anti hset.via.log)
      rcases hsound with hv | ⟨g₀, b₀, s, mat, hb₀, henr, hm, ha⟩
      · exact absurd hv hb.not_vacant
      · obtain ⟨rfl, rfl⟩ := hb.unique hb₀
        obtain ⟨g', b', hlive, -, -⟩ :=
          Live.mono_settling (validLayout_ok hL) ⟨hb, hm, ha⟩ hset
        obtain ⟨rfl, rfl⟩ := hlive.now.unique hkept.now
        exact ⟨_, _, s, mat, hlive, henr, rfl, rfl, rfl, hleft⟩
    · cases hact

/-- In every reachable state in which a status call reports attempts, there is
one enrolled material that an undisturbed verification accepts, with the key
of its setup, after which all attempts are there and all slots answer; any
other material is refused and costs one attempt. -/
theorem active_pin_works {u u₁ : Bool} {fs : List Fate} {es : List Enrolment} {st : PmdStatus}
    {w₁ : World} (hL : validLayout L = true) (hr : PinReach P L es w u)
    (hfs : ∀ f ∈ fs, L.record.Faults P f) (hid : Ideal P w₁.log)
    (hst : run (chip P) ((pinMdKernelStatus P L).run u) fs w = .done (st, u₁) w₁)
    (hact : st.state = .active)
    (hgen : ∀ r, Current P L.record w₁.rmem r → genOf r + 2 ≤ uint32Max) :
    0 < st.attempts ∧ u₁ = false ∧
      ∃ g b s mat, Live P L w₁ g b s mat ∧ Enrolled P es s mat ∧
        (∃ w₂, verifyCalm P L mat w₁ = .done (⟨.ok, true, keyK P s⟩, false) w₂ ∧
          (∃ w₃, statusCalm P L w₂ = .done (⟨.active, L.rounds, st.pinLen⟩, false) w₃) ∧
          ∀ i < L.rounds, guess P L w₂.mad { b with next := i } mat = s) ∧
        ∀ m ≠ mat, ∃ reply w₂, verifyCalm P L m w₁ = .done (reply, false) w₂ ∧
          (Ideal P w₂.log → reply = ⟨.ok, false, zeros⟩ ∧
            ∃ st' w₃, statusCalm P L w₂ = .done (st', false) w₃ ∧
              st'.attempts = st.attempts - 1) := by
  obtain ⟨g, b, s, mat, hlive, henr, hp, rfl, rfl, hn⟩ := live_of_status hL hr hfs hid hst hact
  have hd : b.debt = 0 := debt_of_settled hp
  have hpos : 0 < L.rounds := by omega
  have hg : g + 2 ≤ uint32Max := by
    obtain ⟨r, hcur, rfl, -⟩ := hlive.now
    exact hgen r hcur
  refine ⟨by simp only [Binding.status]; omega, rfl, g, b, s, mat, hlive, henr, ?_, ?_⟩
  · obtain ⟨w₂, hrun, hright⟩ := hlive.accepts hL hn (by omega)
    obtain ⟨w₃, hst', -⟩ := status_calm hL hright.kept.now (by
      change g + b.debt + 2 + 0 ≤ uint32Max
      omega)
    refine ⟨w₂, hrun, ⟨w₃, ?_⟩, fun i hi => hright.opens hlive.made hi⟩
    rw [hst']
    simp [Binding.status, Binding.settled, Nat.not_le.mpr hpos]
  · intro m hm
    obtain ⟨reply, w₂, hrun, hwrong⟩ := hlive.refuses hL hn (by omega) hm
    refine ⟨reply, w₂, hrun, fun hid₂ => ?_⟩
    obtain ⟨hreply, hw⟩ := hwrong hid₂
    obtain ⟨w₃, hst', -⟩ := status_calm hL hw.kept.now (by
      change g + b.debt + 1 + 0 ≤ uint32Max
      omega)
    refine ⟨hreply, _, w₃, hst', ?_⟩
    simp only [Binding.status, Binding.settled]
    omega

end Works

theorem blank_blank : Blank mixPrims demoLayout.record World.blank.rmem := ⟨rfl, rfl⟩

/-- The chip after a first setup. -/
@[irreducible] def demoFirst : World :=
  ((PinCall.setup [1] 1).run mixPrims demoLayout false [] .blank).state

/-- The secret of that setup. -/
def demoSecret : Bytes := World.blank.draw 32

theorem first_demo_run :
    ∃ b, (PinCall.setup [1] 1).run mixPrims demoLayout false [] .blank =
        .done (⟨.ok, false, keyK mixPrims demoSecret⟩, false) demoFirst ∧
      b.range = 0 ∧ Installed mixPrims demoLayout demoFirst 1 b demoSecret [1] 1 := by
  obtain ⟨w, b, hrun, hrange, hinst⟩ := setup_calm demo_valid vacant_blank blank_blank [1] 1
  obtain rfl : demoFirst = w := by
    unfold demoFirst
    exact congrArg Outcome.state hrun
  exact ⟨b, hrun, hrange, hinst⟩

theorem first_demo :
    PinReach mixPrims demoLayout [⟨demoSecret, [1], some (keyK mixPrims demoSecret)⟩] demoFirst
      false := by
  obtain ⟨b, hrun, -⟩ := first_demo_run
  have hreach := PinReach.call (.setup [1] 1) (.start (u := false) vacant_blank)
    (by simp : ∀ f ∈ [], demoLayout.record.Faults mixPrims f)
  rw [hrun] at hreach
  simpa only [PinCall.enrols, okKey, flagAfter, Outcome.state, demoSecret] using hreach

theorem active_pin_works_demo :
    ∃ w₁ st, statusCalm mixPrims demoLayout demoFirst = .done (st, false) w₁ ∧
      st.state = .active ∧ ∃ g b s mat, Live mixPrims demoLayout w₁ g b s mat ∧
        ∃ w₂, verifyCalm mixPrims demoLayout mat w₁ =
          .done (⟨.ok, true, keyK mixPrims s⟩, false) w₂ := by
  obtain ⟨b, -, -, hinst⟩ := first_demo_run
  obtain ⟨w₁, hst, hkept⟩ := status_calm demo_valid hinst.kept.now
    (by rw [debt_of_settled hinst.pending]; decide)
  have hact : (b.status demoLayout).state = .active := by
    simp [Binding.status, hinst.next, demoLayout]
  have hid : Ideal mixPrims w₁.log := by
    have hw₁ : w₁ = (statusCalm mixPrims demoLayout demoFirst).state := by
      rw [hst]
      rfl
    rw [hw₁]
    decide +kernel
  obtain ⟨-, -, g, b', s, mat, hlive, -, ⟨w₂, hright, -⟩, -⟩ :=
    active_pin_works demo_valid first_demo (by simp) hid hst hact (by
      intro r hcur
      obtain ⟨r', hm, hg, -⟩ := hkept
      obtain rfl := hcur.unique hm.current
      rw [hg, debt_of_settled hinst.pending]
      decide)
  exact ⟨w₁, _, hst, hact, g, b', s, mat, hlive, w₂, hright⟩

end Nixtropic
