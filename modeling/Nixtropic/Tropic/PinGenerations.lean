import Nixtropic.Tropic.PinWorks

/-!
The generations of the record are finite.

Every right PIN writes the record twice. A verification that is repeated asks
nothing that was not asked before, so that a run of any length of them is as
free of collisions as its beginning, and such a run ends in a record of the
last generation, which no call can replace.
-/

namespace Nixtropic

open Crash

/-- Nothing was asked that had not been asked before. -/
structure Stale (w w' : World) : Prop where
  hmac : ∀ {key msg}, Asked w'.log (.hmac key msg) → Asked w.log (.hmac key msg)
  mad : ∀ {slot old data}, Called w'.log slot old data → Called w.log slot old data

section Stale

variable {w w' w'' : World}

theorem Stale.refl (w : World) : Stale w w := ⟨id, id⟩

theorem Stale.trans (h : Stale w w') (h' : Stale w' w'') : Stale w w'' :=
  ⟨fun ha => h.hmac (h'.hmac ha), fun hc => h.mad (h'.mad hc)⟩

theorem Stale.ideal {P : Prims} (h : Stale w w') (hid : Ideal P w.log) : Ideal P w'.log :=
  ⟨fun ha hb => hid.hmac (h.hmac ha) (h.hmac hb), fun ha hb => hid.f1 (h.mad ha) (h.mad hb),
    fun ha hb => hid.f2 (h.mad ha) (h.mad hb)⟩

theorem stale_hmac {key msg : Bytes} (h : Asked w.log (.hmac key msg)) :
    Stale w (w.note (.hmac key msg)) := by
  refine ⟨?_, ?_⟩
  · rintro k m ⟨e, he, hop⟩
    rcases List.mem_cons.mp he with rfl | he
    · obtain ⟨rfl, rfl⟩ : key = k ∧ msg = m := by simpa using hop
      exact h
    · exact ⟨e, he, hop⟩
  · rintro slot old data ⟨e, he, ⟨site, hop⟩, hold⟩
    rcases List.mem_cons.mp he with rfl | he
    · cases hop
    · exact ⟨e, he, ⟨site, hop⟩, hold⟩

theorem stale_mad (site : MdSite) {slot : ℕ} {data : Bytes} (x : Bytes)
    (h : Called w.log slot (w.mad slot) data) :
    Stale w ((w.note (.macAndDestroy site slot data)).setMad slot x) := by
  refine ⟨?_, ?_⟩
  · rintro k m ⟨e, he, hop⟩
    rcases List.mem_cons.mp he with rfl | he
    · cases hop
    · exact ⟨e, he, hop⟩
  · rintro slot' old data' ⟨e, he, ⟨site', hop⟩, hold⟩
    rcases List.mem_cons.mp he with rfl | he
    · obtain ⟨rfl, rfl, rfl⟩ : site = site' ∧ slot = slot' ∧ data = data' := by simpa using hop
      subst hold
      exact h
    · exact ⟨e, he, ⟨site', hop⟩, hold⟩

theorem Touches.stale {p : RecPair} {D : Bytes → Prop} (h : Touches p D w w') : Stale w w' := by
  obtain ⟨l, hl, hops⟩ := h.log
  refine ⟨?_, ?_⟩
  · rintro k m ⟨e, he, hop⟩
    rcases List.mem_append.mp (hl ▸ he) with he | he
    · have hpair := hops e he
      rw [hop] at hpair
      exact hpair.elim
    · exact ⟨e, he, hop⟩
  · rintro slot old data ⟨e, he, ⟨site, hop⟩, hold⟩
    rcases List.mem_append.mp (hl ▸ he) with he | he
    · have hpair := hops e he
      rw [hop] at hpair
      exact hpair.elim
    · exact ⟨e, he, ⟨site, hop⟩, hold⟩

end Stale

/-- The queries of a right PIN that a setup has not made already. -/
structure Warm (P : Prims) (L : Layout) (l : List Event) (range : ℕ) (s mat : Bytes) : Prop where
  key : Asked l (.hmac s [0x02])
  tried : Called l (mdSlot L range 0) (P.f1 (pinKey P mat) (mdSlot L range 0)) (keyU P s)
  rest : ∀ i, 0 < i → i < L.rounds →
    Called l (mdSlot L range i) (P.f1 (keyU P s) (mdSlot L range i)) (keyU P s)

section Generations

variable {P : Prims} {L : Layout} {w : World} {g : ℕ} {b : Binding} {s mat : Bytes}

theorem swp_restore_stale (hL : L.Ok) {range : ℕ} {u : Bool} (hrange : range < L.ranges)
    (hslots : ∀ i < L.rounds, Called w.log (mdSlot L range i) (w.mad (mdSlot L range i))
      (keyU P s)) :
    swp (chip P) (Among []) (restore L range (keyU P s))
      (fun _ _ w' => Stale w w' ∧ w'.rmem = w.rmem ∧ w.log <:+ w'.log) (fun _ => True) u w := by
  rw [restore, swp_bind]
  refine swp_mono (swp_loop
    (fun n _ _ w' => Stale w w' ∧ w'.rmem = w.rmem ∧ w.log <:+ w'.log ∧
      ∀ i, n ≤ i → i < L.rounds → w'.mad (mdSlot L range i) = w.mad (mdSlot L range i))
    (fun _ w' => Stale w w' ∧ w'.rmem = w.rmem ∧ w.log <:+ w'.log)
    ?_ ⟨.refl w, rfl, List.suffix_rfl, fun _ _ _ => rfl⟩) ?_ fun _ h => h
  · rintro n _ u₁ w₁ hn ⟨hstale, hr, hlog, hmad⟩
    have hcalled : Called w₁.log (mdSlot L range n) (w₁.mad (mdSlot L range n)) (keyU P s) := by
      rw [hmad n le_rfl hn]
      exact (hslots n hn).mono hlog
    rw [swp_bind]
    refine swp_macAndDestroy ?_ ?_ ?_
    · refine ⟨hstale.trans (stale_mad _ _ hcalled), hr, hlog.trans (List.suffix_cons _ _),
        fun i hi hir => ?_⟩
      have hne : mdSlot L range i ≠ mdSlot L range n := fun h => by
        have := (mdSlot_inj hL hrange hrange hir hn h).2
        omega
      simp [Function.update_of_ne hne, hmad i (by omega) hir]
    · exact fun hst => absurd hst not_stormy_nil
    · exact fun hst => absurd hst not_stormy_nil
  · rintro (_ | _) u' w' h
    · exact h
    · exact ⟨h.1, h.2.1, h.2.2.1⟩

theorem swp_judge_stale (hL : L.Ok) (hb : Now P L w g { b with next := b.next + 1 })
    (hn : b.next = 0) (hm : Made P L w.log b s mat) (hw : Warm P L w.log b.range s mat)
    (hmad : ∀ i < L.rounds, w.mad (mdSlot L b.range i) =
      P.f1 (if i = 0 then pinKey P mat else keyU P s) (mdSlot L b.range i)) (hpos : 0 < L.rounds) :
    swp (chip P) (Among []) (judge P L b mat (armedAnswer P s mat (mdSlot L b.range 0)))
      (fun res _ w' => Stale w w' ∧ ∀ s', res = .right s' → s' = s ∧ w.log <:+ w'.log)
      (fun _ => True) false w := by
  have hs : xorBytes (b.ci.getD b.next [])
      (P.hmac (armedAnswer P s mat (mdSlot L b.range 0)) mat) = s := by
    rw [hn, hm.ci 0 hpos]
    exact xorBytes_cancel (hm.s_length.trans (P.hmac_length _ _).symm)
  have hq₁ := stale_hmac (hm.asked_ci 0 hpos)
  rw [judge, swp_bind]
  refine swp_slotXor ?_
  rw [hs, swp_bind]
  generalize hw₁ : w.note (.hmac (armedAnswer P s mat (mdSlot L b.range 0)) mat) = w₁ at hq₁ ⊢
  have hlog₁ : w.log <:+ w₁.log := hw₁ ▸ List.suffix_cons _ _
  have hq₂ := hq₁.trans (stale_hmac (hm.asked_tag.mono hlog₁))
  refine swp_hmac ?_
  change swp (chip P) (Among []) (if keyTag P s ≠ b.tag then _ else _) _ _ _ _
  rw [if_neg (by simp [hm.tag]), swp_bind]
  generalize hw₂ : w₁.note (.hmac s [0x00]) = w₂ at hq₂ ⊢
  have hlog₂ : w.log <:+ w₂.log := hlog₁.trans (hw₂ ▸ List.suffix_cons _ _)
  have hq₃ := hq₂.trans (stale_hmac (hm.asked_u.mono hlog₂))
  refine swp_hmac ?_
  change swp (chip P) (Among []) (restore L b.range (keyU P s) >>= _) _ _ _ _
  rw [swp_bind]
  generalize hw₃ : w₂.note (.hmac s [0x01]) = w₃ at hq₃ ⊢
  have hlog₃ : w.log <:+ w₃.log := hlog₂.trans (hw₃ ▸ List.suffix_cons _ _)
  have hmad₃ : w₃.mad = w.mad := by rw [← hw₃, ← hw₂, ← hw₁]; rfl
  have hrmem₃ : w₃.rmem = w.rmem := by rw [← hw₃, ← hw₂, ← hw₁]; rfl
  have hslots : ∀ i < L.rounds, Called w₃.log (mdSlot L b.range i)
      (w₃.mad (mdSlot L b.range i)) (keyU P s) := by
    intro i hi
    rw [hmad₃, hmad i hi]
    by_cases h0 : i = 0
    · subst h0
      exact hw.tried.mono hlog₃
    · rw [if_neg h0]
      exact (hw.rest i (by omega) hi).mono hlog₃
  refine swp_mono (swp_restore_stale hL hb.wf.range hslots) ?_ fun _ h => h
  rintro ok u₄ w₄ ⟨hq₄, hrmem₄, hlog₄⟩
  cases ok with
  | false => exact ⟨hq₃.trans hq₄, (fun _ h => by cases h)⟩
  | true =>
      simp only [if_true]
      have hnow₄ : Now P L w₄ g { b with next := b.next + 1 } :=
        hb.congr (hrmem₄.trans hrmem₃)
      rw [swp_bind, store]
      simp only [Bool.false_eq_true, if_false]
      rw [swp_bind]
      obtain ⟨r, hr, -⟩ := hnow₄
      refine swp_mono (swp_recPairWrite (P := P) among_nil_leaves (o := some r) hr) ?_
        fun _ _ => trivial
      rintro st u₅ w₅ ⟨ht, -⟩
      have hq₅ := hq₃.trans (hq₄.trans ht.stale)
      obtain ⟨l, hl, -⟩ := ht.log
      have hlog₅ : w.log <:+ w₅.log := hlog₃.trans (hlog₄.trans ⟨l, hl.symm⟩)
      cases hst : decide (st = .ok) with
      | true =>
          simp only [swp_pure, if_true]
          refine ⟨hq₅, ?_⟩
          rintro s' ⟨⟩
          exact ⟨rfl, hlog₅⟩
      | false => exact ⟨hq₅, (fun _ h => by cases h)⟩

/-- An undisturbed verification, repeated, asks nothing new. -/
theorem swp_verify_stale (hL : validLayout L = true) (hlive : Live P L w g b s mat)
    (hp : b.retirePending = false) (hn : b.next = 0) (hw : Warm P L w.log b.range s mat) :
    swp (chip P) (Among []) (pinMdKernelVerify P L mat) (fun _ _ w' => Stale w w') (fun _ => True)
      false w := by
  have hok := validLayout_ok hL
  have hpos := hok.rounds_pos
  rw [pinMdKernelVerify, if_neg (by simp [hL]), swp_bind, verifyS, swp_bind, settle, swp_bind]
  refine swp_mono (swp_load (I := fun _ _ _ => False) among_nil_leaves hok hlive.now) ?_
    fun _ _ => trivial
  rintro (b₁ | _ | _) u₁ w₁ ⟨ht₁, -, hnow₁, hst⟩
  · obtain ⟨rfl, rfl, -⟩ := hst
    obtain ⟨l₁, hl₁, -⟩ := ht₁.log
    have hlog₁ : w.log <:+ w₁.log := ⟨l₁, hl₁.symm⟩
    simp only [hp, Bool.false_eq_true, if_false, swp_pure]
    rw [attempt, if_neg (by omega), swp_bind]
    have hwf : Binding.Wf L { b₁ with next := b₁.next + 1 } := by
      have h := hnow₁.wf
      exact ⟨h.range, h.pending, (by omega : b₁.next + 1 ≤ L.rounds), h.tag, h.ci, h.ci_length⟩
    refine swp_mono (swp_store (I := fun _ _ _ => False) among_nil_leaves hok hnow₁ hwf
      (.reserved hp (by omega))) ?_ fun _ _ => trivial
    rintro ok u₂ w₂ ⟨⟨ht₂, hvia₂, -⟩, hres⟩
    have hq₂ := ht₁.stale.trans ht₂.stale
    have hlog₂ : w.log <:+ w₂.log := hlog₁.trans hvia₂.log
    rcases hres with ⟨rfl, rfl, hkept₂, -⟩ | ⟨rfl, -⟩
    · simp only [if_true]
      rw [swp_bind, pinV]
      refine swp_hmac ?_
      have hq₃ := hq₂.trans (stale_hmac (hlive.made.asked_v.mono hlog₂))
      generalize hw₃ : w₂.note (.hmac zeros mat) = w₃ at hq₃ ⊢
      have hlog₃ : w.log <:+ w₃.log := hlog₂.trans (hw₃ ▸ List.suffix_cons _ _)
      have hmad₃ : w₃.mad = w.mad := by rw [← hw₃]; exact ht₂.mad.trans ht₁.mad
      have harmed : ∀ i < L.rounds, w₃.mad (mdSlot L b₁.range i) =
          P.f1 (keyU P s) (mdSlot L b₁.range i) := fun i hi => by
        rw [hmad₃]
        exact hlive.armed i (by omega) hi
      have hcalled : Called w₃.log (mdSlot L b₁.range 0) (w₃.mad (mdSlot L b₁.range 0))
          (pinKey P mat) := by
        rw [harmed 0 hpos]
        exact (hlive.made.called 0 hpos).mono hlog₃
      change swp (chip P) (Among []) (tropicMacAndDestroy .probe (mdSlot L b₁.range b₁.next)
        (pinKey P mat) >>= _) _ _ _ _
      rw [swp_bind, hn]
      refine swp_macAndDestroy ?_ ?_ ?_
      · have hq₄ := hq₃.trans
          (stale_mad .probe (P.f1 (pinKey P mat) (mdSlot L b₁.range 0)) hcalled)
        have hans : P.f2 (w₃.mad (mdSlot L b₁.range 0))
            (P.f1 (pinKey P mat) (mdSlot L b₁.range 0)) (mdSlot L b₁.range 0) =
            armedAnswer P s mat (mdSlot L b₁.range 0) := by
          rw [harmed 0 hpos]
          rfl
        rw [hans]
        generalize hw₄ : (w₃.note (.macAndDestroy .probe (mdSlot L b₁.range 0)
          (pinKey P mat))).setMad (mdSlot L b₁.range 0)
          (P.f1 (pinKey P mat) (mdSlot L b₁.range 0)) = w₄ at hq₄ ⊢
        have hlog₄ : w.log <:+ w₄.log := hlog₃.trans (hw₄ ▸ List.suffix_cons _ _)
        have hnow₄ : Now P L w₄ (g + 1) { b₁ with next := b₁.next + 1 } :=
          hkept₂.now.congr (by rw [← hw₄, ← hw₃]; rfl)
        have hmad₄ : ∀ i < L.rounds, w₄.mad (mdSlot L b₁.range i) =
            P.f1 (if i = 0 then pinKey P mat else keyU P s) (mdSlot L b₁.range i) := by
          intro i hi
          rw [← hw₄]
          by_cases h0 : i = 0
          · subst h0
            simp
          · have hrange := hlive.now.wf.range
            have hne : mdSlot L b₁.range i ≠ mdSlot L b₁.range 0 := fun h =>
              h0 (mdSlot_inj hok hrange hrange hi hpos h).2
            simp [Function.update_of_ne hne, h0, harmed i hi]
        refine swp_mono (swp_judge_stale hok hnow₄ hn (hlive.made.mono hlog₄)
          ⟨hw.key.mono hlog₄, hw.tried.mono hlog₄, fun i h0 hi => (hw.rest i h0 hi).mono hlog₄⟩
          hmad₄ hpos) ?_ fun _ h => h
        rintro (s' | _ | _ | _ | _) u₅ w₅ ⟨hq₅, hright⟩
        · obtain ⟨rfl, hlog₅⟩ := hright s' rfl
          simp only []
          rw [swp_bind]
          refine swp_hmac ?_
          exact hq₄.trans (hq₅.trans (stale_hmac (hw.key.mono (hlog₄.trans hlog₅))))
        all_goals exact hq₄.trans hq₅
      · exact fun hst => absurd hst not_stormy_nil
      · exact fun hst => absurd hst not_stormy_nil
    · exact hq₂
  · exact hst.elim
  · exact ht₁.stale

/-- An undisturbed status call of a settled binding only reads. -/
theorem swp_status_stale (hL : validLayout L = true) (hb : Now P L w g b)
    (hp : b.retirePending = false) {u : Bool} :
    swp (chip P) (Among []) (pinMdKernelStatus P L)
      (fun _ _ w' => Stale w w' ∧ w.log <:+ w'.log ∧ w'.mad = w.mad) (fun _ => True) u w := by
  rw [pinMdKernelStatus, if_neg (by simp [hL]), swp_bind, settle, swp_bind]
  refine swp_mono (swp_load (I := fun _ _ _ => False) among_nil_leaves (validLayout_ok hL) hb) ?_
    fun _ _ => trivial
  rintro (b₁ | _ | _) u₁ w₁ ⟨ht, hvia, -, hst⟩
  · obtain ⟨rfl, -, -⟩ := hst
    simp only [hp, Bool.false_eq_true, if_false, swp_pure]
    exact ⟨ht.stale, hvia.log, ht.mad⟩
  · exact hst.elim
  · exact ⟨ht.stale, hvia.log, ht.mad⟩

/-- A live binding with all its attempts, whose verification asks nothing
new. -/
structure Idle (P : Prims) (L : Layout) (w : World) (g : ℕ) (b : Binding) (s mat : Bytes) :
    Prop where
  live : Live P L w g b s mat
  pending : b.retirePending = false
  next : b.next = 0
  warm : Warm P L w.log b.range s mat
  ideal : Ideal P w.log

theorem Warm.mono {l l' : List Event} {range : ℕ} (h : Warm P L l range s mat)
    (hl : l <:+ l') : Warm P L l' range s mat :=
  ⟨h.key.mono hl, h.tried.mono hl, fun i h0 hi => (h.rest i h0 hi).mono hl⟩

/-- One verification. -/
theorem Idle.verify (hL : validLayout L = true) (h : Idle P L w g b s mat)
    (hg : g + 2 ≤ uint32Max) :
    Idle P L (verifyCalm P L mat w).state (g + 2) b s mat ∧
      flagAfter (verifyCalm P L mat w) = false := by
  have hpos := (validLayout_ok hL).rounds_pos
  have hd := debt_of_settled h.pending
  obtain ⟨w', hrun, hright⟩ := h.live.accepts hL (by rw [h.next]; exact hpos) (by omega)
  have hstale : (verifyCalm P L mat w).Satisfies _ _ :=
    run_among (swp_verify_stale hL h.live h.pending h.next h.warm)
  have hb : ({ b.settled with next := 0 } : Binding) = b := by
    have hnext := h.next
    rw [settled_eq h.pending]
    cases b
    subst hnext
    rfl
  rw [hrun] at hstale ⊢
  refine ⟨⟨⟨?_, h.live.made.mono hright.log, ?_⟩, h.pending, h.next, h.warm.mono hright.log,
    hstale.ideal h.ideal⟩, rfl⟩
  · have hkept := hright.kept
    rw [hb, hd] at hkept
    exact hkept.now
  · exact fun i _ hi => hright.armed i (Nat.zero_le i) hi

/-- A run of verifications. -/
theorem Idle.verifies (hL : validLayout L = true) {es : List Enrolment}
    (h : Idle P L w g b s mat) (hr : PinReach P L es w false) (n : ℕ)
    (hg : g + 2 * n ≤ uint32Max) :
    ∃ w', PinReach P L es w' false ∧ Idle P L w' (g + 2 * n) b s mat := by
  induction n with
  | zero => exact ⟨w, hr, h⟩
  | succ n ih =>
      obtain ⟨w₁, hr₁, h₁⟩ := ih (by omega)
      obtain ⟨hidle, hflag⟩ := h₁.verify hL (by omega)
      have hstep := hr₁.call (.verify mat) (by simp : ∀ f ∈ [], L.record.Faults P f)
      change PinReach P L es (verifyCalm P L mat w₁).state (flagAfter (verifyCalm P L mat w₁))
        at hstep
      rw [hflag] at hstep
      exact ⟨_, hstep, hidle⟩

/-- A record of the last generation is not replaced, so that even the right
material is not accepted. -/
theorem exhausted_verify (hL : validLayout L = true) (h : Live P L w uint32Max b s mat)
    (hn : b.next < L.rounds) (m : Bytes) :
    ∃ u' w', verifyCalm P L m w = .done (.bare .err, u') w' := by
  obtain ⟨⟨reply, u'⟩, w', hrun⟩ := run_calm ((pinMdKernelVerify P L m).run false) w
  have hpost := done_among (swp_verify (I := fun _ _ _ => False) among_nil_leaves hL h.now) hrun
  have hbig : ∀ {w : World} {g : ℕ} {b : Binding}, Kept P L w g b → g ≤ uint32Max := by
    rintro w g b ⟨r, -, rfl, -⟩
    have := genOf_lt r
    simp only [uint32Max]
    omega
  obtain ⟨-, ⟨s', -, hr⟩ | ⟨-, hw⟩ | ⟨-, -, hfull⟩ | ⟨rfl, -⟩⟩ := hpost
  · have := hbig hr.kept
    omega
  · have := hbig hw.kept
    omega
  · omega
  · exact ⟨u', w', hrun⟩

/-- With a record of the last generation a status call reports all attempts,
and no material is accepted. -/
theorem Idle.exhausted (hL : validLayout L = true) (h : Idle P L w uint32Max b s mat) :
    ∃ w₁, statusCalm P L w = .done (⟨.active, L.rounds, b.pinLen⟩, false) w₁ ∧
      Ideal P w₁.log ∧ Live P L w₁ uint32Max b s mat ∧
      ∀ m, ∃ u' w₂, verifyCalm P L m w₁ = .done (.bare .err, u') w₂ := by
  have hpos := (validLayout_ok hL).rounds_pos
  have hd := debt_of_settled h.pending
  obtain ⟨w₁, hst, hkept⟩ := status_calm hL h.live.now (by omega)
  rw [hd, settled_eq h.pending] at hkept
  have hstatus : b.status L = ⟨.active, L.rounds, b.pinLen⟩ := by
    simp [Binding.status, h.next, Nat.not_le.mpr hpos]
  rw [hstatus] at hst
  have hquiet : (statusCalm P L w).Satisfies _ _ :=
    run_among (swp_status_stale hL h.live.now h.pending)
  rw [hst] at hquiet
  obtain ⟨hstale, hlog, hmad⟩ := hquiet
  have hlive : Live P L w₁ uint32Max b s mat :=
    ⟨hkept.now, h.live.made.mono hlog, by rw [hmad]; exact h.live.armed⟩
  exact ⟨w₁, hst, hstale.ideal h.ideal, hlive,
    exhausted_verify hL hlive (by rw [h.next]; exact hpos)⟩

end Generations

instance (l : List Event) (key msg : Bytes) : Decidable (Asked l (.hmac key msg)) :=
  decidable_of_iff _ asked_iff.symm

instance (l : List Event) (slot : ℕ) (old data : Bytes) : Decidable (Called l slot old data) :=
  decidable_of_iff _ called_iff.symm

/-- The chip after a first setup and one right verification. -/
@[irreducible] def demoVerified : World := (verifyCalm mixPrims demoLayout [1] demoFirst).state

theorem idle_demo :
    ∃ es b, PinReach mixPrims demoLayout es demoVerified false ∧
      Idle mixPrims demoLayout demoVerified 3 b demoSecret [1] := by
  obtain ⟨b, -, hrange, hinst⟩ := first_demo_run
  have hlive : Live mixPrims demoLayout demoFirst 1 b demoSecret [1] :=
    ⟨hinst.kept.now, hinst.made, fun i _ hi => hinst.armed i (Nat.zero_le i) hi⟩
  have hd := debt_of_settled hinst.pending
  obtain ⟨w₁, hver, hright⟩ := hlive.accepts demo_valid (by rw [hinst.next]; decide)
    (by rw [hd]; decide)
  have hreach := first_demo.call (.verify [1])
    (by simp : ∀ f ∈ [], demoLayout.record.Faults mixPrims f)
  change PinReach mixPrims demoLayout _ (verifyCalm mixPrims demoLayout [1] demoFirst).state
    (flagAfter (verifyCalm mixPrims demoLayout [1] demoFirst)) at hreach
  obtain rfl : demoVerified = w₁ := by
    unfold demoVerified
    exact congrArg Outcome.state hver
  rw [hver] at hreach
  simp only [Outcome.state, flagAfter] at hreach
  have hwarm : Warm mixPrims demoLayout demoVerified.log 0 demoSecret [1] := by
    refine ⟨by decide +kernel, by decide +kernel, fun i h0 hi => ?_⟩
    obtain rfl : i = 1 := by
      change i < 2 at hi
      omega
    decide +kernel
  refine ⟨_, { b.settled with next := 0 }, hreach, ⟨?_, ?_, ?_⟩, rfl, rfl, ?_, by decide +kernel⟩
  · have hkept := hright.kept
    rw [hd] at hkept
    exact hkept.now
  · exact (hlive.made.mono hright.log).congr rfl rfl rfl
  · exact fun i _ hi => hright.armed i (Nat.zero_le i) hi
  · change Warm mixPrims demoLayout demoVerified.log b.range _ _
    rw [hrange]
    exact hwarm

/-- The state after 2 ^ 31 - 1 right PINs. -/
theorem exhausted_demo :
    ∃ es w b, PinReach mixPrims demoLayout es w false ∧
      Idle mixPrims demoLayout w uint32Max b demoSecret [1] := by
  obtain ⟨es, b, hr, hidle⟩ := idle_demo
  obtain ⟨w', hr', hidle'⟩ := hidle.verifies demo_valid hr 2147483646 (by decide)
  exact ⟨es, w', b, hr', hidle'⟩

/-- A status call reports all attempts, and the right material is not
accepted. -/
theorem active_pin_exhausted :
    ∃ es w b w₁, PinReach mixPrims demoLayout es w false ∧
      statusCalm mixPrims demoLayout w = .done (⟨.active, 2, b.pinLen⟩, false) w₁ ∧
      Ideal mixPrims w₁.log ∧ Live mixPrims demoLayout w₁ uint32Max b demoSecret [1] ∧
      ∃ u' w₂, verifyCalm mixPrims demoLayout [1] w₁ = .done (.bare .err, u') w₂ := by
  obtain ⟨es, w, b, hr, hidle⟩ := exhausted_demo
  obtain ⟨w₁, hst, hid, hlive, hfail⟩ := hidle.exhausted demo_valid
  exact ⟨es, w, b, w₁, hr, hst, hid, hlive, hfail [1]⟩

end Nixtropic
