import Nixtropic.Tropic.PinSetupLogic

/-!
Two invariants of the steps.

`Sound` is what keeps a PIN working: the binding in the record was made for
some `s` and material, and every slot from `next` on is armed with that `s`.
It needs that the calls of the run do not collide, because a slot is armed
again with an `s` that was only compared by its tag.

`Bounded` is what keeps a PIN from being guessed: the attempts since the last
right PIN are at most `next`. It needs nothing of the functions.
-/

namespace Nixtropic

open Crash

section Invariants

variable {P : Prims} {L : Layout} {I : World → Bytes → Bytes → Prop} {w w' : World}

/-- What a pair held and still holds is the same binding. -/
theorem Now.of_holds {o : Option Bytes} {g : ℕ} {b : Binding} (h : Now P L w g b)
    (ho : Holds P L.record w.rmem o) (ho' : Holds P L.record w'.rmem o) : Now P L w' g b := by
  cases o with
  | none => exact absurd ho h.not_vacant
  | some r =>
      obtain ⟨r', hr, hg, hb⟩ := h
      obtain rfl := hr.unique ho
      exact ⟨r', ho', hg, hb⟩

theorem Vacant.of_holds {o : Option Bytes} (h : Vacant P L w)
    (ho : Holds P L.record w.rmem o) (ho' : Holds P L.record w'.rmem o) : Vacant P L w' := by
  cases o with
  | none => exact ho'
  | some r =>
      obtain ⟨hv, ⟨hr, -⟩ | ⟨hr, -⟩⟩ := current_iff.mp ho
      · exact absurd hr (h.1.ne_data hv)
      · exact absurd hr (h.2.ne_data hv)

/-! ### The binding works -/

/-- No binding, or one made for a pair in `T` whose slots from `next` on are
armed. -/
def Sound (P : Prims) (L : Layout) (T : Bytes → Bytes → Prop) (w : World) : Prop :=
  Vacant P L w ∨ ∃ g b s mat, Now P L w g b ∧ T s mat ∧ Made P L w.log b s mat ∧
    Armed P L w.mad b.range b.next s

theorem Sound.mono {T T' : Bytes → Bytes → Prop} (h : Sound P L T w)
    (hT : ∀ s mat, T s mat → T' s mat) : Sound P L T' w := by
  rcases h with h | ⟨g, b, s, mat, hb, ht, hm, ha⟩
  · exact .inl h
  · exact .inr ⟨g, b, s, mat, hb, hT s mat ht, hm, ha⟩

theorem Armed.mono {mad : ℕ → Bytes} {range next next' : ℕ} {s : Bytes}
    (h : Armed P L mad range next s) (hn : next ≤ next') : Armed P L mad range next' s :=
  fun i hi hr => h i (hn.trans hi) hr

theorem Armed.update {mad : ℕ → Bytes} {range next slot : ℕ} {s x : Bytes}
    (h : Armed P L mad range next s)
    (hx : ∀ i, next ≤ i → i < L.rounds → slot = mdSlot L range i →
      x = mad slot ∨ x = P.f1 (keyU P s) slot) :
    Armed P L (Function.update mad slot x) range next s := by
  intro i hi hr
  by_cases hs : mdSlot L range i = slot
  · rw [hs, Function.update_self]
    rcases hx i hi hr hs.symm with hx | hx
    · rw [hx, ← hs]
      exact h i hi hr
    · exact hx
  · rw [Function.update_of_ne hs]
    exact h i hi hr

/-- A binding that differs in its counters only was made for the same pair. -/
theorem Made.congr {l : List Event} {b b' : Binding} {s mat : Bytes} (h : Made P L l b s mat)
    (hrange : b'.range = b.range) (htag : b'.tag = b.tag) (hci : b'.ci = b.ci) :
    Made P L l b' s mat where
  s_length := h.s_length
  tag := htag.trans h.tag
  ci := by rw [hrange, hci]; exact h.ci
  asked_tag := h.asked_tag
  asked_u := h.asked_u
  asked_v := h.asked_v
  asked_ci := by rw [hrange]; exact h.asked_ci
  called := by rw [hrange]; exact h.called
  armed := by rw [hrange]; exact h.armed

/-- Without collisions the tag determines `s`. -/
theorem Made.eq_of_tag {l : List Event} {b : Binding} {s mat s' : Bytes}
    (h : Made P L l b s mat) (hid : Ideal P l) (htag : keyTag P s' = b.tag)
    (hasked : Asked l (.hmac s' [0x00])) : s' = s :=
  (hid.hmac hasked h.asked_tag (htag.trans h.tag)).1

theorem Sound.step {T : Bytes → Bytes → Prop} (hL : L.Ok)
    (hT : ∀ w s mat, Ideal P w.log → I w s mat → T s mat) {x y : World × Bool}
    (hstep : PinStep P L I x y) (hid : Ideal P y.1.log) (h : Sound P L T x.1) :
    Sound P L T y.1 := by
  have hlog := hstep.log
  cases hstep with
  | pair ho ht ho' =>
      rcases h with h | ⟨g, b, s, mat, hb, hts, hm, ha⟩
      · exact .inl (h.of_holds ho ho')
      · refine .inr ⟨g, b, s, mat, hb.of_holds ho ho', hts, hm.mono hlog, ?_⟩
        rw [ht.mad]
        exact ha
  | @turn w w' c c' d g b b' hb hturn ht hb' =>
      rcases h with h | ⟨g₀, b₀, s, mat, hb₀, hts, hm, ha⟩
      · exact absurd h hb.not_vacant
      · obtain ⟨rfl, rfl⟩ := hb.unique hb₀
        rcases hb' with ⟨hnew, -⟩ | ⟨hold, -⟩
        · cases hturn with
          | settled hp hret =>
              refine .inr ⟨_, _, s, mat, hnew, hts, (hm.mono hlog).congr rfl rfl rfl, ?_⟩
              rw [ht.mad]
              exact ha
          | reserved hp hn =>
              refine .inr ⟨_, _, s, mat, hnew, hts, (hm.mono hlog).congr rfl rfl rfl, ?_⟩
              rw [ht.mad]
              exact ha.mono (Nat.le_succ _)
          | @restored s' hp htag hasked harmed hprobes =>
              obtain rfl := hm.eq_of_tag (hid.anti hlog) htag hasked
              refine .inr ⟨_, _, s', mat, hnew, hts, (hm.mono hlog).congr rfl rfl rfl, ?_⟩
              rw [ht.mad]
              exact harmed
          | @switched _ s' mat' hp hr hrange hnext hmade harmed hI =>
              refine .inr ⟨_, _, s', mat', hnew, hT _ _ _ (hid.anti hlog) hI, hmade.mono hlog, ?_⟩
              rw [ht.mad, hnext]
              exact harmed
        · refine .inr ⟨_, _, s, mat, hold, hts, hm.mono hlog, ?_⟩
          rw [ht.mad]
          exact ha
  | @first w w' c b s mat ho hrange hp hnext hmade harmed hI ht hb =>
      rcases hb with hb | hv
      · refine .inr ⟨1, b, s, mat, hb, hT _ _ _ (hid.anti hlog) hI, hmade.mono hlog, ?_⟩
        rw [ht.mad, hrange, hnext]
        exact harmed
      · exact .inl hv
  | hmac key msg =>
      rcases h with h | ⟨g, b, s, mat, hb, hts, hm, ha⟩
      · exact .inl h
      · exact .inr ⟨g, b, s, mat, hb, hts, hm.mono hlog, ha⟩
  | random len n =>
      rcases h with h | ⟨g, b, s, mat, hb, hts, hm, ha⟩
      · exact .inl h
      · exact .inr ⟨g, b, s, mat, hb, hts, hm.mono hlog, ha⟩
  | @mad w c site slot data x hok hx =>
      rcases h with h | ⟨g, b, s, mat, hb, hts, hm, ha⟩
      · exact .inl h
      · refine .inr ⟨g, b, s, mat, hb.congr rfl, hts, hm.mono hlog, ?_⟩
        have hbr := hb.wf.range
        refine ha.update fun i hi hr hslot => ?_
        cases hok with
        | @retire _ g' b' j _ hb' hp hj =>
            obtain ⟨-, rfl⟩ := hb.unique hb'
            have h2 := hb.wf.pending hp
            have := (mdSlot_inj hL (by omega) hbr hj hr hslot).1
            omega
        | @arm _ range j _ hfree hj =>
            rcases hfree with ⟨hv, -⟩ | ⟨g', b', hb', hp, h2, rfl⟩
            · exact absurd hv hb.not_vacant
            · obtain ⟨-, rfl⟩ := hb.unique hb'
              have := (mdSlot_inj hL (by omega) hbr hj hr hslot).1
              omega
        | @probe g' b' j _ hb' hp hn hj =>
            obtain ⟨-, rfl⟩ := hb.unique hb'.now
            have := (mdSlot_inj hL hbr hbr hj hr hslot).2
            omega
        | @restore _ g' b' s' j hb' hp htag hasked hj =>
            obtain ⟨-, rfl⟩ := hb.unique hb'.now
            obtain rfl := hm.eq_of_tag (hid.anti hlog) htag hasked
            exact hx

/-- The run lemma: soundness is kept by any number of steps. -/
theorem Sound.via {T : Bytes → Bytes → Prop} (hL : L.Ok)
    (hT : ∀ w s mat, Ideal P w.log → I w s mat → T s mat) (hvia : Via P L I w w')
    (hid : Ideal P w'.log) (h : Sound P L T w) : Sound P L T w' := by
  obtain ⟨c', hpath⟩ := hvia false
  suffices hall : ∀ y, PinPath P L I (w, false) y → Ideal P y.1.log → Sound P L T y.1 from
    hall _ hpath hid
  intro y hy
  induction hy with
  | refl => exact fun _ => h
  | tail _ hstep ih => exact fun hid' => Sound.step hL hT hstep hid' (ih (hid'.anti hstep.log))

/-! ### The attempts are bounded -/

/-- When the PIN was tried, both copies had the attempt reserved. -/
def Event.Reserved (P : Prims) (L : Layout) (e : Event) : Prop :=
  ∃ r b i data, Mirrored P L.record e.rmem r ∧ parseBinding L (payloadOf r) = some b ∧
    i < b.next ∧ e.op = .macAndDestroy .probe (mdSlot L b.range i) data

/-- A restore call on the range of the binding that both copies hold, with the `u` of an
`s` that was found before it to have the binding's tag. -/
def Event.Matched (P : Prims) (L : Layout) (e : Event) (past : List Event) : Prop :=
  ∃ r b s i, Mirrored P L.record e.rmem r ∧ parseBinding L (payloadOf r) = some b ∧
    keyTag P s = b.tag ∧ Asked past (.hmac s [0x00]) ∧ i < L.rounds ∧
    e.op = .macAndDestroy .restore (mdSlot L b.range i) (keyU P s)

/-- No restore call comes but behind a tag that was found right. -/
def Earned (P : Prims) (L : Layout) (log : List Event) : Prop :=
  ∀ post e past, log = post ++ e :: past → e.isRestore = true → e.Matched P L past

/-- The attempts since the last right PIN are paid for by `next`, one more
being reserved when `c` is set. -/
structure Bounded (P : Prims) (L : Layout) (w : World) (c : Bool) : Prop where
  count : ∀ g b, Now P L w g b → probes w.log + c.toNat ≤ b.next
  total : probes w.log ≤ L.rounds
  reserved : ∀ e ∈ w.log, e.isProbe = true → e.Reserved P L
  earned : Earned P L w.log

theorem Bounded.flag {c : Bool} (h : Bounded P L w c) : Bounded P L w false :=
  ⟨fun g b hb => (Nat.le_add_right _ _).trans (h.count g b hb), h.total, h.reserved, h.earned⟩

theorem Touches.reserved {p : RecPair} {D : Bytes → Prop} (h : Touches p D w w')
    (hw : ∀ e ∈ w.log, e.isProbe = true → e.Reserved P L) :
    ∀ e ∈ w'.log, e.isProbe = true → e.Reserved P L := by
  obtain ⟨l, hl, hops⟩ := h.log
  intro e he hprobe
  rw [hl] at he
  rcases List.mem_append.mp he with he | he
  · rw [(PairOp.not_mad (hops e he)).1] at hprobe
    cases hprobe
  · exact hw e he hprobe

theorem reserved_cons {e : Event} (he : e.isProbe = true → e.Reserved P L)
    (hw : ∀ e ∈ w.log, e.isProbe = true → e.Reserved P L) :
    ∀ d ∈ e :: w.log, d.isProbe = true → d.Reserved P L := by
  intro d hd hprobe
  rcases List.mem_cons.mp hd with rfl | hd
  · exact he hprobe
  · exact hw d hd hprobe

theorem Earned.cons {e : Event} {log : List Event} (h : Earned P L log)
    (he : e.isRestore = true → e.Matched P L log) : Earned P L (e :: log) := by
  intro post d past hlog hd
  cases post with
  | nil =>
      cases hlog
      exact he hd
  | cons x post =>
      rw [List.cons_append, List.cons.injEq] at hlog
      exact h post d past hlog.2 hd

theorem Touches.earned {p : RecPair} {D : Bytes → Prop} (h : Touches p D w w')
    (hw : Earned P L w.log) : Earned P L w'.log := by
  obtain ⟨l, hl, hops⟩ := h.log
  rw [hl]
  clear hl
  induction l with
  | nil => exact hw
  | cons e l ih =>
      obtain ⟨he, hrest⟩ := List.forall_mem_cons.mp hops
      refine (ih hrest).cons fun hrestore => ?_
      rw [(PairOp.not_mad he).2] at hrestore
      cases hrestore

theorem Bounded.step (hI : ∀ w s mat, I w s mat → probes w.log = 0) {x y : World × Bool}
    (hstep : PinStep P L I x y) (h : Bounded P L x.1 x.2) : Bounded P L y.1 y.2 := by
  cases hstep with
  | pair ho ht ho' =>
      refine ⟨fun g b hb => ?_, ht.silent.probes ▸ h.total, ht.reserved h.reserved,
        ht.earned h.earned⟩
      rw [ht.silent.probes]
      exact h.count g b (hb.of_holds ho' ho)
  | @turn w w' c c' d g b b' hb hturn ht hb' =>
      refine ⟨fun g₁ b₁ hb₁ => ?_, ht.silent.probes ▸ h.total, ht.reserved h.reserved,
        ht.earned h.earned⟩
      have hcount := h.count g b hb
      simp only [ht.silent.probes]
      rcases hb' with ⟨hnew, rfl⟩ | ⟨hold, rfl⟩
      · obtain ⟨rfl, rfl⟩ := hb₁.unique hnew
        cases hturn with
        | settled hp hret => exact (Nat.le_add_right _ _).trans hcount
        | reserved hp hn => exact Nat.succ_le_succ ((Nat.le_add_right _ _).trans hcount)
        | restored hp htag hasked harmed hprobes => simp [hprobes]
        | switched hp hr hrange hnext hmade harmed hinst => simp [hI _ _ _ hinst]
      · obtain ⟨rfl, rfl⟩ := hb₁.unique hold
        exact hcount
  | @first w w' c b s mat ho hrange hp hnext hmade harmed hinst ht hb =>
      refine ⟨fun g₁ b₁ hb₁ => ?_, ht.silent.probes ▸ h.total, ht.reserved h.reserved,
        ht.earned h.earned⟩
      simp [ht.silent.probes, hI _ _ _ hinst]
  | hmac key msg =>
      exact ⟨fun g b hb => h.count g b hb, h.total, reserved_cons (fun h => by cases h) h.reserved,
        h.earned.cons fun h => by cases h⟩
  | random len n =>
      exact ⟨fun g b hb => h.count g b hb, h.total, reserved_cons (fun h => by cases h) h.reserved,
        h.earned.cons fun h => by cases h⟩
  | @mad w c site slot data x hok hx =>
      have hnow : ∀ {g b}, Now P L ((w.note (.macAndDestroy site slot data)).setMad slot x) g b →
          Now P L w g b := fun hb => hb.congr rfl
      cases hok with
      | retire hb hp hi =>
          refine ⟨fun g₁ b₁ hb₁ => ?_, h.total, reserved_cons (fun h => by cases h) h.reserved,
            h.earned.cons fun h => by cases h⟩
          simpa [probes, Event.isProbe, Event.isRestore] using h.count _ _ (hnow hb₁)
      | arm hfree hi =>
          refine ⟨fun g₁ b₁ hb₁ => ?_, h.total, reserved_cons (fun h => by cases h) h.reserved,
            h.earned.cons fun h => by cases h⟩
          simpa [probes, Event.isProbe, Event.isRestore] using h.count _ _ (hnow hb₁)
      | @probe g b i _ hb hp hn hi =>
          have hcount : probes w.log + 1 ≤ b.next := h.count g b hb.now
          refine ⟨fun g₁ b₁ hb₁ => ?_, ?_, reserved_cons (fun _ => ?_) h.reserved,
            h.earned.cons fun h => by cases h⟩
          · obtain ⟨-, rfl⟩ := hb.now.unique (hnow hb₁)
            simpa [probes, Event.isProbe, Event.isRestore] using hcount
          · simp only [World.setMad_log, World.note_log, probes, Event.isProbe, Event.isRestore]
            have := hb.now.wf.next
            simp only [Bool.false_eq_true, if_false, if_true]
            omega
          · obtain ⟨r, hm, -, hparse⟩ := hb
            exact ⟨r, b, i, data, hm, hparse, by omega, rfl⟩
      | @restore _ g b s i hb hp htag hasked hi =>
          refine ⟨fun g₁ b₁ hb₁ => ?_, ?_, reserved_cons (fun h => by cases h) h.reserved,
            h.earned.cons fun _ => ?_⟩
          · simp [probes, Event.isRestore]
          · simp [probes, Event.isRestore]
          · obtain ⟨r, hm, -, hparse⟩ := hb
            exact ⟨r, b, s, i, hm, hparse, htag, hasked, hi, rfl⟩

/-- The run lemma for the attempt bound. -/
theorem Bounded.via (hI : ∀ w s mat, I w s mat → probes w.log = 0) (hvia : Via P L I w w')
    (h : Bounded P L w false) : Bounded P L w' false := by
  obtain ⟨c', hpath⟩ := hvia false
  suffices hall : ∀ y, PinPath P L I (w, false) y → Bounded P L y.1 y.2 from
    (hall _ hpath).flag
  intro y hy
  induction hy with
  | refl => exact h
  | tail _ hstep ih => exact Bounded.step hI hstep ih

end Invariants

end Nixtropic
