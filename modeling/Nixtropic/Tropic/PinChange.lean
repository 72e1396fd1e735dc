import Nixtropic.Tropic.PinGenerations

/-!
A PIN change is atomic.

Wherever a change stops, the record holds the old binding or the new one, and
the slots of that binding are armed. The commit is the first write of the new
record: before it the chip only ever erased, which `Erasing` says of every run
that has written no record.
-/

namespace Nixtropic

open Crash

/-! ### Runs without a record write -/

/-- No record was written between the two states. -/
def Unwritten (w w' : World) : Prop :=
  ∃ l, w'.log = l ++ w.log ∧ ∀ e ∈ l, ∀ slot data, e.op ≠ .rmemWrite slot data

section Unwritten

variable {P : Prims} {p : RecPair}

theorem act_log (f : Fate) (o : Op) (w : World) :
    (act P f o w).2.log = ⟨o, w.rmem, w.mad⟩ :: w.log := by
  have hexec : (exec P o (w.note o)).2.log = ⟨o, w.rmem, w.mad⟩ :: w.log := by
    cases o with
    | rmemWrite slot data =>
        simp only [exec]
        split <;> rfl
    | _ => rfl
  have htear : ∀ left, (tear left o (w.note o)).log = ⟨o, w.rmem, w.mad⟩ :: w.log := by
    intro left
    cases o <;> rfl
  cases o with
  | hmac key msg => rfl
  | _ =>
      cases f with
      | none => exact hexec
      | fail => rfl
      | lost => exact hexec
      | torn left acked => exact htear left
      | cutBefore => rfl
      | cutAfter => exact hexec
      | cutTorn left => exact htear left

/-- A call that writes no record leaves every slot alone, or without one. -/
theorem act_erasing {f : Fate} (hf : f.leaves (Invalid P p)) {o : Op}
    (ho : ∀ slot data, o ≠ .rmemWrite slot data) (w : World) :
    Erasing P p w.rmem (act P f o w).2.rmem := by
  cases o with
  | rmemWrite slot data => exact absurd rfl (ho slot data)
  | rmemErase slot =>
      have hempty : Erasing P p w.rmem (Function.update w.rmem slot .empty) :=
        Erasing.update (.inr (invalid_empty P p))
      cases f with
      | none => exact hempty
      | fail => exact .refl P p _
      | lost => exact hempty
      | torn left acked => exact Erasing.update (.inr hf)
      | cutBefore => exact .refl P p _
      | cutAfter => exact hempty
      | cutTorn left => exact Erasing.update (.inr hf)
  | hmac key msg => exact .refl P p _
  | random len => cases f <;> exact .refl P p _
  | rmemRead slot max => cases f <;> exact .refl P p _
  | macAndDestroy site slot data => cases f <;> exact .refl P p _

theorem run_erasing {α : Type} {fs : List Fate} (hfs : ∀ f ∈ fs, f.leaves (Invalid P p))
    (m : Prog Op Ret α) (w : World) :
    ∃ l, (run (chip P) m fs w).state.log = l ++ w.log ∧
      ((∀ e ∈ l, ∀ slot data, e.op ≠ .rmemWrite slot data) →
        Erasing P p w.rmem (run (chip P) m fs w).state.rmem) := by
  induction m generalizing fs w with
  | pure a => exact ⟨[], rfl, fun _ => .refl P p _⟩
  | call o k ih =>
      have hf : (fs.headD .none).leaves (Invalid P p) := by
        cases fs with
        | nil => trivial
        | cons f fs => exact hfs f List.mem_cons_self
      have hlog := act_log (P := P) (fs.headD .none) o w
      have herase := fun ho => act_erasing (P := P) hf (o := o) ho w
      have hchip : (chip P).act (fs.headD (chip P).quiet) o w = act P (fs.headD .none) o w := rfl
      rw [run_call, hchip]
      rcases hact : act P (fs.headD .none) o w with ⟨_ | r, w₁⟩
      · rw [hact] at hlog herase
        exact ⟨[⟨o, w.rmem, w.mad⟩], hlog, fun hl => herase fun slot data =>
          hl _ List.mem_cons_self slot data⟩
      · rw [hact] at hlog herase
        obtain ⟨l, hl, hrest⟩ := ih r (fun f hf => hfs f (List.mem_of_mem_tail hf)) w₁
        refine ⟨l ++ [⟨o, w.rmem, w.mad⟩], ?_, fun hops => ?_⟩
        · rw [hl, hlog]
          simp
        · have hfirst := herase fun slot data =>
            hops _ (List.mem_append_right l List.mem_cons_self) slot data
          exact hfirst.trans (hrest fun e he => hops e (List.mem_append_left _ he))

/-- A record that is current after erasures only was there before them. -/
theorem Erasing.current {R R' : ℕ → RSlot} {r r' : Bytes} (h : Erasing P p R R')
    (hm : Mirrored P p R r) (hc : Current P p R' r') : r' = r := by
  obtain ⟨hv, ⟨ha, -⟩ | ⟨hb, -⟩⟩ := current_iff.mp hc
  · rcases h p.slotA with hs | hs
    · rw [ha, hm.a] at hs
      injection hs
    · exact absurd ha (hs.ne_data hv)
  · rcases h p.slotB with hs | hs
    · rw [hb, hm.b] at hs
      injection hs
    · exact absurd hb (hs.ne_data hv)

end Unwritten

/-! ### The states after a change -/

/-- Status calls, which may be interrupted, and reboots. -/
inductive Settles (P : Prims) (L : Layout) (w : World) (u : Bool) : World → Bool → Prop
  | refl : Settles P L w u w u
  | status {w' : World} {u' : Bool} {fs : List Fate} (h : Settles P L w u w' u')
      (hfs : ∀ f ∈ fs, L.record.Faults P f) :
      Settles P L w u (run (chip P) ((pinMdKernelStatus P L).run u') fs w').state
        (flagAfter (run (chip P) ((pinMdKernelStatus P L).run u') fs w'))
  | reboot {w' : World} {u' : Bool} (h : Settles P L w u w' u') : Settles P L w u w' false

/-- After a reboot the material `mat` is accepted with the key of `s`, and
`other` is refused. -/
structure Only (P : Prims) (L : Layout) (w : World) (s mat other : Bytes) : Prop where
  accepts : ∃ w', verifyCalm P L mat w = .done (⟨.ok, true, keyK P s⟩, false) w'
  refuses : ∃ reply w', verifyCalm P L other w = .done (reply, false) w' ∧
    (Ideal P w'.log → reply = ⟨.ok, false, zeros⟩)

section Change

variable {P : Prims} {L : Layout} {w : World} {u : Bool} {fs : List Fate} {g : ℕ} {b : Binding}
  {s mat : Bytes}

/-- Settling never changes which material is live, nor its attempts. -/
theorem Settles.live {w' : World} {u' : Bool} (hL : validLayout L = true)
    (h : Live P L w g b s mat) (hs : Settles P L w u w' u') :
    ∃ g' b', Live P L w' g' b' s mat ∧ g' + b'.debt ≤ g + b.debt ∧ b'.next = b.next := by
  induction hs with
  | refl => exact ⟨g, b, h, le_rfl, rfl⟩
  | @status w₁ u₁ fs hs hfs ih =>
      obtain ⟨g₁, b₁, hlive, hg, hn⟩ := ih
      have hset : Settling P L (fun _ _ _ => False) g₁ b₁ w₁
          (run (chip P) ((pinMdKernelStatus P L).run u₁) fs w₁).state :=
        state_among (swp_status (u := u₁) (among_leaves hfs) hL hlive.now)
          (fun _ _ _ h => h.1) fun _ h => h.1
      obtain ⟨g₂, b₂, hlive₂, hg₂, hb₂⟩ := hlive.mono_settling (validLayout_ok hL) hset
      refine ⟨g₂, b₂, hlive₂, hg₂.trans hg, ?_⟩
      rcases hb₂ with rfl | rfl
      · exact hn
      · exact hn
  | reboot hs ih => exact ih

theorem Live.only (hL : validLayout L = true) (h : Live P L w g b s mat)
    (hn : b.next < L.rounds) (hg : g + b.debt + 2 ≤ uint32Max) {other : Bytes}
    (hne : other ≠ mat) : Only P L w s mat other := by
  obtain ⟨w₁, hacc, -⟩ := h.accepts hL hn hg
  obtain ⟨reply, w₂, href, hwhy⟩ := h.refuses hL hn hg hne
  exact ⟨⟨w₁, hacc⟩, reply, w₂, href, fun hid => (hwhy hid).1⟩

/-- The live binding after a change, whatever happened to it. -/
theorem change_live (hL : validLayout L = true) (h : Live P L w g b s mat)
    (hn : b.next + 2 ≤ L.rounds) (hfs : ∀ f ∈ fs, L.record.Faults P f) {new : Bytes}
    {pinLen : UInt8} (hid : Ideal P ((PinCall.change mat new pinLen).run P L u fs w).state.log) :
    ∃ g' b' live, (live = mat ∨ live = new) ∧
      Live P L ((PinCall.change mat new pinLen).run P L u fs w).state g' b' s live ∧
      g' + b'.debt ≤ g + b.debt + 4 ∧ b'.next < L.rounds := by
  have hpos := (validLayout_ok hL).rounds_pos
  have hs : guess P L w.mad b mat = s := guess_right h.made h.armed (by omega)
  let I : World → Bytes → Bytes → Prop := fun _ s' m' => s' = s ∧ m' = new
  have hch : Changing P L I g b pinLen w ((PinCall.change mat new pinLen).run P L u fs w).state :=
    state_among (swp_change (u := u) (among_leaves hfs) hL h.now
      fun s' w₁ w' hr _ => ⟨hr.eq.trans hs, rfl⟩) (fun _ _ _ h => h.1) fun _ h => h
  have hsound : Sound P L (fun s' m' => s' = s ∧ (m' = mat ∨ m' = new))
      ((PinCall.change mat new pinLen).run P L u fs w).state :=
    Sound.via (validLayout_ok hL) (fun w' s' m' _ hI => ⟨hI.1, .inr hI.2⟩) hch.via hid
      (.inr ⟨g, b, s, mat, h.now, ⟨rfl, .inl rfl⟩, h.made, h.armed⟩)
  obtain ⟨g', b', hnow, hg, hb'⟩ := hch.holding
  rcases hsound with hv | ⟨g₁, b₁, s₁, live, hnow₁, ⟨rfl, hlive⟩, hm, ha⟩
  · exact absurd hv hnow.not_vacant
  · obtain ⟨rfl, rfl⟩ := hnow.unique hnow₁
    refine ⟨g', b', live, hlive, ⟨hnow, hm, ha⟩, hg, ?_⟩
    rcases hb' with (rfl | rfl | rfl | rfl) | ⟨-, hnext, -⟩
    · omega
    · change b.next < L.rounds
      omega
    · change b.next + 1 < L.rounds
      omega
    · exact hpos
    · omega

/-- A change that returned `PMD_OK` with the right old PIN installed the new
material. -/
theorem change_done (hL : validLayout L = true) (h : Live P L w g b s mat)
    (hfs : ∀ f ∈ fs, L.record.Faults P f) {new k : Bytes} {pinLen : UInt8} {u' : Bool}
    {w' : World}
    (hrun : (PinCall.change mat new pinLen).run P L u fs w = .done (⟨.ok, true, k⟩, u') w') :
    k = keyK P s ∧ ∃ g' b', Now P L w' g' b' ∧ Made P L w'.log b' s new := by
  have hpost := done_among (swp_change (I := fun _ _ _ => True) (u := u) (among_leaves hfs) hL
    h.now fun _ _ _ _ _ => trivial) hrun
  obtain ⟨-, ⟨s', b', w₁, hreply, -, -, hright, -, -, -, -, hinst⟩ | ⟨hreply, -⟩ |
    ⟨hreply, -⟩ | ⟨hreply, -⟩⟩ := hpost
  · obtain rfl : s' = s := hright.eq.trans (guess_right h.made h.armed hright.left)
    injection hreply with _ _ hk
    exact ⟨hk, _, b', hinst.kept.now, hinst.made⟩
  all_goals
    simp [PmdReply.bare] at hreply

/-- A change that stopped after its verification and before it wrote a record
left the old binding with all its attempts. -/
theorem change_unwritten (hL : validLayout L = true) (h : Live P L w g b s mat)
    (h2 : L.ranges = 2) (hfs : ∀ f ∈ fs, L.record.Faults P f) {new s' : Bytes} {pinLen : UInt8}
    {u₁ : Bool} {w₁ : World}
    (hver : run (chip P) ((verifyS P L mat).run u) fs w = .done (.right s', u₁) w₁)
    (hun : Unwritten w₁ ((PinCall.change mat new pinLen).run P L u fs w).state) {g' : ℕ}
    {b' : Binding} (hnow : Now P L ((PinCall.change mat new pinLen).run P L u fs w).state g' b') :
    b' = { b.settled with next := 0 } := by
  have hpost := done_among (swp_verifyS (I := fun _ _ _ => False) (among_leaves hfs)
    (validLayout_ok hL) h.now) hver
  obtain ⟨-, -, -, -, -, -, hkept, -, -, -⟩ := hpost
  rw [PinCall.run, PinCall.prog, pinMdKernelChange, if_neg (by simp [hL, h2])] at hun hnow
  obtain ⟨n, hrest⟩ := run_stBind_done hver
  rw [hrest] at hun hnow
  obtain ⟨l, hl, herase⟩ := run_erasing (p := L.record)
    (fun f hf => hfs f (List.mem_of_mem_drop hf)) _ w₁
  obtain ⟨l', hl', hops⟩ := hun
  obtain rfl : l = l' := List.append_cancel_right (hl.symm.trans hl')
  obtain ⟨r, hm, -, hparse⟩ := hkept
  obtain ⟨r', hc, -, hparse'⟩ := hnow
  obtain rfl := (herase hops).current hm hc
  exact Option.some.inj (hparse'.symm.trans hparse)

/-- A change interrupted anywhere leaves exactly one of the two materials
working, with the key as before, and settling the pair does not change which.
It is the new one if the call succeeded, and the old one with all attempts if
the call stopped between its verification and the commit. -/
theorem change_atomic (hL : validLayout L = true) (h2 : L.ranges = 2) {es : List Enrolment}
    (hr : PinReach P L es w u) (hb : Now P L w g b) {old new : Bytes}
    (hm : Made P L w.log b s old) (hleft : b.next + 2 ≤ L.rounds) (hne : new ≠ old)
    (hgen : g + b.debt + 6 ≤ uint32Max) (hfs : ∀ f ∈ fs, L.record.Faults P f)
    {pinLen : UInt8} {out : Outcome (PmdReply × Bool) World}
    (hout : (PinCall.change old new pinLen).run P L u fs w = out) (hid : Ideal P out.state.log) :
    ∃ live other, (live = old ∧ other = new ∨ live = new ∧ other = old) ∧
      (∀ w₂ u₂, Settles P L out.state (flagAfter out) w₂ u₂ → Only P L w₂ s live other) ∧
      (∀ k u' w', out = .done (⟨.ok, true, k⟩, u') w' → live = new ∧ k = keyK P s) ∧
      ∀ s' u₁ w₁, run (chip P) ((verifyS P L old).run u) fs w = .done (.right s', u₁) w₁ →
        Unwritten w₁ out.state → live = old ∧
          ∀ w₂ u₂, Settles P L out.state (flagAfter out) w₂ u₂ → ∃ l w₃,
            statusCalm P L w₂ = .done (⟨.active, L.rounds, l⟩, false) w₃ := by
  subst hout
  have hpos := (validLayout_ok hL).rounds_pos
  have hlog : w.log <:+ ((PinCall.change old new pinLen).run P L u fs w).state.log :=
    ((PinCall.change old new pinLen).via hL hfs (hr.known hL)).1.log
  -- in a reachable state the material of the binding is live
  have hlive : Live P L w g b s old := by
    rcases hr.sound hL (hid.anti hlog) with hv | ⟨g₀, b₀, s₀, mat₀, hb₀, -, hm₀, ha⟩
    · exact absurd hv hb.not_vacant
    · obtain ⟨rfl, rfl⟩ := hb.unique hb₀
      obtain ⟨rfl, rfl⟩ := hm₀.unique hpos hm (hid.anti hlog)
      exact ⟨hb, hm, ha⟩
  obtain ⟨g', b', live, hwhich, hlive', hg', hn'⟩ :=
    change_live hL hlive hleft hfs hid
  have hother : ∃ other, (live = old ∧ other = new ∨ live = new ∧ other = old) ∧
      other ≠ live := by
    rcases hwhich with rfl | rfl
    · exact ⟨new, .inl ⟨rfl, rfl⟩, hne⟩
    · exact ⟨old, .inr ⟨rfl, rfl⟩, hne.symm⟩
  obtain ⟨other, hpair, hother⟩ := hother
  refine ⟨live, other, hpair, fun w₂ u₂ hset => ?_, fun k u' w' hrun => ?_,
    fun s' u₁ w₁ hver hun => ?_⟩
  · obtain ⟨g₂, b₂, hlive₂, hg₂, hn₂⟩ := hset.live hL hlive'
    exact hlive₂.only hL (by omega) (by omega) hother
  · obtain ⟨hk, g₁, b₁, hnow₁, hmade₁⟩ := change_done hL hlive hfs hrun
    rw [hrun] at hlive' hid
    obtain ⟨-, rfl⟩ := hlive'.now.unique hnow₁
    exact ⟨(hmade₁.unique hpos hlive'.made hid).2, hk⟩
  · have hb' := change_unwritten hL hlive h2 hfs hver hun hlive'.now
    have hold : Made P L ((PinCall.change old new pinLen).run P L u fs w).state.log b' s old := by
      rw [hb']
      exact (hlive.made.mono hlog).congr rfl rfl rfl
    refine ⟨(hold.unique hpos hlive'.made hid).2, fun w₂ u₂ hset => ?_⟩
    obtain ⟨g₂, b₂, hlive₂, hg₂, hn₂⟩ := hset.live hL hlive'
    obtain ⟨w₃, hst, -⟩ := status_calm hL hlive₂.now (by omega)
    have hzero : b₂.next = 0 := hn₂.trans (by rw [hb'])
    refine ⟨b₂.pinLen, w₃, ?_⟩
    rw [hst]
    simp [Binding.status, hzero, Nat.not_le.mpr hpos]

/-- Reading the pair leaves a live binding as it is. -/
theorem Idle.note_read (h : Idle P L w g b s mat) (max : ℕ) :
    Idle P L (w.note (.rmemRead L.record.slotA max)) g b s mat := by
  have hstale : Stale w (w.note (.rmemRead L.record.slotA max)) :=
    (touches_note (p := L.record) (D := fun _ => True)
      (show PairOp L.record (fun _ => True) (.rmemRead L.record.slotA max) from .inl rfl) w).stale
  have hlog : w.log <:+ (w.note (.rmemRead L.record.slotA max)).log := List.suffix_cons _ _
  exact ⟨⟨h.live.now.congr rfl, h.live.made.mono hlog, h.live.armed⟩, h.pending, h.next,
    h.warm.mono hlog, hstale.ideal h.ideal⟩

end Change

/-- The power goes when the change is about to ready the slots for the new material. -/
def demoCut : List Fate := List.replicate 30 .none ++ [.cutBefore]

def demoCutChange : Outcome (PmdReply × Bool) World :=
  (PinCall.change [1] [2] 1).run mixPrims demoLayout false demoCut demoFirst

/-- Its own verification of the old material. -/
def demoOldRight : Outcome (Verdict × Bool) World :=
  run (chip mixPrims) ((verifyS mixPrims demoLayout [1]).run false) demoCut demoFirst

/-- After the reboot a status call settles the pair. -/
def demoSettled : World :=
  (run (chip mixPrims) ((pinMdKernelStatus mixPrims demoLayout).run false) []
    demoCutChange.state).state

theorem demoCut_faults : ∀ f ∈ demoCut, demoLayout.record.Faults mixPrims f := by
  intro f hf
  rcases List.mem_append.mp hf with hf | hf
  · rw [List.eq_of_mem_replicate hf]
    trivial
  · rw [List.mem_singleton.mp hf]
    trivial

theorem demoOldRight_right :
    demoOldRight = .done (.right demoSecret, false) demoOldRight.state :=
  eq_done (by decide +kernel)

theorem demoCut_unwritten : Unwritten demoOldRight.state demoCutChange.state := by
  obtain ⟨n, hn⟩ := run_stBind_done demoOldRight_right
  obtain ⟨k, hk⟩ : ∃ k : Verdict → PairM PmdReply,
      pinMdKernelChange mixPrims demoLayout [1] [2] 1 =
        verifyS mixPrims demoLayout [1] >>= k := ⟨_, if_neg (by decide)⟩
  have hrun : demoCutChange = run (chip mixPrims) ((k (.right demoSecret)).run false)
      (demoCut.drop n) demoOldRight.state := by
    rw [← hn k, ← hk]
    rfl
  obtain ⟨l, hl, -⟩ := run_erasing (P := mixPrims)
    (fun f hf => demoCut_faults f (List.mem_of_mem_drop (i := n) hf))
    ((k (.right demoSecret)).run false) demoOldRight.state
  rw [← hrun] at hl
  have hops : (demoCutChange.state.log.take (demoCutChange.state.log.length -
      demoOldRight.state.log.length)).all (fun e =>
        match e.op with
        | .rmemWrite _ _ => false
        | _ => true) = true := by decide +kernel
  rw [hl, List.length_append, Nat.add_sub_cancel, List.take_left, List.all_eq_true] at hops
  refine ⟨l, hl, fun e he slot data hop => ?_⟩
  have h := hops e he
  rw [hop] at h
  cases h

/-- The change was cut before it wrote a record: after the reboot the old material works,
with all attempts, and the new one does not. -/
theorem change_atomic_demo :
    returnOf demoCutChange = none ∧
      Only mixPrims demoLayout demoSettled demoSecret [1] [2] ∧
      ∃ l w, statusCalm mixPrims demoLayout demoSettled =
        .done (⟨.active, demoLayout.rounds, l⟩, false) w := by
  obtain ⟨b, -, -, hinst⟩ := first_demo_run
  have hid : Ideal mixPrims demoCutChange.state.log := by decide +kernel
  have hsettles : Settles mixPrims demoLayout demoCutChange.state (flagAfter demoCutChange)
      demoSettled _ := .status (.reboot .refl) (by simp)
  obtain ⟨live, other, hpair, honly, -, hold⟩ := change_atomic demo_valid rfl first_demo
    hinst.kept.now hinst.made (by rw [hinst.next]; decide) (by decide : ([2] : Bytes) ≠ [1])
    (by rw [debt_of_settled hinst.pending]; decide) demoCut_faults rfl hid
  obtain ⟨rfl, hfull⟩ := hold _ _ _ demoOldRight_right demoCut_unwritten
  obtain ⟨-, rfl⟩ | ⟨hne, -⟩ := hpair
  · exact ⟨by decide +kernel, honly _ _ hsettles, hfull _ _ hsettles⟩
  · cases hne

/-- A change that is cut at its first call, with a record of the last
generation: after a reboot neither material works. -/
theorem change_exhausted :
    ∃ es w b w₁, PinReach mixPrims demoLayout es w false ∧
      Live mixPrims demoLayout w uint32Max b demoSecret [1] ∧
      b.next + 2 ≤ demoLayout.rounds ∧
      (PinCall.change [1] [2] 1).run mixPrims demoLayout false [.cutBefore] w = .cut w₁ ∧
      Ideal mixPrims w₁.log ∧
      ∃ w₂, statusCalm mixPrims demoLayout w₁ = .done (⟨.active, 2, b.pinLen⟩, false) w₂ ∧
        (∃ u' w₃, verifyCalm mixPrims demoLayout [1] w₂ = .done (.bare .err, u') w₃) ∧
        ∃ u' w₃, verifyCalm mixPrims demoLayout [2] w₂ = .done (.bare .err, u') w₃ := by
  obtain ⟨es, w, b, hr, hidle⟩ := exhausted_demo
  have hcut : (PinCall.change [1] [2] 1).run mixPrims demoLayout false [.cutBefore] w =
      .cut (w.note (.rmemRead demoLayout.record.slotA slotMax)) := rfl
  have hidle₁ := hidle.note_read slotMax
  obtain ⟨w₂, hst, -, -, hfail⟩ := hidle₁.exhausted demo_valid
  exact ⟨es, w, b, _, hr, hidle.live, by rw [hidle.next]; decide, hcut, hidle₁.ideal, w₂, hst,
    hfail [1], hfail [2]⟩

end Nixtropic
