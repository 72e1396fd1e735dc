import Nixtropic.Presence.Check

/-!
One press, one consent.

A check that returns `UP_OK` began with the button released and saw it pressed
later, so that ten HIGH samples came to their end in between. Two such checks
do not overlap: after the first has seen the button pressed the second saw it
released, so that ten LOW samples lie between the two presses.
-/

namespace Nixtropic.Presence

/-- Ten equal samples are not followed by ten others before these are all
there. -/
theorem TenAt.apart {samples : List Bool} {k j : ℕ} {raw : Bool} (hk : TenAt samples k raw)
    (hj : TenAt samples j (!raw)) (hlt : k < j) (hlen : j ≤ samples.length) :
    k + debounceThresholdMs ≤ j := by
  by_contra hcon
  have hdrop : (upTo j samples).drop (j - k) = upTo k samples := by
    rw [upTo, List.drop_drop, upTo]
    congr 1
    omega
  -- the newest sample at `k` is one of the ten at `j`
  have hnew : (upTo k samples)[0]? = some raw := by
    have h := congrArg (·[0]?) hk
    simpa [debounceThresholdMs] using h
  have hold : (upTo j samples)[j - k]? = some (!raw) := by
    have h := congrArg (·[j - k]?) hj
    simp only [debounceThresholdMs] at h hcon
    rw [List.getElem?_take_of_lt (by omega), List.getElem?_replicate, if_pos (by omega)] at h
    exact h
  rw [← hdrop, List.getElem?_drop, Nat.add_zero, hold] at hnew
  simp at hnew

/-- The press that a result stands for: the button was released at the start,
and `k` samples were taken when it was reported pressed, ten HIGH ones last. -/
structure FreshPress (samples : List Bool) (r : Result) (k : ℕ) : Prop where
  released : pressedAt samples r.began = false
  after : r.began < k
  before : k ≤ r.ended
  ten : TenAt samples k true
  edge : pressedAt samples (k - 1) = false ∧ pressedAt samples k = true

/-- The check saw the button released at `n` and pressed later. -/
def Saw (samples : List Bool) (n e : ℕ) : Prop :=
  pressedAt samples n = false ∧ e ≤ samples.length ∧
    ∃ m, n ≤ m ∧ m ≤ e ∧ pressedAt samples m = true

theorem Saw.cons {samples : List Bool} {n e : ℕ} (h : Saw samples n e) (raw : Bool) :
    Saw (raw :: samples) n e := by
  obtain ⟨hn, he, m, hnm, hme, hm⟩ := h
  refine ⟨?_, Nat.le_succ_of_le he, m, hnm, hme, ?_⟩
  · rw [pressedAt_cons (by omega)]
    exact hn
  · rw [pressedAt_cons (by omega)]
    exact hm

theorem Saw.fresh {samples : List Bool} {r : Result} (h : Saw samples r.began r.ended) :
    ∃ k, FreshPress samples r k := by
  obtain ⟨hn, he, m, hnm, hme, hm⟩ := h
  have hsum : r.began + (m - r.began) = m := by omega
  obtain ⟨k, hbk, hkm, hten, hbefore, hk⟩ := exists_change samples true
    (m - r.began) (by omega) hn (by rw [hsum]; exact hm)
  exact ⟨k, hn, hbk, by omega, hten, hbefore, hk⟩

/-- What holds of the waiting check. -/
structure Waits (s : State) (w : Wait) : Prop where
  began : w.began ≤ s.samples.length
  released : pressedAt s.samples w.began = false
  saw : w.pc = .leave true → Saw s.samples w.began s.samples.length
  after : ∀ r ∈ s.results, r.value = .ok → r.ended ≤ w.began

/-- The checks so far. -/
structure Inv (s : State) : Prop where
  button : s.button = debounced s.samples
  awaiting : s.awaiting = s.wait.isSome
  waits : ∀ w ∈ s.wait, Waits s w
  ended : ∀ r ∈ s.results, r.ended ≤ s.samples.length
  saw : ∀ r ∈ s.results, r.value = .ok → Saw s.samples r.began r.ended
  apart : s.results.Pairwise fun r' r => r'.value = .ok → r.value = .ok → r.ended ≤ r'.began

theorem Inv.pressed {s : State} (h : Inv s) :
    s.button.pressed = pressedAt s.samples s.samples.length := by
  rw [h.button, pressedAt, upTo_length]

theorem Waits.sample {s : State} {w : Wait} (h : Waits s w) (raw : Bool) :
    Waits (sysTick raw s) w where
  began := Nat.le_succ_of_le h.began
  released := by
    show pressedAt (raw :: s.samples) w.began = false
    rw [pressedAt_cons h.began]
    exact h.released
  saw := by
    intro hpc
    obtain ⟨hn, he, m, hnm, hme, hm⟩ := (h.saw hpc).cons raw
    exact ⟨hn, Nat.le_refl _, m, hnm, Nat.le_succ_of_le hme, hm⟩
  after := h.after

theorem Inv.sample {s : State} (h : Inv s) (raw : Bool) : Inv (sysTick raw s) where
  button := by
    show systickTick raw s.button = debounced (raw :: s.samples)
    rw [h.button, debounced]
  awaiting := h.awaiting
  waits := fun w hw => (h.waits w hw).sample raw
  ended := fun r hr => Nat.le_succ_of_le (h.ended r hr)
  saw := fun r hr hok => (h.saw r hr hok).cons raw
  apart := h.apart

/-- A check that returns anything but `UP_OK`. -/
theorem Inv.note {s : State} (h : Inv s) (owner : Owner) (value : UpResult) (hvalue : value ≠ .ok)
    (began : ℕ) : Inv (s.note owner value began) where
  button := h.button
  awaiting := h.awaiting
  waits := by
    intro w hw
    have hwait := h.waits w hw
    refine ⟨hwait.began, hwait.released, hwait.saw, ?_⟩
    intro r hr hok
    rcases List.mem_cons.mp hr with rfl | hr
    · exact absurd hok hvalue
    · exact hwait.after r hr hok
  ended := by
    intro r hr
    rcases List.mem_cons.mp hr with rfl | hr
    · exact Nat.le_refl _
    · exact h.ended r hr
  saw := by
    intro r hr hok
    rcases List.mem_cons.mp hr with rfl | hr
    · exact absurd hok hvalue
    · exact h.saw r hr hok
  apart := by
    refine List.pairwise_cons.mpr ⟨?_, h.apart⟩
    intro r _ hok
    exact absurd hok hvalue

theorem Inv.call {s : State} (h : Inv s) (owner : Owner) (timeoutMs : ℕ) :
    Inv (userPresenceCheck owner timeoutMs s) := by
  rw [userPresenceCheck]
  split
  · exact h.note owner .fail nofun _
  · split
    · exact h.note owner .cancel nofun _
    · split
      · exact h.note owner .fail nofun _
      · rename_i hpressed
        refine ⟨h.button, rfl, ?_, h.ended, h.saw, h.apart⟩
        rintro w ⟨⟩
        refine ⟨Nat.le_refl _, ?_, nofun, fun r hr _ => h.ended r hr⟩
        rw [h.pressed] at hpressed
        simpa using hpressed

/-- The waiting check moves on within its loop. -/
theorem Inv.move {s : State} (h : Inv s) {w : Wait} (hw : s.wait = some w) {pc : Pc}
    (hpc : pc = .leave true → s.button.pressed = true) :
    Inv { s with wait := some { w with pc := pc } } := by
  have hwait := h.waits w hw
  refine ⟨h.button, ?_, ?_, h.ended, h.saw, h.apart⟩
  · rw [h.awaiting, hw]
    rfl
  · rintro _ ⟨⟩
    refine ⟨hwait.began, hwait.released, ?_, hwait.after⟩
    intro hleave
    have hp := hpc hleave
    rw [h.pressed] at hp
    exact ⟨hwait.released, Nat.le_refl _, _, hwait.began, Nat.le_refl _, hp⟩

/-- The waiting check returns. -/
theorem Inv.leave {s : State} (h : Inv s) {w : Wait} (hw : s.wait = some w) {ok : Bool}
    (hpc : w.pc = .leave ok) :
    Inv (State.note { s with awaiting := false, wait := none } w.owner (outcome ok s.cancel)
      w.began) := by
  have hwait := h.waits w hw
  have hidle : Inv { s with awaiting := false, wait := none } :=
    ⟨h.button, rfl, nofun, h.ended, h.saw, h.apart⟩
  cases ok with
  | false =>
      apply hidle.note
      rw [outcome]
      cases s.cancel <;> nofun
  | true =>
      refine ⟨h.button, rfl, nofun, ?_, ?_, List.pairwise_cons.mpr ⟨?_, h.apart⟩⟩
      · intro r hr
        rcases List.mem_cons.mp hr with rfl | hr
        · exact Nat.le_refl _
        · exact h.ended r hr
      · intro r hr hok
        rcases List.mem_cons.mp hr with rfl | hr
        · exact hwait.saw hpc
        · exact h.saw r hr hok
      · exact fun r hr _ hok => hwait.after r hr hok

theorem Inv.go {s : State} (h : Inv s) {w : Wait} (hw : s.wait = some w) : Inv (advance w s) := by
  rw [advance]
  split
  · split
    · exact h.move hw nofun
    · exact h.move hw nofun
  · exact h.move hw nofun
  · apply h.move hw
    split <;> nofun
  · apply h.move hw
    split
    · rename_i hp
      exact fun _ => hp
    · nofun
  · rename_i ok hpc
    exact h.leave hw hpc

/-- The latch says nothing of the button. -/
theorem Inv.latch {s : State} (h : Inv s) (c : Bool) : Inv { s with cancel := c } := by
  refine ⟨h.button, h.awaiting, ?_, h.ended, h.saw, h.apart⟩
  intro w hw
  have hwait := h.waits w hw
  exact ⟨hwait.began, hwait.released, hwait.saw, hwait.after⟩

theorem inv_init : Inv .init := by
  refine ⟨rfl, rfl, ?_, ?_, ?_, .nil⟩
  · intro w hw
    cases hw
  · intro r hr
    cases hr
  · intro r hr
    cases hr

theorem inv_step {s : State} (h : Inv s) (a : Act) : Inv (step s a) := by
  cases a with
  | sample raw => exact h.sample raw
  | cancel => exact h.latch true
  | clearCancel => exact h.latch false
  | call owner timeoutMs => exact h.call owner timeoutMs
  | go =>
      rw [step]
      cases hw : s.wait with
      | none => exact h
      | some w => exact h.go hw

theorem inv_run (acts : List Act) : Inv (system.run acts) :=
  Runs.System.run_keeps (M := system) (I := Inv) inv_init (fun _ a h => inv_step h a) acts

/-- Every `UP_OK` stands for a press of its own, reported during a check that
began with the button released; and between the presses of two of them there
are ten LOW samples, all before the later check began. -/
theorem consents_are_fresh (acts : List Act) :
    (∀ r ∈ (system.run acts).results, r.value = .ok →
      ∃ k, FreshPress (system.run acts).samples r k) ∧
    (system.run acts).results.Pairwise fun r' r => r'.value = .ok → r.value = .ok →
      ∀ k k', FreshPress (system.run acts).samples r k →
        FreshPress (system.run acts).samples r' k' →
        ∃ j, k + debounceThresholdMs ≤ j ∧ TenAt (system.run acts).samples j false ∧
          j ≤ r'.began ∧ j + debounceThresholdMs ≤ k' := by
  have h := inv_run acts
  generalize system.run acts = s at h ⊢
  refine ⟨fun r hr hok => (h.saw r hr hok).fresh, ?_⟩
  refine h.apart.imp_of_mem ?_
  intro r' r hr' _ hapart hok' hok k k' hk hk'
  have hle := hapart hok' hok
  have hlen := h.ended r' hr'
  have hkr := hk.before
  have hrk := hk'.after
  have hkr' := hk'.before
  have hsum : k + (r'.began - k) = r'.began := by omega
  obtain ⟨j, hkj, hjr, hten, -, -⟩ := exists_change s.samples false
    (r'.began - k) (by omega) hk.edge.2 (by rw [hsum]; exact hk'.released)
  exact ⟨j, hk.ten.apart hten hkj (by omega), hten, by omega,
    hten.apart hk'.ten (by omega) (by omega)⟩

/-- One turn of the loop, with the samples that its delay lets come. -/
def demoTurn (samples : List Bool) : List Act :=
  [.go, .go, .go, .go] ++ samples.map .sample

/-- Two checks. The first press is let go one sample before the first check
looks at the button. -/
def demoBounce : List Act :=
  [.sample true, .call .fido 1000] ++ demoTurn [true, true] ++ demoTurn [true, true] ++
    demoTurn [true, true] ++ demoTurn [true, true] ++ demoTurn [true, false] ++
    [.go, .go, .go, .go, .go] ++ List.replicate 9 (.sample false) ++ [.call .openpgp 1000] ++
    demoTurn [true, true] ++ demoTurn [true, true] ++ demoTurn [true, true] ++
    demoTurn [true, true] ++ demoTurn [true, true] ++ [.go, .go, .go, .go, .go]

theorem demoBounce_results : (system.run demoBounce).results =
    [⟨.openpgp, .ok, 20, 30⟩, ⟨.fido, .ok, 1, 11⟩] := by
  decide

/-- The ten LOW samples need not lie between the two results: the first of them
may come before the first check has looked at the button. -/
theorem lows_not_between_results :
    ¬∀ acts, (system.run acts).results.Pairwise fun r' r => r'.value = .ok → r.value = .ok →
      ∃ j k', r.ended + debounceThresholdMs ≤ j ∧ TenAt (system.run acts).samples j false ∧
        j + debounceThresholdMs ≤ k' ∧ TenAt (system.run acts).samples k' true ∧
        k' ≤ r'.ended := by
  intro h
  have hdemo := h demoBounce
  rw [demoBounce_results, List.pairwise_cons] at hdemo
  obtain ⟨j, k', hj, -, hjk, -, hk⟩ := hdemo.1 _ List.mem_cons_self rfl rfl
  simp only [debounceThresholdMs] at hj hjk hk
  omega

theorem consents_are_fresh_demo :
    ∃ k, FreshPress (system.run demoBounce).samples ⟨.fido, .ok, 1, 11⟩ k := by
  apply (consents_are_fresh demoBounce).1
  · rw [demoBounce_results]
    simp
  · rfl

end Nixtropic.Presence
