import Nixtropic.Tropic.RecPairLogic

/-!
Whole runs of one record pair: reads and writes after an acknowledged
`rec_pair_init`, any of whose chip calls may fail, be torn or be the last one
before a reboot.

The history keeps what the callers saw. From it alone one can tell which
payloads a later read may return: the last acknowledged one and those of the
writes attempted since, and only the value already returned when nothing was
attempted after it.
-/

namespace Nixtropic

open Crash

/-- The faults of a record pair: a torn slot holds no valid record of it. -/
def RecPair.Faults (P : Prims) (p : RecPair) : Fate → Prop := Fate.leaves (Invalid P p)

/-- A call of the run with its result, none when it was cut. -/
inductive PairEntry where
  | read (max : Option ℕ) (res : Option RecRead)
  | write (payload : Bytes) (res : Option RecStatus)

/-- Runs after an acknowledged init of `first`, newest call first. -/
inductive PairRun (P : Prims) (p : RecPair) (first : Bytes) :
    List PairEntry → World → Bool → Prop
  | init {w w' : World} {u u' : Bool} {fs : List Fate} (hfs : ∀ f ∈ fs, p.Faults P f)
      (h : run (chip P) ((recPairInit P p first).run u) fs w = .done (.ok, u') w') :
      PairRun P p first [] w' u'
  | read {es : List PairEntry} {w w' : World} {u u' : Bool} {fs : List Fate} {max : Option ℕ}
      {res : RecRead} (hr : PairRun P p first es w u) (hfs : ∀ f ∈ fs, p.Faults P f)
      (h : run (chip P) ((recPairRead P p max).run u) fs w = .done (res, u') w') :
      PairRun P p first (.read max (some res) :: es) w' u'
  | readCut {es : List PairEntry} {w w' : World} {u : Bool} {fs : List Fate} {max : Option ℕ}
      (hr : PairRun P p first es w u) (hfs : ∀ f ∈ fs, p.Faults P f)
      (h : run (chip P) ((recPairRead P p max).run u) fs w = .cut w') :
      PairRun P p first (.read max none :: es) w' false
  | write {es : List PairEntry} {w w' : World} {u u' : Bool} {fs : List Fate} {payload : Bytes}
      {res : RecStatus} (hr : PairRun P p first es w u) (hfs : ∀ f ∈ fs, p.Faults P f)
      (h : run (chip P) ((recPairWrite P p payload).run u) fs w = .done (res, u') w') :
      PairRun P p first (.write payload (some res) :: es) w' u'
  | writeCut {es : List PairEntry} {w w' : World} {u : Bool} {fs : List Fate} {payload : Bytes}
      (hr : PairRun P p first es w u) (hfs : ∀ f ∈ fs, p.Faults P f)
      (h : run (chip P) ((recPairWrite P p payload).run u) fs w = .cut w') :
      PairRun P p first (.write payload none :: es) w' false
  | reboot {es : List PairEntry} {w : World} {u : Bool} (hr : PairRun P p first es w u) :
      PairRun P p first es w false

/-- The payload of the last acknowledged write, and those attempted since. -/
def candidates (first : Bytes) : List PairEntry → List Bytes
  | [] => [first]
  | .read _ _ :: es => candidates first es
  | .write payload (some .ok) :: _ => [payload]
  | .write payload _ :: es => payload :: candidates first es

/-- What a read returned since the last attempted write. -/
def returned : List PairEntry → Option (Bytes × ℕ)
  | [] => none
  | .read _ (some (.ok payload gen)) :: _ => some (payload, gen)
  | .read _ _ :: es => returned es
  | .write _ _ :: _ => none

/-- Every generation a read returned. -/
def generations : List PairEntry → List ℕ
  | [] => []
  | .read _ (some (.ok _ gen)) :: es => gen :: generations es
  | _ :: es => generations es

/-- A value and a generation that a read may return after the history. -/
structure Consistent (first : Bytes) (es : List PairEntry) (payload : Bytes) (gen : ℕ) :
    Prop where
  candidate : payload ∈ candidates first es
  stable : ∀ x ∈ returned es, x = (payload, gen)
  monotone : ∀ g ∈ generations es, g ≤ gen

theorem Consistent.read {first : Bytes} {es : List PairEntry} {payload : Bytes} {gen : ℕ}
    (h : Consistent first es payload gen) {max : Option ℕ} {res : Option RecRead}
    (hres : ∀ v g, res = some (.ok v g) → v = payload ∧ g = gen) :
    Consistent first (.read max res :: es) payload gen := by
  rcases res with _ | ⟨v, g⟩ | _ | _ | _
  · exact ⟨h.candidate, h.stable, h.monotone⟩
  · obtain ⟨rfl, rfl⟩ := hres v g rfl
    refine ⟨h.candidate, ?_, ?_⟩
    · intro x hx
      simpa [returned] using hx.symm
    · intro g' hg
      rcases List.mem_cons.mp hg with rfl | hg
      · exact le_rfl
      · exact h.monotone g' hg
  all_goals exact ⟨h.candidate, h.stable, h.monotone⟩

/-- A write that was not acknowledged may have had no effect. -/
theorem Consistent.write {first : Bytes} {es : List PairEntry} {payload : Bytes} {gen : ℕ}
    (h : Consistent first es payload gen) {new : Bytes} {res : Option RecStatus}
    (hres : res ≠ some .ok) : Consistent first (.write new res :: es) payload gen := by
  refine ⟨?_, nofun, h.monotone⟩
  rcases res with _ | _ | _ | _ | _
  · exact List.mem_cons_of_mem _ h.candidate
  · exact absurd rfl hres
  all_goals exact List.mem_cons_of_mem _ h.candidate

/-- A write that had an effect made its payload current. -/
theorem Consistent.wrote {first : Bytes} {es : List PairEntry} {payload : Bytes} {gen : ℕ}
    (h : Consistent first es payload gen) (new : Bytes) (res : Option RecStatus) :
    Consistent first (.write new res :: es) new (gen + 1) := by
  refine ⟨?_, nofun, fun g hg => (h.monotone g hg).trans (Nat.le_succ gen)⟩
  rcases res with _ | _ | _ | _ | _
  all_goals exact List.mem_cons_self

/-- The current record of the pair is one a read may return. -/
def PairInv (P : Prims) (p : RecPair) (first : Bytes) (es : List PairEntry) (w : World) : Prop :=
  ∃ r, Current P p w.rmem r ∧ Consistent first es (payloadOf r) (genOf r)

section Runs

variable {P : Prims} {p : RecPair} {first : Bytes} {es : List PairEntry} {w : World} {u : Bool}

/-- The fates a list of them draws on. -/
def Among (fs : List Fate) : Fate → Prop := fun f => f = .none ∨ f ∈ fs

theorem among_leaves {J : RSlot → Prop} {fs : List Fate} (hfs : ∀ f ∈ fs, f.leaves J) :
    ∀ f, Among fs f → f.leaves J := by
  rintro f (rfl | hf)
  · trivial
  · exact hfs f hf

theorem among_nil_leaves {J : RSlot → Prop} : ∀ f, Among [] f → f.leaves J :=
  among_leaves (by simp)

theorem not_stormy_nil : ¬Stormy (Among []) := by
  rintro ⟨f, rfl | hf, hne⟩
  · exact hne rfl
  · simp at hf

theorem stormy_among {fs : List Fate} (h : Stormy (Among fs)) : ∃ f ∈ fs, f ≠ .none := by
  obtain ⟨f, rfl | hf, hne⟩ := h
  · exact absurd rfl hne
  · exact ⟨f, hf, hne⟩

section Among

variable {ρ α : Type} {m : Fw ρ α} {fs : List Fate} {Q : α → ρ → World → Prop}
  {C : World → Prop} {v : ρ}

/-- A rule, read as a statement about the run under one list of fates. -/
theorem run_among (h : swp (chip P) (Among fs) m Q C v w) :
    (run (chip P) (m.run v) fs w).Satisfies (fun x => Q x.1 x.2) C :=
  run_of_swp (.inl rfl) h fun _ hf => .inr hf

theorem done_among (h : swp (chip P) (Among fs) m Q C v w) {a : α} {v' : ρ} {w' : World}
    (hrun : run (chip P) (m.run v) fs w = .done (a, v') w') : Q a v' w' := by
  have hpost := run_among h
  rw [hrun] at hpost
  exact hpost

theorem cut_among (h : swp (chip P) (Among fs) m Q C v w) {w' : World}
    (hrun : run (chip P) (m.run v) fs w = .cut w') : C w' := by
  have hpost := run_among h
  rw [hrun] at hpost
  exact hpost

end Among

/-- What the pair holds after a write took effect. -/
theorem consistent_wrote {r : Bytes} {payload : Bytes} (hlen : payload.length ≤ recPayloadMax)
    (hgen : genOf r < uint32Max) (h : Consistent first es (payloadOf r) (genOf r))
    (res : Option RecStatus) :
    Consistent first (.write payload res :: es)
      (payloadOf (encode P p (genOf r + 1) payload))
      (genOf (encode P p (genOf r + 1) payload)) := by
  have hlt : genOf r + 1 < 2 ^ 32 := by
    simp only [uint32Max] at hgen
    omega
  rw [payloadOf_encode P p _ hlen, genOf_encode P p payload hlt]
  exact h.wrote payload res

theorem pairInv_write {w' : World} {r payload : Bytes} {res : Option RecStatus}
    (h : Consistent first es (payloadOf r) (genOf r)) (hres : res ≠ some .ok)
    (ho : Holds P p w'.rmem (some r) ∨ Wrote P p (some r) payload w'.rmem) :
    PairInv P p first (.write payload res :: es) w' := by
  rcases ho with ho | ⟨r', hr', hgen, hlen, hnew⟩
  · exact ⟨r, ho, h.write hres⟩
  · obtain rfl : r = r' := by simpa using hr'
    exact ⟨_, hnew, consistent_wrote hlen hgen h res⟩

/-- Every step of a run keeps the invariant. -/
theorem pairInv_of_run (h : PairRun P p first es w u) : PairInv P p first es w := by
  induction h with
  | init hfs h =>
      have hpost := done_among (swp_recPairInit (among_leaves hfs)) h
      obtain ⟨-, ⟨-, -, hlen, hm⟩ | ⟨hres, -⟩⟩ := hpost
      · refine ⟨_, hm.current, ?_, nofun, nofun⟩
        rw [payloadOf_encode P p 1 hlen]
        exact List.mem_singleton_self first
      · cases hres
  | read hr hfs h ih =>
      obtain ⟨r, hcur, hcon⟩ := ih
      have hpost := done_among (swp_recPairRead (among_leaves hfs) (o := some r) hcur) h
      obtain ⟨-, hcur', hres⟩ := hpost
      refine ⟨r, hcur', hcon.read ?_⟩
      rintro v g ⟨⟩
      obtain ⟨-, r', hr', hv, hg, -⟩ := hres
      obtain rfl : r = r' := by simpa using hr'
      exact ⟨hv, hg⟩
  | readCut hr hfs h ih =>
      obtain ⟨r, hcur, hcon⟩ := ih
      have hpost := cut_among (swp_recPairRead (among_leaves hfs) (o := some r) hcur) h
      exact ⟨r, hpost.2.1, hcon.read nofun⟩
  | @write es w w' u u' fs payload res hr hfs h ih =>
      obtain ⟨r, hcur, hcon⟩ := ih
      have hpost := done_among (swp_recPairWrite (among_leaves hfs) (o := some r) hcur) h
      obtain ⟨-, hres⟩ := hpost
      rcases res with _ | _ | _ | _
      · obtain ⟨-, r', hr', hgen, hlen, hm⟩ := hres
        obtain rfl : r = r' := by simpa using hr'
        exact ⟨_, hm.current, consistent_wrote hlen hgen hcon _⟩
      · cases hres.1
      · cases hres.1
      · exact pairInv_write hcon nofun hres.1
  | writeCut hr hfs h ih =>
      obtain ⟨r, hcur, hcon⟩ := ih
      have hpost := cut_among (swp_recPairWrite (among_leaves hfs) (o := some r) hcur) h
      exact pairInv_write hcon nofun hpost.2.2
  | reboot hr ih => exact ih

/-- What a read can answer when the pair holds a payload: that payload, if it
fits, or an error, and then the pair was uncertain, a call of this read met
something, or the buffer is too short. -/
def ReadAnswer (u : Bool) (max : Option ℕ) (fs : List Fate) (payload : Bytes) (gen : ℕ) :
    RecRead → Prop
  | .ok v g => v = payload ∧ g = gen ∧ ¬max.any (· < payload.length)
  | .error => u = true ∨ (∃ f ∈ fs, f ≠ .none) ∨ max.any (· < payload.length)
  | _ => False

/-- After every run there is one payload, allowed by the history, that every
read returns which meets nothing and has the room for it. -/
theorem pairRun_read (h : PairRun P p first es w u) :
    ∃ payload gen, Consistent first es payload gen ∧
      ∀ max fs, (∀ f ∈ fs, p.Faults P f) →
        (run (chip P) ((recPairRead P p max).run u) fs w).Satisfies
          (fun x _ => ReadAnswer u max fs payload gen x.1)
          (fun _ => ∃ f ∈ fs, f ≠ .none) := by
  obtain ⟨r, hcur, hcon⟩ := pairInv_of_run h
  refine ⟨payloadOf r, genOf r, hcon, fun max fs hfs => ?_⟩
  have hpost : (run (chip P) ((recPairRead P p max).run u) fs w).Satisfies _ _ :=
    run_among (swp_recPairRead (among_leaves hfs) (o := some r) hcur)
  generalize run (chip P) ((recPairRead P p max).run u) fs w = out at hpost ⊢
  rcases out with ⟨⟨res, u'⟩, w'⟩ | w'
  · obtain ⟨-, -, hres⟩ := hpost
    rcases res with ⟨v, g⟩ | _ | _ | _
    · obtain ⟨-, r', hr', hv, hg, hmax, -⟩ := hres
      obtain rfl : r = r' := by simpa using hr'
      rw [← valid_lenOf hcur.valid] at hmax
      exact ⟨hv, hg, hmax⟩
    · cases hres.2
    · cases hres.2.1
    · rcases hres with hu | hst | ⟨r', hr', hmax⟩
      · exact .inl hu
      · exact .inr (.inl (stormy_among hst))
      · obtain rfl : r = r' := by simpa using hr'
        rw [← valid_lenOf hcur.valid] at hmax
        exact .inr (.inr hmax)
  · exact stormy_among hpost.2.2

/-- An undisturbed init of a pair that is not uncertain succeeds. -/
theorem recPairInit_calm (P : Prims) (p : RecPair) (w : World) {payload : Bytes}
    (hlen : payload.length ≤ recPayloadMax) :
    ∃ w', run (chip P) ((recPairInit P p payload).run false) [] w = .done (.ok, false) w' ∧
      Mirrored P p w'.rmem (encode P p 1 payload) := by
  have hpost : (run (chip P) ((recPairInit P p payload).run false) [] w).Satisfies _ _ :=
    run_among (swp_recPairInit among_nil_leaves)
  generalize run (chip P) ((recPairInit P p payload).run false) [] w = out at hpost ⊢
  rcases out with ⟨⟨res, u'⟩, w'⟩ | w'
  · obtain ⟨-, ⟨rfl, rfl, -, hm⟩ | ⟨-, hwhy, -⟩⟩ := hpost
    · exact ⟨w', rfl, hm⟩
    · rcases hwhy with h | h | h
      · cases h
      · exact absurd h not_stormy_nil
      · omega
  · exact absurd hpost.2.1 not_stormy_nil

end Runs

/-- A pair in the slots of the FIDO state. -/
def demoPair : RecPair where
  slotA := 16
  slotB := 17
  obj := 1
  schema := 1
  slots_ne := by decide

/-- What a run returned, if it was not cut. -/
def returnOf {α σ : Type} : Outcome α σ → Option α
  | .done a _ => some a
  | .cut _ => none

theorem eq_done {α σ : Type} {out : Outcome α σ} {a : α} (h : returnOf out = some a) :
    out = .done a out.state := by
  cases out with
  | done b s => exact congrArg (Outcome.done · s) (Option.some.inj h)
  | cut s => cases h

theorem eq_cut {α σ : Type} {out : Outcome α σ} (h : returnOf out = none) :
    out = .cut out.state := by
  cases out with
  | done b s => cases h
  | cut s => rfl

/-- An undisturbed init, and an acknowledged write. -/
def demoInit : Outcome (RecStatus × Bool) World :=
  run (chip mixPrims) ((recPairInit mixPrims demoPair [7]).run false) [] .blank

def demoWrite : Outcome (RecStatus × Bool) World :=
  run (chip mixPrims) ((recPairWrite mixPrims demoPair [8]).run false) [] demoInit.state

/-- A write that is cut while it writes the second copy. -/
def demoTear : Outcome (RecStatus × Bool) World :=
  run (chip mixPrims) ((recPairWrite mixPrims demoPair [9]).run false)
    (List.replicate 6 .none ++ [.cutTorn (.data [78])]) demoWrite.state

/-- A read after the reboot, which repairs the second copy. -/
def demoRepair : Outcome (RecRead × Bool) World :=
  run (chip mixPrims) ((recPairRead mixPrims demoPair none).run false) [] demoTear.state

def demoHistory : List PairEntry :=
  [.read none (some (.ok [9] 3)), .write [9] none, .write [8] (some .ok)]

theorem demo_history : PairRun mixPrims demoPair [7] demoHistory demoRepair.state false := by
  have hnone : ∀ f ∈ ([] : List Fate), demoPair.Faults mixPrims f := fun f hf => by cases hf
  have htorn : ∀ f ∈ List.replicate 6 Fate.none ++ [.cutTorn (.data [78])],
      demoPair.Faults mixPrims f := by
    intro f hf
    rcases List.mem_append.mp hf with hf | hf
    · rw [List.eq_of_mem_replicate hf]
      trivial
    · rw [List.mem_singleton.mp hf]
      exact nofun
  have hinit : PairRun mixPrims demoPair [7] [] demoInit.state false :=
    .init hnone (eq_done (by decide +kernel))
  have hwrite : PairRun mixPrims demoPair [7] [.write [8] (some .ok)] demoWrite.state false :=
    .write hinit hnone (eq_done (by decide +kernel))
  have htear : PairRun mixPrims demoPair [7] [.write [9] none, .write [8] (some .ok)]
      demoTear.state false := .writeCut hwrite htorn (eq_cut (by decide +kernel))
  exact .read (.reboot htear) hnone (eq_done (by decide +kernel))

/-- The read that follows the cut write settles its payload for the later ones. -/
theorem pairRun_read_demo :
    demoTear.state.rmem demoPair.slotB ≠ demoRepair.state.rmem demoPair.slotB ∧
      ∃ payload gen, Consistent [7] demoHistory payload gen ∧
        ∀ max fs, (∀ f ∈ fs, demoPair.Faults mixPrims f) →
          (run (chip mixPrims) ((recPairRead mixPrims demoPair max).run false) fs
            demoRepair.state).Satisfies
              (fun x _ => ReadAnswer false max fs payload gen x.1)
              (fun _ => ∃ f ∈ fs, f ≠ .none) :=
  ⟨by decide +kernel, pairRun_read demo_history⟩

/-- A read that meets nothing still fails when its buffer is too short. -/
theorem recPairRead_short_buffer :
    ∃ w, PairRun mixPrims demoPair [7] [] w false ∧
      ∃ u' w', run (chip mixPrims) ((recPairRead mixPrims demoPair (some 0)).run false) [] w =
        .done (.error, u') w' := by
  obtain ⟨w, hw, hm⟩ := recPairInit_calm mixPrims demoPair .blank
    (by decide : ([7] : Bytes).length ≤ recPayloadMax)
  refine ⟨w, .init (by simp) hw, ?_⟩
  have hlen : lenOf (encode mixPrims demoPair 1 [7]) = 1 := by decide +kernel
  have hpost : (run (chip mixPrims) ((recPairRead mixPrims demoPair (some 0)).run false) []
      w).Satisfies _ _ :=
    run_among (swp_recPairRead among_nil_leaves (o := some _) hm.current)
  generalize run (chip mixPrims) ((recPairRead mixPrims demoPair (some 0)).run false) [] w = out
    at hpost ⊢
  rcases out with ⟨⟨res, u'⟩, w'⟩ | w'
  · obtain ⟨-, -, hres⟩ := hpost
    rcases res with ⟨v, g⟩ | _ | _ | _
    · obtain ⟨-, r, hr, -, -, hmax, -⟩ := hres
      obtain rfl : encode mixPrims demoPair 1 [7] = r := by simpa using hr
      simp [hlen] at hmax
    · cases hres.2
    · cases hres.2.1
    · exact ⟨u', w', rfl⟩
  · exact absurd hpost.2.2 not_stormy_nil

end Nixtropic
