import Nixtropic.Tropic.RecPairRuns
import Nixtropic.Tropic.RecPairFailure

/-!
What `rec_pair_read` makes of two slots with arbitrary contents.

The rule is stated on the slots alone: there has to be a copy, and two copies
have to be the same record or one generation apart. It is then compared with
the function, whose repair of the other copy may meet anything.
-/

namespace Nixtropic

open Crash

/-- The slot holds the record `r` of this object and schema. -/
def IsRecord (P : Prims) (p : RecPair) (c : RSlot) (r : Bytes) : Prop :=
  c = .data r ∧ valid P p r = true

/-- At least one copy is a record, and two of them are the same record or
exactly one generation apart. -/
structure Readable (P : Prims) (p : RecPair) (R : ℕ → RSlot) : Prop where
  found : (∃ r, IsRecord P p (R p.slotA) r) ∨ ∃ r, IsRecord P p (R p.slotB) r
  compatible : ∀ a b, IsRecord P p (R p.slotA) a → IsRecord P p (R p.slotB) b →
    genOf a = genOf b ∧ a = b ∨ genOf a = genOf b + 1 ∨ genOf b = genOf a + 1

/-- The record with the highest generation in the two slots. -/
structure Newest (P : Prims) (p : RecPair) (R : ℕ → RSlot) (r : Bytes) : Prop where
  found : IsRecord P p (R p.slotA) r ∨ IsRecord P p (R p.slotB) r
  highest : ∀ r', IsRecord P p (R p.slotA) r' ∨ IsRecord P p (R p.slotB) r' → genOf r' ≤ genOf r

section Rule

variable {P : Prims} {p : RecPair} {R : ℕ → RSlot} {r : Bytes}

theorem invalid_iff {c : RSlot} : Invalid P p c ↔ ∀ r, ¬IsRecord P p c r :=
  forall_congr' fun _ => not_congr classify_valid_iff

/-- What stands behind a record has no generation above it. -/
theorem Behind.le {c : RSlot} (h : Behind P p r c) {r' : Bytes} (hr' : IsRecord P p c r') :
    genOf r' ≤ genOf r := by
  obtain ⟨rfl, hv⟩ := hr'
  rcases h with h | h | ⟨r'', h, -, hgen⟩
  · obtain rfl : r' = r := by simpa using h
    exact le_rfl
  · exact absurd ⟨rfl, hv⟩ (invalid_iff.mp h r')
  · obtain rfl : r' = r'' := by simpa using h
    omega

theorem Behind.compatible {c : RSlot} (h : Behind P p r c) {r' : Bytes}
    (hr' : IsRecord P p c r') : r = r' ∨ genOf r = genOf r' + 1 := by
  obtain ⟨rfl, hv⟩ := hr'
  rcases h with h | h | ⟨r'', h, -, hgen⟩
  · left
    simpa using h.symm
  · exact absurd ⟨rfl, hv⟩ (invalid_iff.mp h r')
  · obtain rfl : r' = r'' := by simpa using h
    exact .inr hgen

/-- A copy that is no record, or one that the newest record may stand beside,
is behind it. -/
theorem behind_of {c : RSlot} (h : ∀ r', IsRecord P p c r' → r' = r ∨ genOf r = genOf r' + 1) :
    Behind P p r c := by
  rcases invalid_or_valid P p c with hc | ⟨r', hc, hv⟩
  · exact .inr (.inl hc)
  · rcases h r' ⟨hc, hv⟩ with rfl | hgen
    · exact .inl hc
    · exact .inr (.inr ⟨r', hc, hv, hgen⟩)

/-- The rule is the one the source follows: the record a read settles on is
the newest one of a readable pair. -/
theorem current_iff_newest : Current P p R r ↔ Readable P p R ∧ Newest P p R r := by
  rw [current_iff]
  constructor
  · rintro ⟨hv, ⟨ha, hb⟩ | ⟨hb, ha⟩⟩
    · have hisA : ∀ a, IsRecord P p (R p.slotA) a → a = r := by
        rintro a ⟨h, -⟩
        rw [ha] at h
        simpa using h.symm
      refine ⟨⟨.inl ⟨r, ha, hv⟩, ?_⟩, .inl ⟨ha, hv⟩, ?_⟩
      · intro a b hisa hisb
        obtain rfl := hisA a hisa
        rcases hb.compatible hisb with rfl | hgen
        · exact .inl ⟨rfl, rfl⟩
        · exact .inr (.inl hgen)
      · rintro r' (h | h)
        · rw [hisA r' h]
        · exact hb.le h
    · have hisB : ∀ b, IsRecord P p (R p.slotB) b → b = r := by
        rintro b ⟨h, -⟩
        rw [hb] at h
        simpa using h.symm
      refine ⟨⟨.inr ⟨r, hb, hv⟩, ?_⟩, .inr ⟨hb, hv⟩, ?_⟩
      · intro a b hisa hisb
        obtain rfl := hisB b hisb
        rcases ha.compatible hisa with rfl | hgen
        · exact .inl ⟨rfl, rfl⟩
        · exact .inr (.inr hgen)
      · rintro r' (h | h)
        · exact ha.le h
        · rw [hisB r' h]
  · rintro ⟨hread, hnew⟩
    rcases hnew.found with ha | hb
    · refine ⟨ha.2, .inl ⟨ha.1, behind_of fun r' hr' => ?_⟩⟩
      have hle := hnew.highest r' (.inr hr')
      rcases hread.compatible r r' ha hr' with ⟨-, rfl⟩ | hgen | hgen
      · exact .inl rfl
      · exact .inr hgen
      · omega
    · refine ⟨hb.2, .inr ⟨hb.1, behind_of fun r' hr' => ?_⟩⟩
      have hle := hnew.highest r' (.inl hr')
      rcases hread.compatible r' r hr' hb with ⟨-, rfl⟩ | hgen | hgen
      · exact .inl rfl
      · omega
      · exact .inr hgen

/-- A readable pair has a newest record. -/
theorem Readable.newest (h : Readable P p R) : ∃ r, Newest P p R r := by
  have one : ∀ {c c' : RSlot} {r : Bytes}, IsRecord P p c r → Invalid P p c' →
      ∀ r', IsRecord P p c r' ∨ IsRecord P p c' r' → genOf r' ≤ genOf r := by
    rintro c c' r ⟨rfl, -⟩ hinv r' (⟨h, -⟩ | h)
    · obtain rfl : r = r' := by simpa using h
      exact le_rfl
    · exact absurd h (invalid_iff.mp hinv r')
  rcases invalid_or_valid P p (R p.slotA) with ha | ⟨a, ha⟩
  · rcases h.found with ⟨a, hisa⟩ | ⟨b, hb⟩
    · exact absurd hisa (invalid_iff.mp ha a)
    · exact ⟨b, .inr hb, fun r' hr' => one hb ha r' hr'.symm⟩
  · rcases invalid_or_valid P p (R p.slotB) with hb | ⟨b, hb⟩
    · exact ⟨a, .inl ha, one ha hb⟩
    · have hisA : ∀ r', IsRecord P p (R p.slotA) r' → r' = a := by
        rintro r' ⟨h, -⟩
        rw [ha.1] at h
        simpa using h.symm
      have hisB : ∀ r', IsRecord P p (R p.slotB) r' → r' = b := by
        rintro r' ⟨h, -⟩
        rw [hb.1] at h
        simpa using h.symm
      rcases Nat.le_total (genOf b) (genOf a) with hle | hle
      · refine ⟨a, .inl ha, ?_⟩
        rintro r' (h | h)
        · rw [hisA r' h]
        · rw [hisB r' h]
          exact hle
      · refine ⟨b, .inr hb, ?_⟩
        rintro r' (h | h)
        · rw [hisA r' h]
          exact hle
        · rw [hisB r' h]

/-- Only two empty copies are an absent object. -/
theorem choose_absent {a b : Copy} (h : choose p a b = .absent) : a = .empty ∧ b = .empty := by
  cases a with
  | valid a =>
      cases b with
      | valid b =>
          rw [choose] at h
          split_ifs at h
      | _ => simp [choose] at h
  | empty =>
      cases b with
      | empty => exact ⟨rfl, rfl⟩
      | _ => simp [choose] at h
  | _ => cases b <;> simp [choose] at h

end Rule

/-! ### The read itself -/

/-- The world after the two reads of `rec_pair_read`: nothing has changed. -/
def bothRead (p : RecPair) (w : World) : World :=
  (w.note (.rmemRead p.slotA slotMax)).note (.rmemRead p.slotB slotMax)

section Read

variable {P : Prims} {p : RecPair} {w : World} {max : Option ℕ} {later : List Fate}

/-- A read of one copy to which nothing happens. -/
theorem run_readCopy {α : Type} {u : Bool} (slot : ℕ) (k : Copy → PairM α) (fs : List Fate) :
    run (chip P) ((readCopy P p slot >>= k).run u) (.none :: fs) w =
      run (chip P) ((k (classify P p (w.rmem slot))).run u) fs
        (w.note (.rmemRead slot slotMax)) := by
  have hact : (chip P).act .none (.rmemRead slot slotMax) w =
      (some ((w.rmem slot).read slotMax), w.note (.rmemRead slot slotMax)) := rfl
  show run (chip P) (.call (.rmemRead slot slotMax) _) (.none :: fs) w = _
  rw [run_call, List.headD_cons, hact]
  simp only [List.tail_cons]
  rw [classify]
  rcases (w.rmem slot).read slotMax with (_ | _) | buf
  · rfl
  · rfl
  · -- the answer is computed from the bytes without a further call
    have hpure : (if buf.length = 0 then pure .empty
        else if valid P p buf then pure (.valid buf) else pure .bad : PairM Copy) =
        pure (if buf.length = 0 then .empty else if valid P p buf then .valid buf else .bad) := by
      split_ifs <;> rfl
    show run (chip P) ((_ >>= k).run u) fs _ = _
    dsimp only
    rw [hpure]
    rfl

/-- When both copies can be read, the rest is the choice between them. -/
theorem run_recPairRead_both (fs : List Fate) :
    run (chip P) ((recPairRead P p max).run false) (.none :: .none :: fs) w =
      run (chip P) ((adopt max (choose p (classify P p (w.rmem p.slotA))
        (classify P p (w.rmem p.slotB)))).run false) fs (bothRead p w) := by
  have hstart : (recPairRead P p max).run false = (do
      let a ← readCopy P p p.slotA
      if a = .err then pure .error
      else
        let b ← readCopy P p p.slotB
        if b = .err then pure .error
        else adopt max (choose p a b) : PairM RecRead).run false := rfl
  rw [hstart, run_readCopy, if_neg (classify_ne_err P p _), run_readCopy,
    if_neg (classify_ne_err P p _)]
  rfl

/-- A buffer that is absent or takes the largest payload has room for every
record. -/
theorem room_of_valid (hmax : ∀ m ∈ max, recPayloadMax ≤ m) {r : Bytes}
    (hv : valid P p r = true) : ¬max.any (· < lenOf r) := by
  have hle := valid_lenOf_le hv
  cases max with
  | none => simp
  | some m =>
      have hm := hmax m rfl
      simp only [Option.any_some, decide_eq_true_eq, not_lt]
      omega

/-- Two equal copies are read without changing anything. -/
theorem run_recPairRead_mirrored (hmax : ∀ m ∈ max, recPayloadMax ≤ m) {r : Bytes}
    (h : Mirrored P p w.rmem r) (fs : List Fate) :
    run (chip P) ((recPairRead P p max).run false) (.none :: .none :: fs) w =
      .done (.ok (payloadOf r) (genOf r), false) (bothRead p w) := by
  rw [run_recPairRead_both, classify_valid_iff.mpr ⟨h.a, h.valid⟩,
    classify_valid_iff.mpr ⟨h.b, h.valid⟩, choose_self, adopt, if_neg (room_of_valid hmax h.valid)]
  rfl

/-- What is not readable is refused without changing anything: as absent when
both copies read empty, else as corrupt without a record and as an error with
two. -/
theorem run_recPairRead_refused (h : ¬Readable P p w.rmem) (fs : List Fate) :
    ∃ res, run (chip P) ((recPairRead P p max).run false) (.none :: .none :: fs) w =
        .done (res, false) (bothRead p w) ∧
      (res = .absent ∧ Blank P p w.rmem ∨ (res = .corrupt ∨ res = .error) ∧
        ¬Blank P p w.rmem) := by
  rw [run_recPairRead_both]
  have hnone : ∀ r repair,
      choose p (classify P p (w.rmem p.slotA)) (classify P p (w.rmem p.slotB)) ≠
      .win r repair := fun r repair hc => h (current_iff_newest.mp ⟨repair, hc⟩).1
  by_cases hold : Holds P p w.rmem none
  · have hch := choose_holds hold
    cases hc : choose p (classify P p (w.rmem p.slotA)) (classify P p (w.rmem p.slotB)) with
    | win r repair => exact absurd hc (hnone r repair)
    | absent =>
        exact ⟨.absent, rfl, .inl ⟨rfl, choose_absent hc⟩⟩
    | corrupt =>
        rw [hc] at hch
        exact ⟨.corrupt, rfl, .inr ⟨.inl rfl, hch.2⟩⟩
    | error =>
        rw [hc] at hch
        exact hch.elim
  · have hcontra := choose_contradiction (P := P) (p := p) (R := w.rmem) (by
      rintro (_ | r)
      · exact hold
      · rintro ⟨repair, hc⟩
        exact hnone r repair hc)
    rw [hcontra]
    refine ⟨.error, rfl, .inr ⟨.inr rfl, ?_⟩⟩
    rintro ⟨ha, hb⟩
    apply hold
    constructor
    · intro r hr
      rw [ha] at hr
      cases hr
    · intro r hr
      rw [hb] at hr
      cases hr

end Read

/-! ### The repair -/

section Repair

variable {P : Prims} {A : Fate → Prop} {p : RecPair} {u : Bool} {w : World}

/-- A slot that reads as a record holds it, since a record is shorter than what
is asked for. -/
theorem data_of_read {c : RSlot} {r : Bytes} (hr : valid P p r = true)
    (h : c.read slotMax = .ok r) : c = .data r := by
  have hlen := (valid_length hr).1
  simp only [recMax, recHdr, recSum, recPayloadMax] at hlen
  cases c with
  | data b =>
      have hb : b.take slotMax = r := by simpa [RSlot.read] using h
      have hshort : b.length ≤ slotMax := by
        have htake := congrArg List.length hb
        rw [List.length_take] at htake
        simp only [slotMax] at htake ⊢
        omega
      rw [List.take_of_length_le hshort] at hb
      rw [hb]
  | _ => simp [RSlot.read] at h

/-- A commit is acknowledged only when the slot holds the record, whatever its
calls met. -/
theorem swp_commitCopy_holds {slot : ℕ} {r : Bytes} (hr : valid P p r = true) :
    swp (chip P) A (commitCopy slot r) (fun ok _ w' => ok = true → w'.rmem slot = .data r)
      (fun _ => True) u w := by
  have hlen := valid_length hr
  simp only [recMax, recHdr, recSum, recPayloadMax] at hlen
  have back : ∀ w₂, swp (chip P) A (readsBack slot r)
      (fun ok _ w' => ok = true → w'.rmem slot = .data r) (fun _ => True) u w₂ := by
    intro w₂
    rw [readsBack, swp_bind]
    refine swp_rmemRead ?_ (fun _ => fun h => by cases h) fun _ => trivial
    cases hc : (w₂.rmem slot).read slotMax with
    | error e => exact fun h => by cases h
    | ok got =>
        intro hok
        obtain rfl : got = r := of_decide_eq_true hok
        exact data_of_read hr hc
  have write : ∀ w₁, swp (chip P) A (writesBack slot r)
      (fun ok _ w' => ok = true → w'.rmem slot = .data r) (fun _ => True) u w₁ := by
    intro w₁
    rw [writesBack, swp_bind]
    apply swp_rmemWrite leaves_any (by omega) (by simp only [rmemSlotSize]; omega)
    · exact fun _ => back _
    · exact fun _ => fun h => by cases h
    · intro _ res x _
      cases res with
      | ok _ => exact back _
      | error _ => exact fun h => by cases h
    · exact fun _ _ _ => trivial
  rw [commitCopy, swp_bind]
  apply swp_rmemErase leaves_any
  · exact write _
  · intro _ res x _
    cases res with
    | ok _ => exact write _
    | error _ => exact fun h => by cases h
  · exact fun _ _ _ => trivial

/-- A commit changes the one slot, and fails only when a call met something. -/
theorem swp_commitCopy_proven {slot : ℕ} {r : Bytes} (hslot : p.owns slot)
    (hr : valid P p r = true) :
    swp (chip P) A (commitCopy slot r)
      (fun ok u' w' => u' = u ∧ Away (· = slot) w w' ∧
        (ok = true ∧ w'.rmem slot = .data r ∨ ok = false ∧ Stormy A))
      (fun w' => Away (· = slot) w w' ∧ Stormy A) u w := by
  have haway := footprint_commitCopy (P := P) (S := (· = slot)) rfl r A u w
  by_cases hst : Stormy A
  · have hlen := valid_length hr
    simp only [recMax, recHdr, recSum, recPayloadMax] at hlen
    have hflag := swp_commitCopy_flag (P := P) (A := A) (u := u) (w := w) slot (r := r)
      (by omega) (by simp only [rmemSlotSize]; omega)
    apply swp_mono (swp_and haway (swp_and hflag (swp_commitCopy_holds hr)))
    · rintro (_ | _) u' w' ⟨haway, hu, hok⟩
      · exact ⟨hu, haway, .inr ⟨rfl, hst⟩⟩
      · exact ⟨hu, haway, .inl ⟨rfl, hok rfl⟩⟩
    · rintro w' ⟨haway, -⟩
      exact ⟨haway, hst⟩
  · have hA : ∀ f, A f → f.leaves (Invalid P p) := by
      intro f hf
      have hquiet : f = .none := by
        by_contra hne
        exact hst ⟨f, hf, hne⟩
      rw [hquiet]
      trivial
    apply swp_mono (swp_and haway (swp_commitCopy (D := fun _ => True) hA hslot hr trivial))
    · rintro ok u' w' ⟨haway, hu, -, ⟨hok, hrmem⟩ | ⟨-, hst', -⟩⟩
      · exact ⟨hu, haway, .inl ⟨hok, by rw [hrmem, Function.update_self]⟩⟩
      · exact absurd hst' hst
    · rintro w' ⟨-, -, hst', -⟩
      exact absurd hst' hst

/-- A winner is handed out when the other copy has been proven equal to it;
otherwise the pair is uncertain and the winner still there. -/
theorem swp_adopt_repair {max : Option ℕ} {r : Bytes} {slot : ℕ} (hslot : p.owns slot)
    (hr : valid P p r = true) (hroom : ¬max.any (· < lenOf r)) :
    swp (chip P) A (adopt max (.win r (some slot)))
      (fun res u' w' => Away (· = slot) w w' ∧
        (res = .ok (payloadOf r) (genOf r) ∧ u' = u ∧ w'.rmem slot = .data r ∨
          res = .error ∧ u' = true ∧ Stormy A))
      (fun w' => Away (· = slot) w w' ∧ Stormy A) u w := by
  rw [adopt, if_neg hroom, swp_bind]
  apply swp_mono (swp_commitCopy_proven hslot hr) _ fun _ h => h
  rintro ok u' w' ⟨rfl, haway, ⟨rfl, hc⟩ | ⟨rfl, hst⟩⟩
  · exact ⟨haway, .inl ⟨rfl, rfl, hc⟩⟩
  · exact ⟨haway, .inr ⟨rfl, rfl, hst⟩⟩

end Repair

/-! ### The decision -/

section Decision

variable {P : Prims} {p : RecPair} {w : World} {max : Option ℕ}

/-- The read returned the record `r`. Both slots now hold it, the copy it was
found in having been left alone; further reads return it without a change, and
so they do when any one slot comes to hold something invalid. -/
def Served (P : Prims) (p : RecPair) (max : Option ℕ) (r : Bytes) (w : World)
    (out : Outcome (RecRead × Bool) World) : Prop :=
  ∃ w', out = .done (.ok (payloadOf r) (genOf r), false) w' ∧ Mirrored P p w'.rmem r ∧
    Away p.owns w w' ∧
    (∀ fs, run (chip P) ((recPairRead P p max).run false) (.none :: .none :: fs) w' =
      .done (.ok (payloadOf r) (genOf r), false) (bothRead p w')) ∧
    ∀ slot c, p.owns slot → Invalid P p c →
      ∃ w'', run (chip P) ((recPairRead P p max).run false) [] (w'.setR slot c) =
          .done (.ok (payloadOf r) (genOf r), false) w'' ∧ Mirrored P p w''.rmem r

/-- The other copy could not be proven: the read failed and marked the pair, or
was cut, with the copy of `r` intact. -/
def Unproven (P : Prims) (p : RecPair) (r : Bytes) (later : List Fate) (w : World)
    (out : Outcome (RecRead × Bool) World) : Prop :=
  ¬Mirrored P p w.rmem r ∧ (∃ f ∈ later, f ≠ .none) ∧
    ∃ w' slot kept, (out = .done (.error, true) w' ∨ out = .cut w') ∧
      (slot = p.slotA ∧ kept = p.slotB ∨ slot = p.slotB ∧ kept = p.slotA) ∧
      w.rmem kept = .data r ∧ w'.rmem kept = .data r ∧ Away (· = slot) w w'

/-- A pair with a current record is read back undisturbed. -/
theorem reads_current (hmax : ∀ m ∈ max, recPayloadMax ≤ m) {r : Bytes}
    (hcur : Current P p w.rmem r) :
    ∃ w', run (chip P) ((recPairRead P p max).run false) [] w =
        .done (.ok (payloadOf r) (genOf r), false) w' ∧ Mirrored P p w'.rmem r := by
  have hpost : (run (chip P) ((recPairRead P p max).run false) [] w).Satisfies _ _ :=
    run_among (swp_recPairRead (among_nil_leaves (J := Invalid P p)) (o := some r) hcur)
  generalize run (chip P) ((recPairRead P p max).run false) [] w = out at hpost ⊢
  rcases out with ⟨⟨res, u'⟩, w'⟩ | w'
  · obtain ⟨-, hcur', hres⟩ := hpost
    cases res with
    | ok payload gen =>
        obtain ⟨rfl, r', hr', rfl, rfl, -, hm⟩ := hres
        obtain rfl : r = r' := by simpa using hr'
        exact ⟨w', rfl, hm⟩
    | absent => exact absurd hres.2 nofun
    | corrupt => exact absurd hres.2.1 nofun
    | error =>
        rcases hres with hu | hst | ⟨r', hr', hfull⟩
        · exact absurd hu nofun
        · exact absurd hst not_stormy_nil
        · obtain rfl : r = r' := by simpa using hr'
          exact absurd hfull (room_of_valid hmax hcur.valid)
  · exact absurd hpost.2.2 not_stormy_nil

/-- One copy of two is enough. -/
theorem Mirrored.current_without {r : Bytes} (h : Mirrored P p w.rmem r) {slot : ℕ}
    (hslot : p.owns slot) {c : RSlot} (hc : Invalid P p c) :
    Current P p (w.setR slot c).rmem r := by
  have hne := p.slots_ne
  rw [World.setR_rmem, current_iff]
  refine ⟨h.valid, ?_⟩
  rcases hslot with rfl | rfl
  · right
    rw [Function.update_of_ne hne.symm, Function.update_self]
    exact ⟨h.b, .inr (.inl hc)⟩
  · left
    rw [Function.update_of_ne hne, Function.update_self]
    exact ⟨h.a, .inr (.inl hc)⟩

theorem Mirrored.served (hmax : ∀ m ∈ max, recPayloadMax ≤ m) {r : Bytes} {w' : World}
    (h : Mirrored P p w'.rmem r) (haway : Away p.owns w w') :
    Served P p max r w (.done (.ok (payloadOf r) (genOf r), false) w') := by
  refine ⟨w', rfl, h, haway, run_recPairRead_mirrored hmax h, ?_⟩
  intro slot c hslot hc
  exact reads_current hmax (h.current_without hslot hc)

/-- The copy beside the winner is rewritten, and proven or not. -/
theorem repair_served (hmax : ∀ m ∈ max, recPayloadMax ≤ m) {r : Bytes} {slot kept : ℕ}
    (hslot : slot = p.slotA ∧ kept = p.slotB ∨ slot = p.slotB ∧ kept = p.slotA)
    (hr : valid P p r = true) (hkept : w.rmem kept = .data r) (hother : w.rmem slot ≠ .data r)
    (later : List Fate) :
    Served P p max r w (run (chip P) ((adopt max (.win r (some slot))).run false) later
        (bothRead p w)) ∨
      Unproven P p r later w (run (chip P) ((adopt max (.win r (some slot))).run false) later
        (bothRead p w)) := by
  have hne : kept ≠ slot := by
    rcases hslot with ⟨rfl, rfl⟩ | ⟨rfl, rfl⟩
    · exact p.slots_ne.symm
    · exact p.slots_ne
  have howns : p.owns slot := hslot.imp And.left And.left
  have hstays : ∀ {w' : World}, Away (· = slot) (bothRead p w) w' → w'.rmem kept = .data r :=
    fun haway => (haway kept hne).trans hkept
  have hunmirrored : ¬Mirrored P p w.rmem r := by
    rintro ⟨ha, hb, -⟩
    rcases hslot with ⟨rfl, -⟩ | ⟨rfl, -⟩
    · exact hother ha
    · exact hother hb
  have hpost : (run (chip P) ((adopt max (.win r (some slot))).run false) later
      (bothRead p w)).Satisfies _ _ :=
    run_among (swp_adopt_repair howns hr (room_of_valid hmax hr))
  generalize run (chip P) ((adopt max (.win r (some slot))).run false) later (bothRead p w) = out
    at hpost ⊢
  rcases out with ⟨⟨res, u'⟩, w'⟩ | w'
  · obtain ⟨haway, ⟨rfl, rfl, hc⟩ | ⟨rfl, rfl, hst⟩⟩ := hpost
    · left
      have hm : Mirrored P p w'.rmem r := by
        rcases hslot with ⟨rfl, rfl⟩ | ⟨rfl, rfl⟩
        · exact ⟨hc, hstays haway, hr⟩
        · exact ⟨hstays haway, hc, hr⟩
      exact hm.served hmax fun s hs => haway s fun heq => hs (heq ▸ howns)
    · right
      exact ⟨hunmirrored, stormy_among hst, w', slot, kept, .inl rfl, hslot, hkept, hstays haway,
        haway⟩
  · obtain ⟨haway, hst⟩ := hpost
    right
    exact ⟨hunmirrored, stormy_among hst, w', slot, kept, .inr rfl, hslot, hkept, hstays haway,
      haway⟩

/-- The decision rule. A readable pair is served from its newest record, or the
copy beside it could not be proven; any other is refused without a change, as
absent exactly when both copies read empty. -/
structure Decided (P : Prims) (p : RecPair) (max : Option ℕ) (later : List Fate) (w : World)
    (out : Outcome (RecRead × Bool) World) : Prop where
  readable : Readable P p w.rmem → ∃ r, Newest P p w.rmem r ∧
    (Served P p max r w out ∨ Unproven P p r later w out)
  refused : ¬Readable P p w.rmem → ∃ res, out = .done (res, false) (bothRead p w) ∧
    (res = .absent ∧ Blank P p w.rmem ∨ (res = .corrupt ∨ res = .error) ∧ ¬Blank P p w.rmem)

/-- `rec_pair_read` follows the rule for any contents of the two slots, when
both can be read and the buffer has room for every payload. -/
theorem recPairRead_decides (P : Prims) (p : RecPair) (w : World) (max : Option ℕ)
    (hmax : ∀ m ∈ max, recPayloadMax ≤ m) (later : List Fate) :
    Decided P p max later w
      (run (chip P) ((recPairRead P p max).run false) (.none :: .none :: later) w) := by
  refine ⟨fun hread => ?_, fun hread => run_recPairRead_refused hread later⟩
  obtain ⟨r, hnew⟩ := hread.newest
  refine ⟨r, hnew, ?_⟩
  obtain ⟨repair, hc⟩ := current_iff_newest.mpr ⟨hread, hnew⟩
  -- where something is to be repaired, one copy is not the record
  have hdiffer : ∀ slot, repair = some slot →
      ¬(w.rmem p.slotA = .data r ∧ w.rmem p.slotB = .data r) := by
    rintro slot rfl ⟨ha, hb⟩
    have hv := (choose_win hc).1
    rw [classify_valid_iff.mpr ⟨ha, hv⟩, classify_valid_iff.mpr ⟨hb, hv⟩, choose_self] at hc
    cases hc
  rw [run_recPairRead_both, hc]
  obtain ⟨hv, ⟨rfl, ha, hb⟩ | ⟨rfl, ha, -⟩ | ⟨rfl, hb, -⟩⟩ := choose_win hc
  · rw [adopt, if_neg (room_of_valid hmax hv)]
    have hm : Mirrored P p (bothRead p w).rmem r := ⟨ha, hb, hv⟩
    exact .inl (hm.served hmax (Away.refl _ w))
  · exact repair_served hmax (.inr ⟨rfl, rfl⟩) hv ha (fun hb => hdiffer _ rfl ⟨ha, hb⟩) later
  · exact repair_served hmax (.inl ⟨rfl, rfl⟩) hv hb (fun ha => hdiffer _ rfl ⟨ha, hb⟩) later

end Decision

/-- A cut after copy A was committed: A is one generation ahead. -/
def demoAhead : World :=
  (World.blank.setR 16 (.data (encode mixPrims demoPair 2 [8]))).setR 17
    (.data (encode mixPrims demoPair 1 [7]))

theorem recPairRead_decides_ahead :
    Readable mixPrims demoPair demoAhead.rmem ∧
      Decided mixPrims demoPair (some recPayloadMax) [] demoAhead
        (run (chip mixPrims) ((recPairRead mixPrims demoPair (some recPayloadMax)).run false)
          [.none, .none] demoAhead) := by
  have hnew : valid mixPrims demoPair (encode mixPrims demoPair 2 [8]) = true :=
    valid_encode _ _ (by decide) (by decide) (by decide)
  have hold : valid mixPrims demoPair (encode mixPrims demoPair 1 [7]) = true :=
    valid_encode _ _ (by decide) (by decide) (by decide)
  have hgen : genOf (encode mixPrims demoPair 2 [8]) =
      genOf (encode mixPrims demoPair 1 [7]) + 1 := by
    rw [genOf_encode _ _ _ (by decide), genOf_encode _ _ _ (by decide)]
  have hcur : Current mixPrims demoPair demoAhead.rmem (encode mixPrims demoPair 2 [8]) :=
    current_iff.mpr ⟨hnew, .inl ⟨rfl, .inr (.inr ⟨_, rfl, hold, hgen⟩)⟩⟩
  exact ⟨(current_iff_newest.mp hcur).1,
    recPairRead_decides mixPrims demoPair demoAhead (some recPayloadMax) (by simp) []⟩

end Nixtropic
