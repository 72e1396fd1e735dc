import Nixtropic.Tropic.RecPairSpec

/-!
The rules of the record-pair calls.

Each rule takes the fates `A` a call may meet, of which a torn one leaves no
valid record of the pair, and says what holds when the call returns and what
holds when it is cut. A failed call is always one that met something: that is
the `Stormy A` in the failure cases, and it is what makes the same rules say
that an undisturbed call succeeds.
-/

namespace Nixtropic

open Crash

/-- The calls a pair makes while it reads, and writes records from `D`. -/
def PairOp (p : RecPair) (D : Bytes → Prop) : Op → Prop
  | .rmemRead slot _ => slot = p.slotA ∨ slot = p.slotB
  | .rmemErase slot => slot = p.slotA ∨ slot = p.slotB
  | .rmemWrite slot data => (slot = p.slotA ∨ slot = p.slotB) ∧ D data
  | _ => False

/-- Only the two slots of the pair changed, by calls of the pair. -/
structure Touches (p : RecPair) (D : Bytes → Prop) (w w' : World) : Prop where
  rmem : ∀ slot, slot ≠ p.slotA → slot ≠ p.slotB → w'.rmem slot = w.rmem slot
  mad : w'.mad = w.mad
  rng : w'.rng = w.rng
  drawn : w'.drawn = w.drawn
  log : ∃ l, w'.log = l ++ w.log ∧ ∀ e ∈ l, PairOp p D e.op

theorem Touches.refl (p : RecPair) (D : Bytes → Prop) (w : World) : Touches p D w w :=
  ⟨fun _ _ _ => rfl, rfl, rfl, rfl, [], rfl, by simp⟩

theorem Touches.trans {p : RecPair} {D : Bytes → Prop} {w₁ w₂ w₃ : World}
    (h : Touches p D w₁ w₂) (h' : Touches p D w₂ w₃) : Touches p D w₁ w₃ := by
  obtain ⟨l, hl, hops⟩ := h.log
  obtain ⟨l', hl', hops'⟩ := h'.log
  refine ⟨fun s ha hb => (h'.rmem s ha hb).trans (h.rmem s ha hb), h'.mad.trans h.mad,
    h'.rng.trans h.rng, h'.drawn.trans h.drawn, l' ++ l, ?_, ?_⟩
  · rw [hl', hl, List.append_assoc]
  · intro e he
    rcases List.mem_append.mp he with he | he
    · exact hops' e he
    · exact hops e he

theorem Touches.mono {p : RecPair} {D D' : Bytes → Prop} {w w' : World}
    (h : Touches p D w w') (hD : ∀ d, D d → D' d) : Touches p D' w w' := by
  obtain ⟨l, hl, hops⟩ := h.log
  refine ⟨h.rmem, h.mad, h.rng, h.drawn, l, hl, fun e he => ?_⟩
  have hop := hops e he
  rcases e with ⟨op, R, m⟩
  cases op with
  | rmemWrite slot data => exact ⟨hop.1, hD _ hop.2⟩
  | _ => exact hop

theorem touches_note {p : RecPair} {D : Bytes → Prop} {o : Op} (ho : PairOp p D o)
    (w : World) : Touches p D w (w.note o) :=
  ⟨fun _ _ _ => rfl, rfl, rfl, rfl, [_], rfl, by simpa using ho⟩

theorem touches_setR {p : RecPair} {D : Bytes → Prop} {slot : ℕ}
    (hslot : slot = p.slotA ∨ slot = p.slotB) (w : World) (c : RSlot) :
    Touches p D w (w.setR slot c) := by
  refine ⟨fun s ha hb => ?_, rfl, rfl, rfl, [], rfl, by simp⟩
  have hne : s ≠ slot := by
    rcases hslot with rfl | rfl
    · exact ha
    · exact hb
  simp [Function.update_of_ne hne]

/-- The slot after an unfinished commit of `r`: as before, `r`, or no record. -/
def HalfCommitted (P : Prims) (p : RecPair) (slot : ℕ) (r : Bytes) (w w' : World) : Prop :=
  ∃ c, (c = w.rmem slot ∨ c = .data r ∨ Invalid P p c) ∧
    w'.rmem = Function.update w.rmem slot c

/-- After `commit_copy`: it reports success only when the slot holds `r`. -/
def CommitPost (P : Prims) (A : Fate → Prop) (p : RecPair) (D : Bytes → Prop) (slot : ℕ)
    (r : Bytes) (u : Bool) (w : World) (ok u' : Bool) (w' : World) : Prop :=
  u' = u ∧ Touches p D w w' ∧
    (ok = true ∧ w'.rmem = Function.update w.rmem slot (.data r) ∨
      ok = false ∧ Stormy A ∧ HalfCommitted P p slot r w w')

def CommitCut (P : Prims) (A : Fate → Prop) (p : RecPair) (D : Bytes → Prop) (slot : ℕ)
    (r : Bytes) (w w' : World) : Prop :=
  Touches p D w w' ∧ Stormy A ∧ HalfCommitted P p slot r w w'

/-- What a pair holds: no record in either slot, or a current one. -/
def Holds (P : Prims) (p : RecPair) (R : ℕ → RSlot) : Option Bytes → Prop
  | none => Invalid P p (R p.slotA) ∧ Invalid P p (R p.slotB)
  | some r => Current P p R r

/-- Both slots read empty. -/
def Blank (P : Prims) (p : RecPair) (R : ℕ → RSlot) : Prop :=
  classify P p (R p.slotA) = .empty ∧ classify P p (R p.slotB) = .empty

/-- After `rec_pair_read` of a pair that held `o`. -/
def ReadPost (P : Prims) (A : Fate → Prop) (p : RecPair) (max : Option ℕ) (o : Option Bytes)
    (u : Bool) (w : World) (res : RecRead) (u' : Bool) (w' : World) : Prop :=
  Touches p (fun d => o = some d) w w' ∧ Holds P p w'.rmem o ∧
    match res with
    | .ok payload gen => u' = false ∧ ∃ r, o = some r ∧ payload = payloadOf r ∧ gen = genOf r ∧
        ¬max.any (· < lenOf r) ∧ Mirrored P p w'.rmem r
    | .absent => u' = false ∧ o = none
    | .corrupt => u' = false ∧ o = none ∧ ¬Blank P p w.rmem
    | .error => u = true ∨ Stormy A ∨ ∃ r, o = some r ∧ max.any (· < lenOf r)

def ReadCut (P : Prims) (A : Fate → Prop) (p : RecPair) (o : Option Bytes) (w w' : World) :
    Prop :=
  Touches p (fun d => o = some d) w w' ∧ Holds P p w'.rmem o ∧ Stormy A

/-- What `commitCopy` has left after its write. -/
def readsBack (slot : ℕ) (r : Bytes) : PairM Bool := do
  match ← tropicRmemRead slot slotMax with
  | .error _ => pure false
  | .ok got => pure (decide (got = r))

/-- What `commitCopy` has left after its erase. -/
def writesBack (slot : ℕ) (r : Bytes) : PairM Bool := do
  match ← tropicRmemWrite slot r with
  | .error _ => pure false
  | .ok () => readsBack slot r

/-- What `eraseChecked` has left after its erase. -/
def readsEmpty (slot : ℕ) : PairM Bool := do
  match ← tropicRmemRead slot slotMax with
  | .error .slotEmpty => pure true
  | .error .other => pure false
  | .ok got => pure (decide (got.length = 0))

section Rules

variable {P : Prims} {A : Fate → Prop} {p : RecPair} {D : Bytes → Prop}
  {u : Bool} {w : World}

/-- A read of one copy. -/
theorem swp_readCopy {slot : ℕ} {Q : Copy → Bool → World → Prop} {C : World → Prop}
    (hok : Q (classify P p (w.rmem slot)) u (w.note (.rmemRead slot slotMax)))
    (herr : Stormy A → Q .err u (w.note (.rmemRead slot slotMax)))
    (hcut : Stormy A → C (w.note (.rmemRead slot slotMax))) :
    swp (chip P) A (readCopy P p slot) Q C u w := by
  rw [readCopy, swp_bind]
  refine swp_rmemRead ?_ herr hcut
  rw [classify] at hok
  rcases hr : (w.rmem slot).read slotMax with (_ | _) | buf
  · rw [hr] at hok
    exact hok
  · rw [hr] at hok
    exact hok
  · simp only [hr] at hok ⊢
    split
    · rw [if_pos (by assumption)] at hok
      exact hok
    · rw [if_neg (by assumption)] at hok
      split
      · rw [if_pos (by assumption)] at hok
        exact hok
      · rw [if_neg (by assumption)] at hok
        exact hok

/-- What follows the write of a commit, with the record or none in the slot. -/
theorem swp_readsBack {slot : ℕ} {r : Bytes} (hslot : slot = p.slotA ∨ slot = p.slotB)
    (hr : valid P p r = true) {w₂ : World} (ht : Touches p D w w₂) {c : RSlot}
    (hc : c = .data r ∨ Stormy A ∧ Invalid P p c) (hrm : w₂.rmem = Function.update w.rmem slot c) :
    swp (chip P) A (readsBack slot r)
      (CommitPost P A p D slot r u w) (CommitCut P A p D slot r w) u w₂ := by
  have hlen := valid_length hr
  simp only [recMax, recHdr, recSum, recPayloadMax] at hlen
  have hread : PairOp p D (.rmemRead slot slotMax) := hslot
  have htr : Touches p D w (w₂.note (.rmemRead slot slotMax)) := ht.trans (touches_note hread w₂)
  have hhalf : HalfCommitted P p slot r w (w₂.note (.rmemRead slot slotMax)) :=
    ⟨c, .inr (hc.imp_right And.right), hrm⟩
  have hslotc : w₂.rmem slot = c := by simp [hrm]
  rw [readsBack, swp_bind]
  refine swp_rmemRead ?_ (fun hst => ⟨rfl, htr, .inr ⟨rfl, hst, hhalf⟩⟩)
    fun hst => ⟨htr, hst, hhalf⟩
  rw [hslotc]
  rcases hc with rfl | ⟨hst, hinv⟩
  · simp only [RSlot.read, swp_pure]
    refine ⟨rfl, htr, .inl ⟨?_, hrm⟩⟩
    simp [List.take_of_length_le (show r.length ≤ slotMax by simp only [slotMax]; omega)]
  · rcases hrd : c.read slotMax with e | got
    · exact ⟨rfl, htr, .inr ⟨rfl, hst, hhalf⟩⟩
    · refine ⟨rfl, htr, .inr ⟨?_, hst, hhalf⟩⟩
      rw [decide_eq_false_iff_not]
      rintro rfl
      refine hinv got ?_
      have hne : got.length ≠ 0 := by omega
      simp [classify, hrd, hr, hne]

/-- What follows the erase of a commit, with nothing or no record in the slot. -/
theorem swp_writesBack (hA : ∀ f, A f → f.leaves (Invalid P p)) {slot : ℕ} {r : Bytes}
    (hslot : slot = p.slotA ∨ slot = p.slotB) (hr : valid P p r = true) (hD : D r) {w₁ : World}
    (ht : Touches p D w w₁) {c : RSlot} (hc : c = .empty ∨ Stormy A ∧ Invalid P p c)
    (hrm : w₁.rmem = Function.update w.rmem slot c) :
    swp (chip P) A (writesBack slot r)
      (CommitPost P A p D slot r u w) (CommitCut P A p D slot r w) u w₁ := by
  have hlen := valid_length hr
  simp only [recMax, recHdr, recSum, recPayloadMax] at hlen
  have hwrite : PairOp p D (.rmemWrite slot r) := ⟨hslot, hD⟩
  have hslotc : w₁.rmem slot = c := by simp [hrm]
  have hcinv : Invalid P p c := by
    rcases hc with rfl | ⟨-, h⟩
    · exact invalid_empty P p
    · exact h
  have hset : ∀ x, ((w₁.note (.rmemWrite slot r)).setR slot x).rmem =
      Function.update w.rmem slot x := by
    intro x
    simp [hrm]
  have htw : ∀ x, Touches p D w ((w₁.note (.rmemWrite slot r)).setR slot x) := fun x =>
    (ht.trans (touches_note hwrite w₁)).trans (touches_setR hslot _ x)
  rw [writesBack, swp_bind]
  refine swp_rmemWrite hA (by omega) (by simp only [rmemSlotSize]; omega) ?_ ?_ ?_ ?_
  · intro _
    exact swp_readsBack hslot hr (htw _) (.inl rfl) (hset _)
  · intro hfull
    rw [hslotc] at hfull
    have hst : Stormy A := by
      rcases hc with rfl | ⟨h, -⟩
      · exact absurd rfl hfull
      · exact h
    exact ⟨rfl, ht.trans (touches_note hwrite w₁), .inr ⟨rfl, hst, c, .inr (.inr hcinv), hrm⟩⟩
  · intro hst res x hx
    have hx' : x = .data r ∨ Invalid P p x := by
      rcases hx with ⟨rfl, -⟩ | rfl | h
      · exact .inr (hslotc ▸ hcinv)
      · exact .inl rfl
      · exact .inr h
    cases res with
    | ok _ => exact swp_readsBack hslot hr (htw x) (hx'.imp_right fun h => ⟨hst, h⟩) (hset x)
    | error _ => exact ⟨rfl, htw x, .inr ⟨rfl, hst, x, .inr hx', hset x⟩⟩
  · intro hst x hx
    refine ⟨htw x, hst, x, .inr ?_, hset x⟩
    rcases hx with rfl | rfl | h
    · exact .inr (hslotc ▸ hcinv)
    · exact .inl rfl
    · exact .inr h

/-- A commit changes the one slot only, and reports success only when the slot
holds the record. -/
theorem swp_commitCopy (hA : ∀ f, A f → f.leaves (Invalid P p)) {slot : ℕ} {r : Bytes}
    (hslot : slot = p.slotA ∨ slot = p.slotB) (hr : valid P p r = true) (hD : D r) :
    swp (chip P) A (commitCopy slot r)
      (CommitPost P A p D slot r u w) (CommitCut P A p D slot r w) u w := by
  have herase : PairOp p D (.rmemErase slot) := hslot
  have hset : ∀ x, ((w.note (.rmemErase slot)).setR slot x).rmem =
      Function.update w.rmem slot x := fun x => rfl
  have hte : ∀ x, Touches p D w ((w.note (.rmemErase slot)).setR slot x) := fun x =>
    (touches_note herase w).trans (touches_setR hslot _ x)
  rw [commitCopy, swp_bind]
  refine swp_rmemErase hA ?_ ?_ ?_
  · exact swp_writesBack hA hslot hr hD (hte _) (.inl rfl) (hset _)
  · intro hst res x hx
    cases res with
    | ok _ =>
        refine swp_writesBack hA hslot hr hD (hte x) (.inr ⟨hst, ?_⟩) (hset x)
        rcases hx with ⟨-, h⟩ | rfl | h
        · cases h
        · exact invalid_empty P p
        · exact h
    | error _ =>
        refine ⟨rfl, hte x, .inr ⟨rfl, hst, x, ?_, hset x⟩⟩
        rcases hx with ⟨rfl, -⟩ | rfl | h
        · exact .inl rfl
        · exact .inr (.inr (invalid_empty P p))
        · exact .inr (.inr h)
  · intro hst x hx
    refine ⟨hte x, hst, x, ?_, hset x⟩
    rcases hx with rfl | rfl | h
    · exact .inl rfl
    · exact .inr (.inr (invalid_empty P p))
    · exact .inr (.inr h)

/-- The choice a read makes between the two copies, and what it leaves to
repair. -/
theorem choose_holds {R : ℕ → RSlot} {o : Option Bytes} (ho : Holds P p R o) :
    match choose p (classify P p (R p.slotA)) (classify P p (R p.slotB)) with
    | .win r repair => o = some r ∧ valid P p r = true ∧
        match repair with
        | none => Mirrored P p R r
        | some slot => slot = p.slotA ∧ R p.slotB = .data r ∧ Behind P p r (R p.slotA) ∨
            slot = p.slotB ∧ R p.slotA = .data r ∧ Behind P p r (R p.slotB)
    | .absent => o = none
    | .corrupt => o = none ∧ ¬Blank P p R
    | .error => False := by
  cases o with
  | none =>
      obtain ⟨ha, hb⟩ := ho
      rcases hca : classify P p (R p.slotA) with r | _ | _ | _
      · exact absurd hca (ha r)
      all_goals rcases hcb : classify P p (R p.slotB) with r | _ | _ | _
      all_goals first
        | exact absurd hcb (hb _)
        | exact absurd hca (classify_ne_err P p _)
        | exact absurd hcb (classify_ne_err P p _)
        | rfl
        | exact ⟨rfl, by simp [Blank, hca, hcb]⟩
  | some r =>
      obtain ⟨repair, h⟩ := ho
      rw [h]
      obtain ⟨hv, ⟨rfl, ha, hb⟩ | ⟨rfl, ha, hb⟩ | ⟨rfl, hb, ha⟩⟩ := choose_win h
      · exact ⟨rfl, hv, ha, hb, hv⟩
      · exact ⟨rfl, hv, .inr ⟨rfl, ha, hb⟩⟩
      · exact ⟨rfl, hv, .inl ⟨rfl, hb, ha⟩⟩

/-- A copy half rewritten from the record is still behind it. -/
theorem behind_halfCommitted {r : Bytes} {c c' : RSlot} (h : Behind P p r c)
    (hc : c' = c ∨ c' = .data r ∨ Invalid P p c') : Behind P p r c' := by
  rcases hc with rfl | rfl | hc
  · exact h
  · exact .inl rfl
  · exact .inr (.inl hc)

/-- Repairing the slot behind the record ends in two equal copies, and an
unfinished repair leaves it behind. -/
theorem current_repair {R : ℕ → RSlot} {r : Bytes} {slot : ℕ} (hv : valid P p r = true)
    (h : slot = p.slotA ∧ R p.slotB = .data r ∧ Behind P p r (R p.slotA) ∨
      slot = p.slotB ∧ R p.slotA = .data r ∧ Behind P p r (R p.slotB)) :
    Mirrored P p (Function.update R slot (.data r)) r ∧
      ∀ c, (c = R slot ∨ c = .data r ∨ Invalid P p c) →
        Current P p (Function.update R slot c) r := by
  have hne := p.slots_ne
  rcases h with ⟨rfl, hb, ha⟩ | ⟨rfl, ha, hb⟩
  · refine ⟨⟨by simp, by simp [hne.symm, hb], hv⟩, fun c hc => ?_⟩
    refine current_iff.mpr ⟨hv, .inr ⟨by simp [hne.symm, hb], ?_⟩⟩
    simpa using behind_halfCommitted ha hc
  · refine ⟨⟨by simp [hne, ha], by simp, hv⟩, fun c hc => ?_⟩
    refine current_iff.mpr ⟨hv, .inl ⟨by simp [hne, ha], ?_⟩⟩
    simpa using behind_halfCommitted hb hc

theorem swp_adopt (hA : ∀ f, A f → f.leaves (Invalid P p)) {max : Option ℕ}
    {o : Option Bytes} (ho : Holds P p w.rmem o) :
    swp (chip P) A
      (adopt max (choose p (classify P p (w.rmem p.slotA)) (classify P p (w.rmem p.slotB))))
      (ReadPost P A p max o false w) (ReadCut P A p o w) false w := by
  have hch := choose_holds ho
  generalize choose p (classify P p (w.rmem p.slotA)) (classify P p (w.rmem p.slotB)) = ch
    at hch ⊢
  rcases ch with ⟨r, repair⟩ | _ | _ | _
  · obtain ⟨rfl, hv, hrepair⟩ := hch
    simp only [adopt]
    split
    · rename_i hmax
      exact ⟨.refl .., ho, .inr (.inr ⟨r, rfl, hmax⟩)⟩
    · rename_i hmax
      cases repair with
      | none => exact ⟨.refl .., ho, rfl, r, rfl, rfl, rfl, hmax, hrepair⟩
      | some slot =>
          have hslot : slot = p.slotA ∨ slot = p.slotB := hrepair.imp And.left And.left
          obtain ⟨hdone, hhalf⟩ := current_repair hv hrepair
          rw [swp_bind]
          refine swp_mono
            (swp_commitCopy (D := fun d => some r = some d) hA hslot hv rfl) ?_ ?_
          · rintro ok u' w' ⟨rfl, ht, ⟨rfl, hr⟩ | ⟨rfl, hst, c, hc, hr⟩⟩
            · rw [← hr] at hdone
              exact ⟨ht, hdone.current, rfl, r, rfl, rfl, rfl, hmax, hdone⟩
            · have hcur := hhalf c hc
              rw [← hr] at hcur
              exact ⟨ht, hcur, .inr (.inl hst)⟩
          · rintro w' ⟨ht, hst, c, hc, hr⟩
            have hcur := hhalf c hc
            rw [← hr] at hcur
            exact ⟨ht, hcur, hst⟩
  · exact ⟨.refl .., ho, rfl, hch⟩
  · exact ⟨.refl .., ho, rfl, hch⟩
  · exact hch.elim

/-- A read keeps what the pair holds. When it succeeds both copies hold the
record, and it fails only when the pair is uncertain, the buffer is short or a
call met something. -/
theorem swp_recPairRead (hA : ∀ f, A f → f.leaves (Invalid P p)) {max : Option ℕ}
    {o : Option Bytes} (ho : Holds P p w.rmem o) :
    swp (chip P) A (recPairRead P p max) (ReadPost P A p max o u w) (ReadCut P A p o w) u w := by
  have hreadA : PairOp p (fun d => o = some d) (.rmemRead p.slotA slotMax) := .inl rfl
  have hreadB : PairOp p (fun d => o = some d) (.rmemRead p.slotB slotMax) := .inr rfl
  have htA := touches_note hreadA w
  have htAB := htA.trans (touches_note hreadB (w.note (.rmemRead p.slotA slotMax)))
  rw [recPairRead, swp_bind, swp_get]
  cases u with
  | true => exact ⟨.refl .., ho, .inl rfl⟩
  | false =>
      simp only [Bool.false_eq_true, if_false]
      rw [swp_bind]
      refine swp_readCopy ?_ (fun hst => ⟨htA, ho, .inr (.inl hst)⟩) (fun hst => ⟨htA, ho, hst⟩)
      rw [if_neg (classify_ne_err P p _), swp_bind]
      refine swp_readCopy ?_ (fun hst => ⟨htAB, ho, .inr (.inl hst)⟩)
        (fun hst => ⟨htAB, ho, hst⟩)
      rw [if_neg (classify_ne_err P p _)]
      refine swp_mono (swp_adopt (w := (w.note (.rmemRead p.slotA slotMax)).note
        (.rmemRead p.slotB slotMax)) hA ho) ?_ ?_
      · rintro res u' w' ⟨ht, hres⟩
        exact ⟨htAB.trans ht, hres⟩
      · rintro w' ⟨ht, hres⟩
        exact ⟨htAB.trans ht, hres⟩

/-- A write may start: both copies hold the record, and the new one is its
successor; or neither slot holds a record. -/
def Ready (P : Prims) (p : RecPair) (R : ℕ → RSlot) (o : Option Bytes) (new : Bytes) : Prop :=
  Nixtropic.valid P p new = true ∧
    match o with
    | none => Holds P p R none
    | some r => Mirrored P p R r ∧ genOf new = genOf r + 1

theorem Ready.holds {R : ℕ → RSlot} {o : Option Bytes} {new : Bytes}
    (h : Ready P p R o new) : Holds P p R o := by
  cases o with
  | none => exact h.2
  | some r => exact h.2.1.current

/-- While copy A is being written the pair holds the old record or the new
one. -/
theorem Ready.half_a {R : ℕ → RSlot} {o : Option Bytes} {new : Bytes}
    (h : Ready P p R o new) {c : RSlot}
    (hc : c = R p.slotA ∨ c = .data new ∨ Invalid P p c) :
    Holds P p (Function.update R p.slotA c) o ∨
      Holds P p (Function.update R p.slotA c) (some new) := by
  obtain ⟨hv, h⟩ := h
  have hne := p.slots_ne.symm
  cases o with
  | none =>
      obtain ⟨ha, hb⟩ := h
      rcases hc with rfl | rfl | hc
      · exact .inl ⟨by simpa using ha, by simpa [hne] using hb⟩
      · exact .inr (current_iff.mpr ⟨hv, .inl ⟨by simp, .inr (.inl (by simpa [hne] using hb))⟩⟩)
      · exact .inl ⟨by simpa using hc, by simpa [hne] using hb⟩
  | some r =>
      obtain ⟨hm, hgen⟩ := h
      rcases hc with rfl | rfl | hc
      · exact .inl (current_iff.mpr ⟨hm.valid, .inl ⟨by simp [hm.a], .inl (by simp [hne, hm.b])⟩⟩)
      · exact .inr (current_iff.mpr ⟨hv, .inl ⟨by simp,
          .inr (.inr ⟨r, by simp [hne, hm.b], hm.valid, hgen⟩)⟩⟩)
      · exact .inl (current_iff.mpr ⟨hm.valid,
          .inr ⟨by simp [hne, hm.b], .inr (.inl (by simpa using hc))⟩⟩)

/-- While copy B is being written the pair holds the new record. -/
theorem Ready.half_b {R : ℕ → RSlot} {o : Option Bytes} {new : Bytes}
    (h : Ready P p R o new) {c : RSlot}
    (hc : c = R p.slotB ∨ c = .data new ∨ Invalid P p c) :
    Holds P p (Function.update (Function.update R p.slotA (.data new)) p.slotB c)
      (some new) := by
  obtain ⟨hv, h⟩ := h
  have hne := p.slots_ne
  refine current_iff.mpr ⟨hv, .inl ⟨by simp [hne], ?_⟩⟩
  rw [Function.update_self]
  rcases hc with rfl | rfl | hc
  · cases o with
    | none => exact .inr (.inl h.2)
    | some r => exact .inr (.inr ⟨r, h.1.b, h.1.valid, h.2⟩)
  · exact .inl rfl
  · exact .inr (.inl hc)

/-- After `commit_both`: acknowledged, and then in both copies, or one of the
two records. -/
def BothPost (P : Prims) (A : Fate → Prop) (p : RecPair) (o : Option Bytes) (new : Bytes)
    (u : Bool) (w : World) (res : RecStatus) (u' : Bool) (w' : World) : Prop :=
  Touches p (fun d => d = new) w w' ∧
    (res = .ok ∧ u' = u ∧ Mirrored P p w'.rmem new ∨
      res = .error ∧ Stormy A ∧ (Holds P p w'.rmem o ∨ Holds P p w'.rmem (some new)))

def BothCut (P : Prims) (A : Fate → Prop) (p : RecPair) (o : Option Bytes) (new : Bytes)
    (w w' : World) : Prop :=
  Touches p (fun d => d = new) w w' ∧ Stormy A ∧
    (Holds P p w'.rmem o ∨ Holds P p w'.rmem (some new))

theorem swp_commitBoth (hA : ∀ f, A f → f.leaves (Invalid P p)) {gen : ℕ} {payload : Bytes}
    {o : Option Bytes} (h : Ready P p w.rmem o (encode P p gen payload)) :
    swp (chip P) A (commitBoth P p gen payload)
      (BothPost P A p o (encode P p gen payload) u w)
      (BothCut P A p o (encode P p gen payload) w) u w := by
  rw [commitBoth, swp_bind]
  generalize encode P p gen payload = new at h ⊢
  have hne := p.slots_ne
  refine swp_mono (swp_commitCopy (D := fun d => d = new) hA (.inl rfl) h.1 rfl) ?_ ?_
  · rintro ok u₁ w₁ ⟨rfl, ht, ⟨rfl, hr⟩ | ⟨rfl, hst, c, hc, hr⟩⟩
    · simp only [if_true]
      rw [swp_bind]
      refine swp_mono (swp_commitCopy (D := fun d => d = new) hA (.inr rfl) h.1 rfl) ?_ ?_
      · rintro ok u₂ w₂ ⟨rfl, ht', ⟨rfl, hr'⟩ | ⟨rfl, hst, c, hc, hr'⟩⟩
        · refine ⟨ht.trans ht', .inl ⟨rfl, rfl, ⟨?_, ?_, h.1⟩⟩⟩
          · simp [hr', hr, hne]
          · simp [hr']
        · refine ⟨ht.trans ht', .inr ⟨rfl, hst, .inr ?_⟩⟩
          rw [hr', hr]
          exact h.half_b (by simpa [hr, hne.symm] using hc)
      · rintro w₂ ⟨ht', hst, c, hc, hr'⟩
        refine ⟨ht.trans ht', hst, .inr ?_⟩
        rw [hr', hr]
        exact h.half_b (by simpa [hr, hne.symm] using hc)
    · refine ⟨ht, .inr ⟨rfl, hst, ?_⟩⟩
      rw [hr]
      exact h.half_a hc
  · rintro w₁ ⟨ht, hst, c, hc, hr⟩
    refine ⟨ht, hst, ?_⟩
    rw [hr]
    exact h.half_a hc

/-- The records `rec_pair_write` may write: the one it read, and its successor
with the new payload. -/
def WriteData (P : Prims) (p : RecPair) (o : Option Bytes) (payload : Bytes) (d : Bytes) :
    Prop :=
  ∃ r, o = some r ∧ (d = r ∨ d = encode P p (genOf r + 1) payload)

/-- What the pair holds once a write of `payload` may have taken effect. -/
def Wrote (P : Prims) (p : RecPair) (o : Option Bytes) (payload : Bytes) (R : ℕ → RSlot) :
    Prop :=
  ∃ r, o = some r ∧ genOf r < uint32Max ∧ payload.length ≤ recPayloadMax ∧
    Current P p R (encode P p (genOf r + 1) payload)

def WritePost (P : Prims) (A : Fate → Prop) (p : RecPair) (o : Option Bytes)
    (payload : Bytes) (u : Bool) (w : World) (res : RecStatus) (u' : Bool) (w' : World) :
    Prop :=
  Touches p (WriteData P p o payload) w w' ∧
    match res with
    | .ok => u' = false ∧ ∃ r, o = some r ∧ genOf r < uint32Max ∧
        payload.length ≤ recPayloadMax ∧
        Mirrored P p w'.rmem (encode P p (genOf r + 1) payload)
    | .absent => o = none ∧ Holds P p w'.rmem o
    | .corrupt => o = none ∧ Holds P p w'.rmem o
    | .error => (Holds P p w'.rmem o ∨ Wrote P p o payload w'.rmem) ∧
        (u = true ∨ Stormy A ∨ recPayloadMax < payload.length ∨
          ∃ r, o = some r ∧ genOf r = uint32Max)

def WriteCut (P : Prims) (A : Fate → Prop) (p : RecPair) (o : Option Bytes)
    (payload : Bytes) (w w' : World) : Prop :=
  Touches p (WriteData P p o payload) w w' ∧ Stormy A ∧
    (Holds P p w'.rmem o ∨ Wrote P p o payload w'.rmem)

/-- A write moves the pair at most to the successor record, and acknowledges
it only when both copies hold it. -/
theorem swp_recPairWrite (hA : ∀ f, A f → f.leaves (Invalid P p)) {payload : Bytes}
    {o : Option Bytes} (ho : Holds P p w.rmem o) :
    swp (chip P) A (recPairWrite P p payload) (WritePost P A p o payload u w)
      (WriteCut P A p o payload w) u w := by
  rw [recPairWrite]
  split
  · rename_i hbad
    have hlen : recPayloadMax < payload.length := of_decide_eq_true hbad
    exact ⟨.refl .., .inl ho, .inr (.inr (.inl hlen))⟩
  · rename_i hbad
    have hlen : payload.length ≤ recPayloadMax := by
      simpa [badArgs] using hbad
    have hold : ∀ {w' : World}, Touches p (fun d => o = some d) w w' →
        Touches p (WriteData P p o payload) w w' :=
      fun ht => ht.mono fun d hd => ⟨d, hd, .inl rfl⟩
    rw [swp_bind]
    refine swp_mono (swp_recPairRead hA ho) ?_ ?_
    · rintro (⟨payload', gen⟩ | _ | _ | _) u₁ w₁ ⟨ht, ho₁, hres⟩
      · obtain ⟨rfl, r, rfl, -, rfl, -, hm⟩ := hres
        simp only []
        split
        · rename_i hmax
          exact ⟨hold ht, .inl ho₁, .inr (.inr (.inr ⟨r, rfl, hmax⟩))⟩
        · rename_i hmax
          have hlt : genOf r < uint32Max := by
            have := genOf_lt r
            simp only [uint32Max] at hmax ⊢
            omega
          have hgen : genOf r + 1 < 2 ^ 32 := by
            simp only [uint32Max] at hlt
            omega
          have hready : Ready P p w₁.rmem (some r) (encode P p (genOf r + 1) payload) :=
            ⟨valid_encode P p (Nat.succ_ne_zero _) hgen hlen, hm, genOf_encode P p payload hgen⟩
          have hnew : ∀ {w' : World},
              Touches p (fun d => d = encode P p (genOf r + 1) payload) w₁ w' →
              Touches p (WriteData P p (some r) payload) w w' :=
            fun ht' => (hold ht).trans (ht'.mono fun d hd => ⟨r, rfl, .inr hd⟩)
          have hwrote : ∀ {R : ℕ → RSlot}, Holds P p R (some (encode P p (genOf r + 1) payload)) →
              Wrote P p (some r) payload R := fun h => ⟨r, rfl, hlt, hlen, h⟩
          refine swp_mono (swp_commitBoth hA hready) ?_ ?_
          · rintro res u₂ w₂ ⟨ht', ⟨rfl, rfl, hm'⟩ | ⟨rfl, hst, h⟩⟩
            · exact ⟨hnew ht', rfl, r, rfl, hlt, hlen, hm'⟩
            · exact ⟨hnew ht', h.imp_right hwrote, .inr (.inl hst)⟩
          · rintro w₂ ⟨ht', hst, h⟩
            exact ⟨hnew ht', hst, h.imp_right hwrote⟩
      · exact ⟨hold ht, hres.2, ho₁⟩
      · exact ⟨hold ht, hres.2.1, ho₁⟩
      · refine ⟨hold ht, .inl ho₁, ?_⟩
        rcases hres with h | h | ⟨r, -, h⟩
        · exact .inl h
        · exact .inr (.inl h)
        · simp at h
    · rintro w₁ ⟨ht, ho₁, hst⟩
      exact ⟨hold ht, hst, .inl ho₁⟩

/-- Every slot is as before, or holds no record. -/
def Erasing (P : Prims) (p : RecPair) (R R' : ℕ → RSlot) : Prop :=
  ∀ slot, R' slot = R slot ∨ Invalid P p (R' slot)

theorem Erasing.refl (P : Prims) (p : RecPair) (R : ℕ → RSlot) : Erasing P p R R :=
  fun _ => .inl rfl

theorem Erasing.trans {R R' R'' : ℕ → RSlot} (h : Erasing P p R R') (h' : Erasing P p R' R'') :
    Erasing P p R R'' := by
  intro slot
  rcases h' slot with hs | hs
  · rw [hs]
    exact h slot
  · exact .inr hs

theorem Erasing.update {R : ℕ → RSlot} {slot : ℕ} {c : RSlot}
    (hc : c = R slot ∨ Invalid P p c) : Erasing P p R (Function.update R slot c) := by
  intro s
  by_cases hs : s = slot
  · subst hs
    simpa using hc
  · exact .inl (Function.update_of_ne hs _ _)

theorem Erasing.invalid {R R' : ℕ → RSlot} (h : Erasing P p R R') {slot : ℕ}
    (hs : Invalid P p (R slot)) : Invalid P p (R' slot) := by
  rcases h slot with h | h
  · rw [h]
    exact hs
  · exact h

/-- After `erase_checked`: it is acknowledged only when the slot holds no record. -/
def ErasePost (P : Prims) (A : Fate → Prop) (p : RecPair) (slot : ℕ) (u : Bool) (w : World)
    (ok u' : Bool) (w' : World) : Prop :=
  u' = u ∧ Touches p (fun _ => False) w w' ∧ Erasing P p w.rmem w'.rmem ∧
    (ok = true ∧ Invalid P p (w'.rmem slot) ∨ ok = false ∧ Stormy A)

def EraseCut (P : Prims) (A : Fate → Prop) (p : RecPair) (w w' : World) : Prop :=
  Touches p (fun _ => False) w w' ∧ Erasing P p w.rmem w'.rmem ∧ Stormy A

/-- What follows the erase, with nothing or no record in the slot. -/
theorem swp_readsEmpty {slot : ℕ} (hslot : slot = p.slotA ∨ slot = p.slotB) {w₁ : World}
    (ht : Touches p (fun _ => False) w w₁) (herasing : Erasing P p w.rmem w₁.rmem)
    (hc : w₁.rmem slot = .empty ∨ Stormy A ∧ Invalid P p (w₁.rmem slot)) :
    swp (chip P) A (readsEmpty slot) (ErasePost P A p slot u w) (EraseCut P A p w) u w₁ := by
  have hread : PairOp p (fun _ => False) (.rmemRead slot slotMax) := hslot
  have htr : Touches p (fun _ => False) w (w₁.note (.rmemRead slot slotMax)) :=
    ht.trans (touches_note hread _)
  have hinv : Invalid P p (w₁.rmem slot) := hc.elim (fun h => h ▸ invalid_empty P p) And.right
  have hdone : ∀ ok, ok = true ∨ ok = false ∧ Stormy A →
      ErasePost P A p slot u w ok u (w₁.note (.rmemRead slot slotMax)) :=
    fun ok hok => ⟨rfl, htr, herasing, hok.imp_left fun h => ⟨h, hinv⟩⟩
  rw [readsEmpty, swp_bind]
  refine swp_rmemRead ?_ (fun hst => hdone false (.inr ⟨rfl, hst⟩)) fun hst => ⟨htr, herasing, hst⟩
  cases hslotc : w₁.rmem slot with
  | empty => exact hdone true (.inl rfl)
  | masked => exact hdone true (.inl rfl)
  | data b =>
      rcases hc with h | ⟨hst, -⟩
      · rw [hslotc] at h
        cases h
      · refine hdone (decide ((b.take slotMax).length = 0)) ?_
        cases decide ((b.take slotMax).length = 0)
        · exact .inr ⟨rfl, hst⟩
        · exact .inl rfl

theorem swp_eraseChecked (hA : ∀ f, A f → f.leaves (Invalid P p)) {slot : ℕ}
    (hslot : slot = p.slotA ∨ slot = p.slotB) :
    swp (chip P) A (eraseChecked slot) (ErasePost P A p slot u w) (EraseCut P A p w) u w := by
  have herase : PairOp p (fun _ => False) (.rmemErase slot) := hslot
  have ht : ∀ c, Touches p (fun _ => False) w ((w.note (.rmemErase slot)).setR slot c) :=
    fun c => (touches_note herase w).trans (touches_setR hslot _ c)
  have herasing : ∀ c, c = w.rmem slot ∨ Invalid P p c →
      Erasing P p w.rmem ((w.note (.rmemErase slot)).setR slot c).rmem :=
    fun c hc => Erasing.update hc
  have back : ∀ c, c = .empty ∨ Stormy A ∧ Invalid P p c →
      swp (chip P) A (readsEmpty slot) (ErasePost P A p slot u w) (EraseCut P A p w) u
        ((w.note (.rmemErase slot)).setR slot c) := by
    intro c hc
    have hslotc : ((w.note (.rmemErase slot)).setR slot c).rmem slot = c := by simp
    have hinv : Invalid P p c := hc.elim (fun h => h ▸ invalid_empty P p) And.right
    exact swp_readsEmpty hslot (ht c) (herasing c (.inr hinv)) (by rwa [hslotc])
  rw [eraseChecked, swp_bind]
  refine swp_rmemErase hA (back _ (.inl rfl)) ?_ ?_
  · intro hst res c hc
    cases res with
    | ok _ =>
        refine back c (.inr ⟨hst, ?_⟩)
        rcases hc with ⟨-, h⟩ | rfl | h
        · cases h
        · exact invalid_empty P p
        · exact h
    | error _ =>
        refine ⟨rfl, ht c, herasing c ?_, .inr ⟨rfl, hst⟩⟩
        rcases hc with ⟨rfl, -⟩ | rfl | h
        · exact .inl rfl
        · exact .inr (invalid_empty P p)
        · exact .inr h
  · intro hst c hc
    refine ⟨ht c, herasing c ?_, hst⟩
    rcases hc with rfl | rfl | h
    · exact .inl rfl
    · exact .inr (invalid_empty P p)
    · exact .inr h

/-- A cleared pair holds nothing; an unfinished clear only loses copies. -/
theorem swp_recPairClear (hA : ∀ f, A f → f.leaves (Invalid P p)) :
    swp (chip P) A (recPairClear p)
      (fun res u' w' => Touches p (fun _ => False) w w' ∧ Erasing P p w.rmem w'.rmem ∧
        (res = .ok ∧ u' = false ∧ Holds P p w'.rmem none ∨
          res = .error ∧ (u = true ∨ Stormy A)))
      (fun w' => Touches p (fun _ => False) w w' ∧ Erasing P p w.rmem w'.rmem ∧ Stormy A)
      u w := by
  rw [recPairClear, swp_bind, swp_get]
  cases u with
  | true => exact ⟨.refl .., Erasing.refl P p _, .inr ⟨rfl, .inl rfl⟩⟩
  | false =>
      simp only [Bool.false_eq_true, if_false]
      rw [swp_bind]
      refine swp_mono (swp_eraseChecked hA (.inr rfl)) ?_ fun _ h => h
      rintro ok u₁ w₁ ⟨rfl, ht, her, ⟨rfl, hb⟩ | ⟨rfl, hst⟩⟩
      · simp only [if_true]
        rw [swp_bind]
        refine swp_mono (swp_eraseChecked hA (.inl rfl)) ?_ ?_
        · rintro ok u₂ w₂ ⟨rfl, ht', her', ⟨rfl, ha⟩ | ⟨rfl, hst⟩⟩
          · exact ⟨ht.trans ht', her.trans her', .inl ⟨rfl, rfl, ha, her'.invalid hb⟩⟩
          · exact ⟨ht.trans ht', her.trans her', .inr ⟨rfl, .inr hst⟩⟩
        · rintro w₂ ⟨ht', her', hst⟩
          exact ⟨ht.trans ht', her.trans her', hst⟩
      · exact ⟨ht, her, .inr ⟨rfl, .inr hst⟩⟩

def InitPost (P : Prims) (A : Fate → Prop) (p : RecPair) (payload : Bytes) (u : Bool)
    (w : World) (res : RecStatus) (u' : Bool) (w' : World) : Prop :=
  Touches p (fun d => d = encode P p 1 payload) w w' ∧
    (res = .ok ∧ u' = false ∧ payload.length ≤ recPayloadMax ∧
        Mirrored P p w'.rmem (encode P p 1 payload) ∨
      res = .error ∧ (u = true ∨ Stormy A ∨ recPayloadMax < payload.length) ∧
        (Holds P p w.rmem none → Holds P p w'.rmem none ∨
          Holds P p w'.rmem (some (encode P p 1 payload))))

def InitCut (P : Prims) (A : Fate → Prop) (p : RecPair) (payload : Bytes) (w w' : World) :
    Prop :=
  Touches p (fun d => d = encode P p 1 payload) w w' ∧ Stormy A ∧
    (Holds P p w.rmem none → Holds P p w'.rmem none ∨
      Holds P p w'.rmem (some (encode P p 1 payload)))

/-- `rec_pair_init` acknowledges generation 1 of the payload, whatever the
slots held before; started from no record, it ends in none or in that one. -/
theorem swp_recPairInit (hA : ∀ f, A f → f.leaves (Invalid P p)) {payload : Bytes} :
    swp (chip P) A (recPairInit P p payload) (InitPost P A p payload u w)
      (InitCut P A p payload w) u w := by
  rw [recPairInit]
  split
  · rename_i hbad
    have hlen : recPayloadMax < payload.length := of_decide_eq_true hbad
    exact ⟨.refl .., .inr ⟨rfl, .inr (.inr hlen), .inl⟩⟩
  · rename_i hbad
    have hlen : payload.length ≤ recPayloadMax := by
      simpa [badArgs] using hbad
    have hclear : ∀ {w' : World}, Touches p (fun _ => False) w w' →
        Touches p (fun d => d = encode P p 1 payload) w w' := fun ht => ht.mono nofun
    have hnone : ∀ {w' : World}, Erasing P p w.rmem w'.rmem → Holds P p w.rmem none →
        Holds P p w'.rmem none := fun her h => ⟨her.invalid h.1, her.invalid h.2⟩
    rw [swp_bind]
    refine swp_mono (swp_recPairClear hA) ?_ ?_
    · rintro res u₁ w₁ ⟨ht, her, ⟨rfl, rfl, hvac⟩ | ⟨rfl, hwhy⟩⟩
      · have hready : Ready P p w₁.rmem none (encode P p 1 payload) :=
          ⟨valid_encode P p one_ne_zero (by omega) hlen, hvac⟩
        refine swp_mono (swp_commitBoth hA hready) ?_ ?_
        · rintro res u₂ w₂ ⟨ht', ⟨rfl, rfl, hm⟩ | ⟨rfl, hst, h⟩⟩
          · exact ⟨(hclear ht).trans ht', .inl ⟨rfl, rfl, hlen, hm⟩⟩
          · exact ⟨(hclear ht).trans ht', .inr ⟨rfl, .inr (.inl hst), fun _ => h⟩⟩
        · rintro w₂ ⟨ht', hst, h⟩
          exact ⟨(hclear ht).trans ht', hst, fun _ => h⟩
      · exact ⟨hclear ht, .inr ⟨rfl, hwhy.imp_right .inl, fun h => .inl (hnone her h)⟩⟩
    · rintro w₁ ⟨ht, her, hst⟩
      exact ⟨hclear ht, hst, fun h => .inl (hnone her h)⟩

end Rules

end Nixtropic
