import Nixtropic.Pgp.Session
import Nixtropic.Tropic.RecPairFailure

/-!
What the functions of `openpgp_state.c` leave on the chip and in RAM.

O3 is judged by the payload of the record that a read settles on. A commit moves
it from the payload it had to the new one, and the copy in RAM follows only when
both copies on the chip are written; a commit of unknown outcome leaves the copy
unusable. Whatever else is on the chip stays.
-/

namespace Nixtropic.Pgp

open Crash

/-- O3 holds a record with the payload `p`. -/
def O3At (F : PgpPrims) (R : ℕ → RSlot) (p : Bytes) : Prop :=
  ∃ r, Current F.chip o3 R r ∧ payloadOf r = p

/-- Both copies of O3 hold a record with the payload `p`. -/
def O3Both (F : PgpPrims) (R : ℕ → RSlot) (p : Bytes) : Prop :=
  ∃ r, Mirrored F.chip o3 R r ∧ payloadOf r = p

section At

variable {F : PgpPrims} {R R' : ℕ → RSlot} {p p' : Bytes}

theorem O3Both.at (h : O3Both F R p) : O3At F R p := by
  obtain ⟨r, hm, hr⟩ := h
  exact ⟨r, hm.current, hr⟩

theorem O3At.unique (h : O3At F R p) (h' : O3At F R p') : p = p' := by
  obtain ⟨r, hc, rfl⟩ := h
  obtain ⟨r', hc', rfl⟩ := h'
  rw [hc.unique hc']

/-- What O3 holds depends on its two slots only. -/
theorem O3At.congr (h : O3At F R p) (ha : R' o3.slotA = R o3.slotA)
    (hb : R' o3.slotB = R o3.slotB) :
    O3At F R' p := by
  obtain ⟨r, ⟨repair, hc⟩, hr⟩ := h
  refine ⟨r, ⟨repair, ?_⟩, hr⟩
  rw [ha, hb]
  exact hc

theorem o3At_holds (h : Holds F.chip o3 R none) : ¬O3At F R p := by
  rintro ⟨r, hc, -⟩
  obtain ⟨-, ⟨ha, -⟩ | ⟨hb, -⟩⟩ := current_iff.mp hc
  · exact h.1.ne_data hc.valid ha
  · exact h.2.ne_data hc.valid hb

theorem o3Both_encode {gen : ℕ} (hlen : p.length ≤ recPayloadMax)
    (h : Mirrored F.chip o3 R (encode F.chip o3 gen p)) : O3Both F R p :=
  ⟨_, h, payloadOf_encode F.chip o3 gen hlen⟩

end At

/-- Only the slots of O3 changed. -/
abbrev AtO3 (w w' : World) : Prop := Touches o3 (fun _ => True) w w'

theorem atO3_of {D : Bytes → Prop} {w w' : World} (h : Touches o3 D w w') : AtO3 w w' :=
  h.mono fun _ _ => trivial

/-- Only the slots of O3 changed, and O3 holds what it held. -/
def Kept (F : PgpPrims) (w w' : World) : Prop :=
  AtO3 w w' ∧ ∀ p, O3At F w'.rmem p ↔ O3At F w.rmem p

/-- The copy in RAM was replaced by one that is not loaded. -/
def PgpRam.Shut (u u' : PgpRam) : Prop := ∃ s : O3Ram, s.loaded = false ∧ u' = { u with o3 := s }

/-- The variables once O3 was read with the payload `p`. -/
def PgpRam.opened (u : PgpRam) (p : Bytes) : PgpRam := { u with o3 := ⟨p, true, false⟩ }

/-- The variables once the payload `p` is committed. -/
def PgpRam.withCur (u : PgpRam) (p : Bytes) : PgpRam := { u with o3 := { u.o3 with cur := p } }

theorem usable_iff {r : O3Ram} : r.usable = true ↔ r.loaded = true ∧ r.uncertain = false := by
  simp [O3Ram.usable]

theorem PgpRam.Shut.not_usable {u u' : PgpRam} (h : u.Shut u') : u'.o3.usable = false := by
  obtain ⟨s, hs, rfl⟩ := h
  simp [O3Ram.usable, hs]

theorem lifecycle_operational {r : O3Ram} : r.lifecycle = .operational ↔
    r.usable = true ∧ r.cur.getD offLc 0 = Lifecycle.operational.code := by
  rw [O3Ram.lifecycle]
  generalize r.cur.getD offLc 0 = lc
  cases r.usable with
  | false => simp
  | true =>
      simp only [if_true, true_and]
      split
      · simp [*]
      · split
        · rename_i h
          simp [h, Lifecycle.code]
        · simp [*]

theorem lifecycle_terminated {r : O3Ram} : r.lifecycle = .terminated ↔
    r.usable = true ∧ r.cur.getD offLc 0 = Lifecycle.terminated.code := by
  rw [O3Ram.lifecycle]
  generalize r.cur.getD offLc 0 = lc
  cases r.usable with
  | false => simp
  | true =>
      simp only [if_true, true_and]
      split
      · rename_i h
        simp [h, Lifecycle.code]
      · split <;> simp [*]

theorem defaults_length (lc : Lifecycle) : (defaults lc).length = o3Len := by
  cases lc <;> rfl

section Rules

variable {F : PgpPrims} {A : BoardFate → Prop} {u : PgpRam} {b : Board Note}
  {C : Board Note → Prop}

/-- A write of O3 while it holds the payload `p₀`: acknowledged, refused or
unknown. -/
theorem swp_writeO3 (hA : ∀ f, A f → Honest F f) {next p₀ : Bytes}
    (h₀ : O3At F b.chip.rmem p₀) (hu : u.o3.uncertain = false)
    {Q : RecStatus → PgpRam → Board Note → Prop}
    (hok : ∀ w, O3Both F w.rmem next → AtO3 b.chip w → Q .ok u (b.setChip w))
    (hrefused : ∀ res w v, res ≠ .ok → O3At F w.rmem p₀ → AtO3 b.chip w →
      Q res (o3Cell.put u v) (b.setChip w))
    (hunknown : ∀ res w, res ≠ .ok → O3At F w.rmem next → AtO3 b.chip w →
      Q res (o3Cell.put u true) (b.setChip w))
    (hcut : ∀ w, O3At F w.rmem p₀ ∨ O3At F w.rmem next → AtO3 b.chip w → C (b.setChip w)) :
    swp (pgpBoard F) A (onPair o3Cell (recPairWrite F.chip o3 next)) Q C u b := by
  obtain ⟨r, hcur, hr⟩ := h₀
  have hhold : Holds F.chip o3 b.chip.rmem (some r) := hcur
  have hput : o3Cell.put u false = u := by
    rw [← hu]
    rfl
  have hold : ∀ {R : ℕ → RSlot}, Holds F.chip o3 R (some r) → O3At F R p₀ :=
    fun h => ⟨r, h, hr⟩
  have hnew : ∀ {R : ℕ → RSlot}, Wrote F.chip o3 (some r) next R → O3At F R next := by
    rintro R ⟨r', -, -, hlen, hc⟩
    exact ⟨_, hc, payloadOf_encode F.chip o3 _ hlen⟩
  apply swp_onPair
  apply swp_mono (swp_and (swp_recPairWrite (honest_o3 hA) hhold)
    (swp_recPairWrite_marks (honest_o3 hA) hhold))
  · rintro res v w ⟨⟨ht, hres⟩, hmark⟩
    have hb := atO3_of ht
    have hbad : res ≠ .ok → (O3At F w.rmem p₀ ∨ O3At F w.rmem next) →
        Q res (o3Cell.put u v) (b.setChip w) := by
      intro hne hmay
      rcases hmark with hm | rfl | hm
      · exact absurd hm hne
      · rcases hmay with h | h
        · exact hrefused res w true hne h hb
        · exact hunknown res w hne h hb
      · exact hrefused res w v hne (hold hm) hb
    cases res with
    | ok =>
        obtain ⟨rfl, r', -, -, hlen, hm⟩ := hres
        rw [hput]
        exact hok w (o3Both_encode hlen hm) hb
    | absent => cases hres.1
    | corrupt => cases hres.1
    | error => exact hbad (fun h => by cases h) (hres.1.imp hold hnew)
  · rintro w ⟨⟨ht, -, h⟩, -⟩
    exact hcut w (h.imp hold hnew) (atO3_of ht)

/-- A commit, with a copy in RAM that is what O3 holds. -/
theorem swp_commit (hA : ∀ f, A f → Honest F f) {next : Bytes}
    (hsync : u.o3.usable = true → O3At F b.chip.rmem u.o3.cur)
    {Q : Bool → PgpRam → Board Note → Prop}
    (hidle : u.o3.lifecycle ≠ .operational → Q false u b)
    (hok : ∀ w, u.o3.lifecycle = .operational → O3Both F w.rmem next → AtO3 b.chip w →
      Q true (u.withCur next) (b.setChip w))
    (hrefused : ∀ w v, u.o3.lifecycle = .operational → O3At F w.rmem u.o3.cur → AtO3 b.chip w →
      Q false (o3Cell.put u v) (b.setChip w))
    (hunknown : ∀ w, u.o3.lifecycle = .operational → O3At F w.rmem next → AtO3 b.chip w →
      Q false (o3Cell.put u true) (b.setChip w))
    (hcut : ∀ w, u.o3.lifecycle = .operational → O3At F w.rmem u.o3.cur ∨ O3At F w.rmem next →
      AtO3 b.chip w → C (b.setChip w)) :
    swp (pgpBoard F) A (commit F next) Q C u b := by
  rw [commit, swp_bind, swp_get]
  split
  · rename_i h
    have hop : u.o3.lifecycle = .operational := lifecycle_operational.mpr h
    rw [swp_bind]
    apply swp_writeO3 hA (hsync h.1) (usable_iff.mp h.1).2
    · exact fun w => hok w hop
    · intro res w v hne h₀ hw
      cases res with
      | ok => exact absurd rfl hne
      | _ => exact hrefused w v hop h₀ hw
    · intro res w hne h₀ hw
      cases res with
      | ok => exact absurd rfl hne
      | _ => exact hunknown w hop h₀ hw
    · exact fun w => hcut w hop
  · rename_i h
    exact hidle fun hop => h (lifecycle_operational.mp hop)

/-- The end of an activation, which is a commit over a terminated card. -/
theorem swp_openpgpStateActivate (hA : ∀ f, A f → Honest F f)
    (hsync : u.o3.usable = true → O3At F b.chip.rmem u.o3.cur)
    {Q : Bool → PgpRam → Board Note → Prop}
    (hidle : u.o3.lifecycle ≠ .terminated → Q false u b)
    (hok : ∀ w, u.o3.lifecycle = .terminated → O3Both F w.rmem (defaults .operational) →
      AtO3 b.chip w → Q true (u.withCur (defaults .operational)) (b.setChip w))
    (hrefused : ∀ w v, u.o3.lifecycle = .terminated → O3At F w.rmem u.o3.cur → AtO3 b.chip w →
      Q false (o3Cell.put u v) (b.setChip w))
    (hunknown : ∀ w, u.o3.lifecycle = .terminated → O3At F w.rmem (defaults .operational) →
      AtO3 b.chip w → Q false (o3Cell.put u true) (b.setChip w))
    (hcut : ∀ w, u.o3.lifecycle = .terminated →
      O3At F w.rmem u.o3.cur ∨ O3At F w.rmem (defaults .operational) → AtO3 b.chip w →
      C (b.setChip w)) :
    swp (pgpBoard F) A (openpgpStateActivate F) Q C u b := by
  rw [openpgpStateActivate, swp_bind, swp_get]
  generalize defaults .operational = next at hok hunknown hcut ⊢
  split
  · rename_i h
    have hop : u.o3.lifecycle = .terminated := lifecycle_terminated.mpr h
    rw [swp_bind]
    apply swp_writeO3 hA (hsync h.1) (usable_iff.mp h.1).2
    · exact fun w => hok w hop
    · intro res w v hne h₀ hw
      cases res with
      | ok => exact absurd rfl hne
      | _ => exact hrefused w v hop h₀ hw
    · intro res w hne h₀ hw
      cases res with
      | ok => exact absurd rfl hne
      | _ => exact hunknown w hop h₀ hw
    · exact fun w => hcut w hop
  · rename_i h
    exact hidle fun hop => h (lifecycle_terminated.mp hop)

/-- A read of O3 changes nothing of what it holds. -/
theorem swp_readO3 (hA : ∀ f, A f → Honest F f) {max : Option ℕ}
    {Q : RecRead → PgpRam → Board Note → Prop}
    (hok : ∀ p gen w, O3At F b.chip.rmem p → O3Both F w.rmem p → Kept F b.chip w →
      Q (.ok p gen) (o3Cell.put u false) (b.setChip w))
    (habsent : ∀ w v, (∀ p, ¬O3At F b.chip.rmem p) → Kept F b.chip w →
      Q .absent (o3Cell.put u v) (b.setChip w))
    (hbad : ∀ res w v, (∀ p gen, res ≠ .ok p gen) → res ≠ .absent → Kept F b.chip w →
      Q res (o3Cell.put u v) (b.setChip w))
    (hcut : ∀ w, Kept F b.chip w → C (b.setChip w)) :
    swp (pgpBoard F) A (onPair o3Cell (recPairRead F.chip o3 max)) Q C u b := by
  apply swp_onPair
  by_cases hold : ∃ o, Holds F.chip o3 b.chip.rmem o
  · obtain ⟨o, ho⟩ := hold
    have hkept : ∀ {w : World}, Touches o3 (fun d => o = some d) b.chip w →
        Holds F.chip o3 w.rmem o → Kept F b.chip w := by
      refine fun ht hw => ⟨atO3_of ht, fun p => ?_⟩
      cases o with
      | none => exact iff_of_false (o3At_holds hw) (o3At_holds ho)
      | some r =>
          constructor
          · rintro ⟨r', hc, hp⟩
            exact ⟨r, ho, hw.unique hc ▸ hp⟩
          · rintro ⟨r', hc, hp⟩
            exact ⟨r, hw, ho.unique hc ▸ hp⟩
    apply swp_mono (swp_recPairRead (honest_o3 hA) ho)
    · rintro res v w ⟨ht, hw, hres⟩
      have hk := hkept ht hw
      cases res with
      | ok payload gen =>
          obtain ⟨rfl, r, rfl, rfl, -, -, hm⟩ := hres
          exact hok _ _ w ⟨r, ho, rfl⟩ ⟨r, hm, rfl⟩ hk
      | absent =>
          obtain ⟨rfl, rfl⟩ := hres
          exact habsent w _ (fun p => o3At_holds ho) hk
      | corrupt => exact hbad _ w v (fun _ _ h => by cases h) (fun h => by cases h) hk
      | error => exact hbad _ w v (fun _ _ h => by cases h) (fun h => by cases h) hk
    · exact fun w h => hcut w (hkept h.1 h.2.1)
  · have hkept : ∀ {w : World}, Touches o3 (fun _ => False) b.chip w → w.rmem = b.chip.rmem →
        Kept F b.chip w := fun ht hr => ⟨atO3_of ht, fun p => by rw [hr]⟩
    apply swp_mono (swp_recPairRead_contradiction fun o ho => hold ⟨o, ho⟩)
    · rintro res v w ⟨rfl, -, ht, hr⟩
      exact hbad _ w v (fun _ _ h => by cases h) (fun h => by cases h) (hkept ht hr)
    · exact fun w h => hcut w (hkept h.1 h.2)

theorem swp_openpgpStateLoad (hA : ∀ f, A f → Honest F f)
    {Q : LoadResult → PgpRam → Board Note → Prop}
    (hloaded : ∀ p w, O3At F b.chip.rmem p → O3Both F w.rmem p → p.length = o3Len →
      fieldsOk p = true → Kept F b.chip w → Q .loaded (u.opened p) (b.setChip w))
    (habsent : ∀ u' w, u.Shut u' → (∀ p, ¬O3At F b.chip.rmem p) → Kept F b.chip w →
      Q .absent u' (b.setChip w))
    (hdamaged : ∀ u' w, u.Shut u' → Kept F b.chip w → Q .damaged u' (b.setChip w))
    (hcut : ∀ w, Kept F b.chip w → C (b.setChip w)) :
    swp (pgpBoard F) A (openpgpStateLoad F) Q C u b := by
  have hshut : ∀ v, u.Shut (o3Cell.put { u with o3 := { u.o3 with loaded := false } } v) :=
    fun v => ⟨⟨u.o3.cur, false, v⟩, rfl, rfl⟩
  rw [openpgpStateLoad, setLoaded, swp_bind, swp_modify, swp_bind]
  apply swp_readO3 hA
  · intro p gen w hp hboth hk
    dsimp only
    split
    · rename_i h
      exact hloaded p w hp hboth h.1 h.2 hk
    · exact hdamaged _ w (hshut _) hk
  · exact fun w v hnone hk => habsent _ w (hshut v) hnone hk
  · intro res w v hok habs hk
    cases res with
    | ok p gen => exact absurd rfl (hok p gen)
    | absent => exact absurd rfl habs
    | _ => exact hdamaged _ w (hshut v) hk
  · exact hcut

theorem swp_openpgpStateClear (hA : ∀ f, A f → Honest F f)
    {Q : Bool → PgpRam → Board Note → Prop}
    (h : ∀ ok u' w, u.Shut u' → AtO3 b.chip w → Erasing F.chip o3 b.chip.rmem w.rmem →
      (ok = true → Holds F.chip o3 w.rmem none) → Q ok u' (b.setChip w))
    (hcut : ∀ w, AtO3 b.chip w → Erasing F.chip o3 b.chip.rmem w.rmem → C (b.setChip w)) :
    swp (pgpBoard F) A openpgpStateClear Q C u b := by
  rw [openpgpStateClear, setLoaded, swp_bind, swp_modify, setCur, swp_bind, swp_modify,
    setUncertain, swp_bind, swp_modify, swp_bind]
  apply swp_onPair
  apply swp_mono (swp_recPairClear (honest_o3 hA))
  · rintro res v w ⟨ht, her, hres⟩
    have hshut : u.Shut (o3Cell.put { u with o3 := ⟨List.replicate o3Len 0, false, false⟩ } v) :=
      ⟨⟨List.replicate o3Len 0, false, v⟩, rfl, rfl⟩
    cases res with
    | ok =>
        rcases hres with ⟨-, -, hnone⟩ | ⟨hne, -⟩
        · exact h true _ w hshut (atO3_of ht) her fun _ => hnone
        · cases hne
    | _ => exact h false _ w hshut (atO3_of ht) her fun hne => by cases hne
  · exact fun w hw => hcut w (atO3_of hw.1) hw.2.1

/-- A new O3 over cleared slots. -/
theorem swp_openpgpStateInit (hA : ∀ f, A f → Honest F f) {lc : Lifecycle}
    {Q : Bool → PgpRam → Board Note → Prop}
    (hok : ∀ w, O3Both F w.rmem (defaults lc) → AtO3 b.chip w →
      Q true (u.opened (defaults lc)) (b.setChip w))
    (hfail : ∀ u' w, u.Shut u' → AtO3 b.chip w → Q false u' (b.setChip w))
    (hcut : ∀ w, AtO3 b.chip w → C (b.setChip w)) :
    swp (pgpBoard F) A (openpgpStateInit F lc) Q C u b := by
  have hshut : ∀ v, u.Shut (o3Cell.put { u with o3 := ⟨u.o3.cur, false, false⟩ } v) :=
    fun v => ⟨⟨u.o3.cur, false, v⟩, rfl, rfl⟩
  rw [openpgpStateInit, setLoaded, swp_bind, swp_modify, setUncertain, swp_bind, swp_modify]
  split
  · exact hfail _ b.chip (hshut false) (.refl ..)
  · rw [swp_bind]
    apply swp_onPair
    apply swp_mono (swp_recPairInit (honest_o3 hA))
    · rintro res v w ⟨ht, ⟨rfl, rfl, hlen, hm⟩ | ⟨rfl, -⟩⟩
      · exact hok w (o3Both_encode hlen hm) (atO3_of ht)
      · exact hfail _ w (hshut v) (atO3_of ht)
    · exact fun w hw => hcut w (atO3_of hw.1)

end Rules

end Nixtropic.Pgp
