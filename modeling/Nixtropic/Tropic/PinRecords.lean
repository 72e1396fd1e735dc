import Nixtropic.Tropic.PinChange
import Nixtropic.Tropic.RecPairFailure

/-!
Which records a chip has ever held.

`Recorded` is an invariant of the steps about the bindings in all records that
were written so far, `Traced` one of the chip alone: what the slots of a pair
hold was written there. Clearing a PIN is not among the steps, and has its own
rule.
-/

namespace Nixtropic

open Crash

/-- The record was written to some R-memory slot. -/
def Stored (l : List Event) (r : Bytes) : Prop := ∃ slot, Asked l (.rmemWrite slot r)

theorem Stored.mono {l l' : List Event} {r : Bytes} (h : Stored l r) (hl : l <:+ l') :
    Stored l' r := by
  obtain ⟨slot, hs⟩ := h
  exact ⟨slot, hs.mono hl⟩

theorem Touches.stored {p : RecPair} {D : Bytes → Prop} {w w' : World} (h : Touches p D w w')
    {r : Bytes} (hr : Stored w'.log r) : D r ∨ Stored w.log r := by
  obtain ⟨l, hl, hops⟩ := h.log
  obtain ⟨slot, e, he, hop⟩ := hr
  rcases List.mem_append.mp (hl ▸ he) with he | he
  · have hpair := hops e he
    rw [hop] at hpair
    exact .inl hpair.2
  · exact .inr ⟨slot, e, he, hop⟩

theorem stored_note {w : World} {o : Op} (ho : ∀ slot data, o ≠ .rmemWrite slot data)
    {r : Bytes} (hr : Stored (w.note o).log r) : Stored w.log r := by
  obtain ⟨slot, e, he, hop⟩ := hr
  rcases List.mem_cons.mp he with rfl | he
  · exact absurd hop (ho slot r)
  · exact ⟨slot, e, he, hop⟩

theorem Unwritten.stored {w w' : World} (h : Unwritten w w') {r : Bytes}
    (hr : Stored w'.log r) : Stored w.log r := by
  obtain ⟨l, hl, hops⟩ := h
  obtain ⟨slot, e, he, hop⟩ := hr
  rcases List.mem_append.mp (hl ▸ he) with he | he
  · exact absurd hop (hops e he slot r)
  · exact ⟨slot, e, he, hop⟩

/-! ### The bindings in the records -/

section Recorded

variable {P : Prims} {L : Layout} {I : World → Bytes → Bytes → Prop} {w w' : World}

/-- Every binding that was ever in a record satisfies `B`, which may speak of
the log. -/
structure Recorded (P : Prims) (L : Layout) (B : List Event → Binding → Prop) (w : World) :
    Prop where
  stored : ∀ r b, Stored w.log r → RecordOf L b r → B w.log b
  now : ∀ g b, Now P L w g b → B w.log b

/-- What makes `B` an invariant: it grows with the log, is blind to the
counters, and holds of what is installed. -/
structure Records (P : Prims) (L : Layout) (I : World → Bytes → Bytes → Prop)
    (B : List Event → Binding → Prop) : Prop where
  mono : ∀ {l l' b}, l <:+ l' → B l b → B l' b
  counters : ∀ {l b b'}, b'.range = b.range → b'.tag = b.tag → b'.ci = b.ci → B l b → B l b'
  switched : ∀ {w g b b' s mat}, Now P L w g b → I w s mat → b'.range = 1 - b.range →
    Made P L w.log b' s mat → B w.log b'
  first : ∀ {w b s mat}, Vacant P L w → I w s mat → b.range = 0 →
    Made P L w.log b s mat → B w.log b

theorem RecordOf.unique {b b' : Binding} {r : Bytes} (h : RecordOf L b r)
    (h' : RecordOf L b' r) : b = b' := Option.some.inj (h.symm.trans h')

theorem Recorded.touches {B : List Event → Binding → Prop} {D : Bytes → Prop}
    (hB : Records P L I B) (h : Recorded P L B w) (ht : Touches L.record D w w')
    (hD : ∀ r b, D r → RecordOf L b r → B w.log b) (hnow : ∀ g b, Now P L w' g b → B w.log b) :
    Recorded P L B w' := by
  obtain ⟨l, hl, -⟩ := ht.log
  have hlog : w.log <:+ w'.log := ⟨l, hl.symm⟩
  refine ⟨fun r b hr hb => hB.mono hlog ?_, fun g b hb => hB.mono hlog (hnow g b hb)⟩
  rcases ht.stored hr with hd | hr
  · exact hD r b hd hb
  · exact h.stored r b hr hb

theorem Recorded.note {B : List Event → Binding → Prop} (hB : Records P L I B)
    (h : Recorded P L B w) {o : Op} (ho : ∀ slot data, o ≠ .rmemWrite slot data)
    (hlog : w'.log = (w.note o).log) (hr : w'.rmem = w.rmem) : Recorded P L B w' := by
  have hsuf : w.log <:+ w'.log := hlog ▸ List.suffix_cons _ _
  refine ⟨fun r b hw hb => hB.mono hsuf ?_, fun g b hb => hB.mono hsuf ?_⟩
  · rw [hlog] at hw
    exact h.stored r b (stored_note ho hw) hb
  · exact h.now g b (hb.congr hr.symm)

theorem Recorded.step {B : List Event → Binding → Prop} (hB : Records P L I B)
    {x y : World × Bool} (hstep : PinStep P L I x y) (h : Recorded P L B x.1) :
    Recorded P L B y.1 := by
  cases hstep with
  | @pair w w' c o ho ht ho' =>
      refine h.touches hB ht (fun r b hd hb => ?_) fun g b hb => h.now g b (hb.of_holds ho' ho)
      subst hd
      exact h.now (genOf r) b ⟨r, ho, rfl, hb⟩
  | @turn w w' c c' d g b b' hb hturn ht hb' =>
      have hold : B w.log b := h.now g b hb
      have hnew : B w.log b' := by
        cases hturn with
        | settled hp hret => exact hB.counters (b := b) rfl rfl rfl hold
        | reserved hp hn => exact hB.counters (b := b) rfl rfl rfl hold
        | restored hp htag hasked harmed hprobes => exact hB.counters (b := b) rfl rfl rfl hold
        | switched hp hr hrange hnext hmade harmed hI => exact hB.switched hb hI hrange hmade
      refine h.touches hB ht (fun r b₁ hd hb₁ => ?_) fun g₁ b₁ hb₁ => ?_
      · rcases hd with hd | hd
        · exact hb₁.unique hd ▸ hold
        · exact hb₁.unique hd ▸ hnew
      · rcases hb' with ⟨hnow, -⟩ | ⟨hnow, -⟩
        · exact (hb₁.unique hnow).2 ▸ hnew
        · exact (hb₁.unique hnow).2 ▸ hold
  | @first w w' c b s mat ho hrange hp hnext hmade harmed hI ht hb =>
      have hnew : B w.log b := hB.first ho hI hrange hmade
      refine h.touches hB ht (fun r b₁ hd hb₁ => hb₁.unique hd ▸ hnew) fun g₁ b₁ hb₁ => ?_
      rcases hb with hnow | hvac
      · exact (hb₁.unique hnow).2 ▸ hnew
      · exact absurd hvac hb₁.not_vacant
  | hmac key msg => exact h.note hB (by simp) rfl rfl
  | random len n => exact h.note hB (by simp) rfl rfl
  | mad hok hx => exact h.note hB (by simp) rfl rfl

theorem Recorded.via {B : List Event → Binding → Prop} (hB : Records P L I B)
    (hvia : Via P L I w w') (h : Recorded P L B w) : Recorded P L B w' := by
  obtain ⟨c', hpath⟩ := hvia false
  suffices hall : ∀ y, PinPath P L I (w, false) y → Recorded P L B y.1 from hall _ hpath
  intro y hy
  induction hy with
  | refl => exact h
  | tail _ hstep ih => exact ih.step hB hstep

end Recorded

/-! ### What the slots hold was written -/

section Traced

variable {P : Prims} {p : RecPair}

/-- Every record in the slots of the pair was written. -/
def Traced (P : Prims) (p : RecPair) (w : World) : Prop :=
  ∀ slot r, slot = p.slotA ∨ slot = p.slotB → w.rmem slot = .data r → valid P p r = true →
    Stored w.log r

theorem act_traced {f : Fate} (hf : f.leaves (Invalid P p)) (o : Op) {w : World}
    (h : Traced P p w) : Traced P p (act P f o w).2 := by
  intro slot r hslot hdata hv
  have hlog := act_log (P := P) f o w
  have hsuf : w.log <:+ (act P f o w).2.log := hlog ▸ List.suffix_cons _ _
  by_cases ho : ∃ s d, o = .rmemWrite s d
  · obtain ⟨s, d, rfl⟩ := ho
    -- a write leaves the old content, the new one, or no record
    have hcases : (act P f (.rmemWrite s d) w).2.rmem slot = w.rmem slot ∨
        s = slot ∧ ((act P f (.rmemWrite s d) w).2.rmem slot = .data d ∨
          Invalid P p ((act P f (.rmemWrite s d) w).2.rmem slot)) := by
      have hexec : (exec P (.rmemWrite s d) (w.note (.rmemWrite s d))).2.rmem slot =
          w.rmem slot ∨ s = slot ∧
            (exec P (.rmemWrite s d) (w.note (.rmemWrite s d))).2.rmem slot = .data d := by
        simp only [exec]
        split
        · exact .inl rfl
        · by_cases hs : s = slot
          · subst hs
            exact .inr ⟨rfl, by simp⟩
          · exact .inl (by simp [Function.update_of_ne (Ne.symm hs)])
      have htorn : ∀ left, Invalid P p left →
          ((w.note (.rmemWrite s d)).setR s left).rmem slot = w.rmem slot ∨ s = slot ∧
            Invalid P p (((w.note (.rmemWrite s d)).setR s left).rmem slot) := by
        intro left hleft
        by_cases hs : s = slot
        · subst hs
          exact .inr ⟨rfl, by simpa using hleft⟩
        · exact .inl (by simp [Function.update_of_ne (Ne.symm hs)])
      cases f with
      | none => exact hexec.imp_right fun h => ⟨h.1, .inl h.2⟩
      | fail => exact .inl rfl
      | lost => exact hexec.imp_right fun h => ⟨h.1, .inl h.2⟩
      | torn left acked => exact (htorn left hf).imp_right fun h => ⟨h.1, .inr h.2⟩
      | cutBefore => exact .inl rfl
      | cutAfter => exact hexec.imp_right fun h => ⟨h.1, .inl h.2⟩
      | cutTorn left => exact (htorn left hf).imp_right fun h => ⟨h.1, .inr h.2⟩
    rcases hcases with hsame | ⟨rfl, hnew | hinv⟩
    · exact (h slot r hslot (hsame ▸ hdata) hv).mono hsuf
    · rw [hdata] at hnew
      injection hnew with hnew
      subst hnew
      exact ⟨s, _, by rw [hlog]; exact List.mem_cons_self, rfl⟩
    · exact absurd hdata (hinv.ne_data hv)
  · have herase := act_erasing (P := P) hf (o := o) (fun s d heq => ho ⟨s, d, heq⟩) w
    rcases herase slot with hs | hs
    · exact (h slot r hslot (hs ▸ hdata) hv).mono hsuf
    · exact absurd hdata (hs.ne_data hv)

theorem run_traced {α : Type} {fs : List Fate} (hfs : ∀ f ∈ fs, f.leaves (Invalid P p))
    (m : Prog Op Ret α) {w : World} (h : Traced P p w) :
    Traced P p (run (chip P) m fs w).state := by
  induction m generalizing fs w with
  | pure a => exact h
  | call o k ih =>
      have hf : (fs.headD .none).leaves (Invalid P p) := by
        cases fs with
        | nil => trivial
        | cons f fs => exact hfs f List.mem_cons_self
      have hact := act_traced hf o h
      have hchip : (chip P).act (fs.headD (chip P).quiet) o w = act P (fs.headD .none) o w := rfl
      rw [run_call, hchip]
      generalize act P (fs.headD .none) o w = res at hact
      rcases res with ⟨_ | r, w₁⟩
      · exact hact
      · exact ih r (fun f hf => hfs f (List.mem_of_mem_tail hf)) hact

end Traced

/-! ### Clearing a PIN -/

section Clear

variable {P : Prims} {A : Fate → Prop} {L : Layout} {u : Bool} {w : World}

theorem Unwritten.refl (w : World) : Unwritten w w := ⟨[], rfl, by simp⟩

theorem Unwritten.trans {w₁ w₂ w₃ : World} (h : Unwritten w₁ w₂) (h' : Unwritten w₂ w₃) :
    Unwritten w₁ w₃ := by
  obtain ⟨l, hl, hops⟩ := h
  obtain ⟨l', hl', hops'⟩ := h'
  refine ⟨l' ++ l, by rw [hl', hl, List.append_assoc], fun e he => ?_⟩
  rcases List.mem_append.mp he with he | he
  · exact hops' e he
  · exact hops e he

theorem unwritten_note {o : Op} (ho : ∀ slot data, o ≠ .rmemWrite slot data) {w' : World}
    (hlog : w'.log = (w.note o).log) : Unwritten w w' :=
  ⟨[⟨o, w.rmem, w.mad⟩], by rw [hlog]; rfl, fun e he slot data => by
    obtain rfl := List.mem_singleton.mp he
    exact ho slot data⟩

theorem Touches.unwritten {p : RecPair} {w' : World} (h : Touches p (fun _ => False) w w') :
    Unwritten w w' := by
  obtain ⟨l, hl, hops⟩ := h.log
  refine ⟨l, hl, fun e he slot data hop => ?_⟩
  have hpair := hops e he
  rw [hop] at hpair
  exact hpair.2

/-- Retiring a range, whatever the record says. -/
theorem swp_retire_any (hL : L.Ok) {range : ℕ} (hrange : range < L.ranges) :
    swp (chip P) A (retire L range)
      (fun ok _ w' => Unwritten w w' ∧ Overwrite L range w w' ∧
        (ok = true → Retired P L w' range))
      (fun _ => True) u w := by
  refine swp_mono (swp_retire_of hL hrange (V := fun w' => Unwritten w w') (.refl w)
    (fun w' n h => h.trans (unwritten_note (by simp) rfl))
    fun w' i data x _ _ h _ => h.trans (unwritten_note (by simp) rfl)) ?_ fun _ _ => trivial
  rintro ok u' w' ⟨-, hun, hspin, ⟨-, hret⟩ | ⟨rfl, -⟩⟩
  · exact ⟨hun, hspin, fun _ => hret⟩
  · exact ⟨hun, hspin, nofun⟩

/-- An acknowledged clear retired every range and left no record. -/
theorem swp_clear (hA : ∀ f, A f → f.leaves (Invalid P L.record)) (hL : validLayout L = true) :
    swp (chip P) A (pinMdKernelClear L)
      (fun rc u' w' => rc = .ok → u' = false ∧ Unwritten w w' ∧ Vacant P L w' ∧
        ∀ range < L.ranges, Retired P L w' range)
      (fun _ => True) u w := by
  have hok := validLayout_ok hL
  rw [pinMdKernelClear, if_neg (by simp [hL]), swp_bind, retireAll, swp_bind]
  refine swp_mono (swp_loop
    (fun n _ _ w' => Unwritten w w' ∧ ∀ range < n, Retired P L w' range)
    (fun _ _ => True) (C := fun _ => True) ?_ ⟨.refl w, by simp⟩) ?_ fun _ _ => trivial
  · rintro n _ u₁ w₁ hn ⟨hun, hdone⟩
    rw [swp_bind]
    refine swp_mono (swp_retire_any hok hn) ?_ fun _ _ => trivial
    rintro (_ | _) u₂ w₂ ⟨hun₂, hspin, hret⟩
    · trivial
    · refine ⟨hun.trans hun₂, fun range hr i hi => ?_⟩
      by_cases hrn : range = n
      · subst hrn
        exact hret rfl i hi
      · obtain ⟨rnd, hm, hasked⟩ := hdone range (by omega) i hi
        obtain ⟨l, hl, -⟩ := hun₂
        refine ⟨rnd, ?_, hasked.mono ⟨l, hl.symm⟩⟩
        rw [hspin.mad _ (inRange_apart hok (by omega) hn hrn ⟨i, hi, rfl⟩)]
        exact hm
  · rintro (_ | _) u₁ w₁ h
    · exact fun h => by cases h
    · obtain ⟨hun, hret⟩ := h
      simp only [Option.isSome_some, swp_pure, if_true]
      rw [swp_bind]
      refine swp_mono (swp_recPairClear hA) ?_ fun _ _ => trivial
      rintro res u₂ w₂ ⟨ht, -, ⟨rfl, rfl, hvac⟩ | ⟨rfl, -⟩⟩
      · intro _
        refine ⟨rfl, hun.trans ht.unwritten, hvac, fun range hr i hi => ?_⟩
        obtain ⟨rnd, hm, hasked⟩ := hret range hr i hi
        obtain ⟨l, hl, -⟩ := ht.log
        exact ⟨rnd, by rw [ht.mad]; exact hm, hasked.mono ⟨l, hl.symm⟩⟩
      · exact fun h => by cases h

end Clear

/-! ### A pair without a binding -/

section Unbound

variable {P : Prims} {A : Fate → Prop} {L : Layout} {u : Bool} {w : World}

/-- No binding is in the pair: it holds nothing, or what nobody can use. -/
def Unbound (P : Prims) (L : Layout) (w : World) : Prop := ∀ g b, ¬Now P L w g b

theorem Unbound.congr {w' : World} (h : Unbound P L w) (hr : w'.rmem = w.rmem) :
    Unbound P L w' := fun g b hb => h g b (hb.congr hr.symm)

theorem swp_load_unbound (hA : ∀ f, A f → f.leaves (Invalid P L.record)) (hno : Unbound P L w) :
    swp (chip P) A (load P L) (fun st _ w' => Unbound P L w' ∧ ∀ b, st ≠ .ok b)
      (Unbound P L) u w := by
  have hstay : ∀ {w' : World} {o : Option Bytes}, Holds P L.record w.rmem o →
      Holds P L.record w'.rmem o → Unbound P L w' := by
    intro w' o ho ho' g b hb
    exact hno g b (hb.of_holds ho' ho)
  rw [load, swp_bind]
  by_cases hold : ∃ o, Holds P L.record w.rmem o
  · obtain ⟨o, ho⟩ := hold
    apply swp_mono (swp_recPairRead hA ho)
    · rintro (⟨buf, gen⟩ | _ | _ | _) u' w' ⟨-, ho', hres⟩
      · obtain ⟨-, r, rfl, rfl, -⟩ := hres
        dsimp only
        cases hp : parseBinding L (payloadOf r) with
        | some b => exact absurd ⟨r, ho, rfl, hp⟩ (hno (genOf r) b)
        | none => exact ⟨hstay ho ho', (fun _ h => by cases h)⟩
      · exact ⟨hstay ho ho', (fun _ h => by cases h)⟩
      · exact ⟨hstay ho ho', (fun _ h => by cases h)⟩
      · exact ⟨hstay ho ho', (fun _ h => by cases h)⟩
    · exact fun w' h => hstay ho h.2.1
  · apply swp_mono (swp_recPairRead_contradiction fun o ho => hold ⟨o, ho⟩)
    · rintro res u' w' ⟨rfl, -, -, hr⟩
      exact ⟨hno.congr hr, (fun _ h => by cases h)⟩
    · exact fun w' h => hno.congr h.2

/-- Asking for the status binds nothing. -/
theorem swp_status_unbound (hA : ∀ f, A f → f.leaves (Invalid P L.record)) (hno : Unbound P L w) :
    swp (chip P) A (pinMdKernelStatus P L) (fun _ _ w' => Unbound P L w') (Unbound P L) u w := by
  rw [pinMdKernelStatus]
  split
  · exact hno
  · rw [swp_bind, settle, swp_bind]
    apply swp_mono (swp_load_unbound hA hno) _ fun _ h => h
    rintro (b | _ | _) u' w' ⟨h, hne⟩
    · exact absurd rfl (hne b)
    · exact h
    · exact h

end Unbound

end Nixtropic
