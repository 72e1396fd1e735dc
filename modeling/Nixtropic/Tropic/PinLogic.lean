import Nixtropic.Tropic.PinSteps

/-!
The programs of the PIN kernel follow its steps.

One rule for each function: what it returns, what the pair and the slots hold
then, and that the chip got there by steps of `PinStep`, which is also said of
every state in which the function may be cut. As for the record pair, a call
fails only when the pair is uncertain, a chip call met something, or the
generations have run out.
-/

namespace Nixtropic

open Crash

/-- No PIN was tried and no range restored in between. -/
def Silent (w w' : World) : Prop :=
  ∃ l, w'.log = l ++ w.log ∧ ∀ e ∈ l, e.isProbe = false ∧ e.isRestore = false

theorem Silent.refl (w : World) : Silent w w := ⟨[], rfl, by simp⟩

theorem Silent.trans {w₁ w₂ w₃ : World} (h : Silent w₁ w₂) (h' : Silent w₂ w₃) :
    Silent w₁ w₃ := by
  obtain ⟨l, hl, hs⟩ := h
  obtain ⟨l', hl', hs'⟩ := h'
  refine ⟨l' ++ l, by rw [hl', hl, List.append_assoc], ?_⟩
  intro e he
  rcases List.mem_append.mp he with he | he
  · exact hs' e he
  · exact hs e he

/-- Such calls leave the count of attempts alone. -/
theorem probes_append {l l' : List Event}
    (h : ∀ e ∈ l, e.isProbe = false ∧ e.isRestore = false) : probes (l ++ l') = probes l' := by
  induction l with
  | nil => rfl
  | cons e l ih =>
      have hrest := ih fun d hd => h d (List.mem_cons_of_mem e hd)
      obtain ⟨hp, hr⟩ := h e List.mem_cons_self
      simp [probes, hp, hr, hrest]

theorem Silent.probes {w w' : World} (h : Silent w w') :
    Nixtropic.probes w'.log = Nixtropic.probes w.log := by
  obtain ⟨l, hl, hs⟩ := h
  rw [hl]
  exact probes_append hs

theorem PairOp.not_mad {p : RecPair} {D : Bytes → Prop} {e : Event} (h : PairOp p D e.op) :
    e.isProbe = false ∧ e.isRestore = false := by
  rcases e with ⟨op, R, m⟩
  cases op with
  | macAndDestroy site slot data => exact h.elim
  | _ => exact ⟨rfl, rfl⟩

theorem Touches.silent {p : RecPair} {D : Bytes → Prop} {w w' : World}
    (h : Touches p D w w') : Silent w w' := by
  obtain ⟨l, hl, hops⟩ := h.log
  exact ⟨l, hl, fun e he => PairOp.not_mad (hops e he)⟩

theorem silent_note {w : World} {o : Op}
    (ho : ∀ slot data, o ≠ .macAndDestroy .probe slot data ∧ o ≠ .macAndDestroy .restore slot data)
    (w' : World) (hlog : w'.log = (w.note o).log) : Silent w w' := by
  refine ⟨[⟨o, w.rmem, w.mad⟩], by rw [hlog]; rfl, fun e he => ?_⟩
  obtain rfl := List.mem_singleton.mp he
  cases o with
  | macAndDestroy site slot data =>
      cases site with
      | probe => exact absurd rfl (ho slot data).1
      | restore => exact absurd rfl (ho slot data).2
      | _ => exact ⟨rfl, rfl⟩
  | _ => exact ⟨rfl, rfl⟩

/-- The record writes that a pending retirement still costs. -/
def Binding.debt (b : Binding) : ℕ := if b.retirePending then 1 else 0

def Binding.settled (b : Binding) : Binding := { b with retirePending := false }

theorem debt_settled (b : Binding) : b.settled.debt = 0 := rfl

theorem debt_of_pending {b : Binding} (h : b.retirePending = true) : b.debt = 1 := by
  simp [Binding.debt, h]

theorem debt_of_settled {b : Binding} (h : b.retirePending = false) : b.debt = 0 := by
  simp [Binding.debt, h]

theorem settled_eq {b : Binding} (h : b.retirePending = false) : b.settled = b := by
  cases b
  subst h
  rfl

/-- Some binding out of `S` is there, of generation at most `G` once it is
settled. -/
def Holding (P : Prims) (L : Layout) (w : World) (G : ℕ) (S : Binding → Prop) : Prop :=
  ∃ g b, Now P L w g b ∧ g + b.debt ≤ G ∧ S b

theorem Holding.mono {P : Prims} {L : Layout} {w : World} {G G' : ℕ} {S S' : Binding → Prop}
    (h : Holding P L w G S) (hG : G ≤ G') (hS : ∀ b, S b → S' b) : Holding P L w G' S' := by
  obtain ⟨g, b, hb, hg, hs⟩ := h
  exact ⟨g, b, hb, hg.trans hG, hS b hs⟩

theorem holding_of_now {P : Prims} {L : Layout} {w : World} {g G : ℕ} {S : Binding → Prop}
    {b : Binding} (h : Now P L w g b) (hp : b.retirePending = false) (hg : g ≤ G) (hS : S b) :
    Holding P L w G S := by
  refine ⟨g, b, h, ?_, hS⟩
  rw [debt_of_settled hp]
  exact hg

/-- Only slots of one range changed. -/
structure Spin (L : Layout) (range : ℕ) (w w' : World) : Prop where
  rmem : w'.rmem = w.rmem
  mad : ∀ slot, ¬InRange L range slot → w'.mad slot = w.mad slot

theorem Spin.refl (L : Layout) (range : ℕ) (w : World) : Spin L range w w :=
  ⟨rfl, fun _ _ => rfl⟩

theorem Spin.trans {L : Layout} {range : ℕ} {w₁ w₂ w₃ : World} (h : Spin L range w₁ w₂)
    (h' : Spin L range w₂ w₃) : Spin L range w₁ w₃ :=
  ⟨h'.rmem.trans h.rmem, fun slot hs => (h'.mad slot hs).trans (h.mad slot hs)⟩

/-- A range that no PIN opens is written or retired. -/
structure Overwrite (L : Layout) (range : ℕ) (w w' : World) : Prop extends
    Spin L range w w' where
  silent : Silent w w'

theorem Overwrite.refl (L : Layout) (range : ℕ) (w : World) : Overwrite L range w w :=
  ⟨.refl L range w, .refl w⟩

theorem Overwrite.trans {L : Layout} {range : ℕ} {w₁ w₂ w₃ : World}
    (h : Overwrite L range w₁ w₂) (h' : Overwrite L range w₂ w₃) : Overwrite L range w₁ w₃ :=
  ⟨h.toSpin.trans h'.toSpin, h.silent.trans h'.silent⟩

theorem overwrite_note {L : Layout} {range : ℕ} (w : World) {o : Op}
    (ho : ∀ slot data, o ≠ .macAndDestroy .probe slot data ∧
      o ≠ .macAndDestroy .restore slot data) : Overwrite L range w (w.note o) :=
  ⟨⟨rfl, fun _ _ => rfl⟩, silent_note ho _ rfl⟩

section Rules

variable {P : Prims} {A : Fate → Prop} {L : Layout} {I : World → Bytes → Bytes → Prop}
  {u : Bool} {w : World} {g : ℕ} {b b' : Binding} {c' : Bool}

theorem now_encode (hL : L.Ok) (hwf : b.Wf L) (hg : g < 2 ^ 32)
    (hc : Current P L.record w.rmem (encode P L.record g (bindingBytes b))) :
    Now P L w g b := by
  have hlen : (bindingBytes b).length ≤ recPayloadMax :=
    (bindingBytes_length hwf).le.trans (bindLen_le hL)
  refine ⟨_, hc, genOf_encode P _ _ hg, ?_⟩
  rw [payloadOf_encode P _ _ hlen, parseBinding_bytes hL hwf]

theorem kept_encode (hL : L.Ok) (hwf : b.Wf L) (hg : g < 2 ^ 32)
    (hm : Mirrored P L.record w.rmem (encode P L.record g (bindingBytes b))) :
    Kept P L w g b := by
  have hlen : (bindingBytes b).length ≤ recPayloadMax :=
    (bindingBytes_length hwf).le.trans (bindLen_le hL)
  refine ⟨_, hm, genOf_encode P _ _ hg, ?_⟩
  rw [payloadOf_encode P _ _ hlen, parseBinding_bytes hL hwf]

theorem recordOf_encode (hL : L.Ok) (hwf : b.Wf L) :
    RecordOf L b (encode P L.record g (bindingBytes b)) := by
  have hlen : (bindingBytes b).length ≤ recPayloadMax :=
    (bindingBytes_length hwf).le.trans (bindLen_le hL)
  rw [RecordOf, payloadOf_encode P _ _ hlen, parseBinding_bytes hL hwf]

/-- Any chip state while `b` is replaced by `b'`. -/
def Turning (P : Prims) (L : Layout) (I : World → Bytes → Bytes → Prop) (g : ℕ)
    (b b' : Binding) (w w' : World) : Prop :=
  Touches L.record (fun _ => True) w w' ∧ Via P L I w w' ∧
    (Now P L w' g b ∨ Now P L w' (g + 1) b')

/-- `store` of a binding that may replace the one there. -/
theorem swp_store (hA : ∀ f, A f → f.leaves (Invalid P L.record)) (hL : L.Ok)
    (hb : Now P L w g b) (hwf : b'.Wf L) (hturn : Turn P L I w b b' c') :
    swp (chip P) A (store P L b' false)
      (fun ok u' w' => Turning P L I g b b' w w' ∧
        (ok = true ∧ u' = false ∧ Kept P L w' (g + 1) b' ∧
            (∀ c, PinStep P L I (w, c) (w', c')) ∨
          ok = false ∧ (u = true ∨ Stormy A ∨ g = uint32Max)))
      (fun w' => Turning P L I g b b' w w' ∧ Stormy A) u w := by
  obtain ⟨r, hr, rfl, hparse⟩ := hb
  have hnow : Now P L w (genOf r) b := ⟨r, hr, rfl, hparse⟩
  have hlen : (bindingBytes b').length ≤ recPayloadMax :=
    (bindingBytes_length hwf).le.trans (bindLen_le hL)
  have hany : ∀ {w' : World}, Touches L.record (WriteData P L.record (some r)
      (bindingBytes b')) w w' → Touches L.record (fun _ => True) w w' :=
    fun ht => ht.mono fun _ _ => trivial
  have hdata : ∀ {w' : World}, Touches L.record (WriteData P L.record (some r)
      (bindingBytes b')) w w' →
      Touches L.record (fun d => RecordOf L b d ∨ RecordOf L b' d) w w' := by
    refine fun ht => ht.mono ?_
    rintro d ⟨r', hr', rfl | rfl⟩
    · obtain rfl : r = d := by simpa using hr'
      exact .inl hparse
    · exact .inr (recordOf_encode hL hwf)
  have hmid : ∀ {w' : World}, Touches L.record (WriteData P L.record (some r)
      (bindingBytes b')) w w' → (Holds P L.record w'.rmem (some r) ∨
        Wrote P L.record (some r) (bindingBytes b') w'.rmem) →
      Turning P L I (genOf r) b b' w w' := by
    rintro w' ht (h | ⟨r', hr', hgen, -, h⟩)
    · have hold : Now P L w' (genOf r) b := ⟨r, h, rfl, hparse⟩
      exact ⟨hany ht, .of_keep fun c => .turn hnow hturn (hdata ht) (.inr ⟨hold, rfl⟩), .inl hold⟩
    · obtain rfl : r = r' := by simpa using hr'
      have hnew : Now P L w' (genOf r + 1) b' := now_encode hL hwf (by
        simp only [uint32Max] at hgen
        omega) h
      exact ⟨hany ht, .of_step fun c => .turn hnow hturn (hdata ht) (.inl ⟨hnew, rfl⟩), .inr hnew⟩
  simp only [store, Bool.false_eq_true, if_false]
  rw [swp_bind]
  refine swp_mono (swp_recPairWrite hA (o := some r) hr) ?_ ?_
  · rintro (_ | _ | _ | _) u' w' ⟨ht, hres⟩
    · obtain ⟨rfl, r', hr', hgen, -, hm⟩ := hres
      obtain rfl : r = r' := by simpa using hr'
      have hkept : Kept P L w' (genOf r + 1) b' := kept_encode hL hwf (by
        simp only [uint32Max] at hgen
        omega) hm
      have hstep : ∀ c, PinStep P L I (w, c) (w', c') := fun c =>
        .turn hnow hturn (hdata ht) (.inl ⟨hkept.now, rfl⟩)
      exact ⟨⟨hany ht, .of_step hstep, .inr hkept.now⟩, .inl ⟨rfl, rfl, hkept, hstep⟩⟩
    · cases hres.1
    · cases hres.1
    · obtain ⟨hmem, hwhy⟩ := hres
      refine ⟨hmid ht hmem, .inr ⟨rfl, ?_⟩⟩
      rcases hwhy with h | h | h | ⟨r', hr', h⟩
      · exact .inl h
      · exact .inr (.inl h)
      · omega
      · obtain rfl : r = r' := by simpa using hr'
        exact .inr (.inr h)
  · rintro w' ⟨ht, hst, hmem⟩
    exact ⟨hmid ht hmem, hst⟩

/-- One M&D call that the steps allow. -/
theorem swp_mad {site : MdSite} {range i : ℕ} {data : Bytes} (hi : i < L.rounds)
    (hok : ∀ c, MadOk P L w c site (mdSlot L range i) data) :
    swp (chip P) A (tropicMacAndDestroy site (mdSlot L range i) data)
      (fun res u' w' => u' = u ∧ Via P L I w w' ∧ Spin L range w w' ∧
        w'.log = (w.note (.macAndDestroy site (mdSlot L range i) data)).log ∧
        (res = .ok (answer P (w.mad (mdSlot L range i)) data (mdSlot L range i)) ∧
            w'.mad = Function.update w.mad (mdSlot L range i) (P.f1 data (mdSlot L range i)) ∨
          res = .error .other ∧ Stormy A))
      (fun w' => Via P L I w w' ∧ Spin L range w w' ∧
        w'.log = (w.note (.macAndDestroy site (mdSlot L range i) data)).log ∧ Stormy A) u w := by
  have hvia : ∀ x, x = w.mad (mdSlot L range i) ∨ x = P.f1 data (mdSlot L range i) →
      Via P L I w
        ((w.note (.macAndDestroy site (mdSlot L range i) data)).setMad (mdSlot L range i) x) := by
    intro x hx c
    exact ⟨_, .single (.mad (hok c) hx)⟩
  have hspin : ∀ x, Spin L range w
      ((w.note (.macAndDestroy site (mdSlot L range i) data)).setMad (mdSlot L range i) x) := by
    intro x
    refine ⟨rfl, fun slot hs => ?_⟩
    have hne : slot ≠ mdSlot L range i := fun h => hs ⟨i, hi, h⟩
    simp [Function.update_of_ne hne]
  refine swp_macAndDestroy ?_ ?_ ?_
  · exact ⟨rfl, hvia _ (.inr rfl), hspin _, rfl, .inl ⟨rfl, rfl⟩⟩
  · exact fun hst x hx => ⟨rfl, hvia x hx, hspin x, rfl, .inr ⟨rfl, hst⟩⟩
  · exact fun hst x hx => ⟨hvia x hx, hspin x, rfl, hst⟩

theorem overwrite_mad (site : MdSite) {range i : ℕ} (hsite : site ≠ .probe ∧ site ≠ .restore)
    (hi : i < L.rounds) (w : World) (data x : Bytes) :
    Overwrite L range w ((w.note (.macAndDestroy site (mdSlot L range i) data)).setMad
      (mdSlot L range i) x) := by
  refine ⟨⟨rfl, fun slot hs => ?_⟩, silent_note (fun slot d => ⟨fun h => ?_, fun h => ?_⟩) _ rfl⟩
  · have hne : slot ≠ mdSlot L range i := fun h => hs ⟨i, hi, h⟩
    simp [Function.update_of_ne hne]
  · injection h with h
    exact hsite.1 h
  · injection h with h
    exact hsite.2 h

/-- The same for the calls that arm a slot or retire it. -/
theorem swp_overwrite {site : MdSite} {range i : ℕ} {data : Bytes}
    (hsite : site ≠ .probe ∧ site ≠ .restore) (hi : i < L.rounds)
    (hok : ∀ c, MadOk P L w c site (mdSlot L range i) data) :
    swp (chip P) A (tropicMacAndDestroy site (mdSlot L range i) data)
      (fun res u' w' => u' = u ∧ Via P L I w w' ∧ Overwrite L range w w' ∧
        w'.log = (w.note (.macAndDestroy site (mdSlot L range i) data)).log ∧
        (res = .ok (answer P (w.mad (mdSlot L range i)) data (mdSlot L range i)) ∧
            w'.mad = Function.update w.mad (mdSlot L range i) (P.f1 data (mdSlot L range i)) ∨
          res = .error .other ∧ Stormy A))
      (fun w' => Via P L I w w' ∧ Overwrite L range w w' ∧ Stormy A) u w := by
  have hsilent : ∀ {w' : World},
      w'.log = (w.note (.macAndDestroy site (mdSlot L range i) data)).log → Silent w w' := by
    intro w' hlog
    refine silent_note (fun slot d => ⟨fun h => ?_, fun h => ?_⟩) _ hlog
    · injection h with h
      exact hsite.1 h
    · injection h with h
      exact hsite.2 h
  refine swp_mono (swp_mad (I := I) hi hok) ?_ ?_
  · rintro res u' w' ⟨rfl, hvia, hspin, hlog, hres⟩
    exact ⟨rfl, hvia, ⟨hspin, hsilent hlog⟩, hlog, hres⟩
  · rintro w' ⟨hvia, hspin, hlog, hst⟩
    exact ⟨hvia, ⟨hspin, hsilent hlog⟩, hst⟩

theorem called_note {w : World} {site : MdSite} {slot : ℕ} {data : Bytes} {l : List Event}
    (hl : l = (w.note (.macAndDestroy site slot data)).log) : Called l slot (w.mad slot) data := by
  subst hl
  exact ⟨_, List.mem_cons_self, ⟨site, rfl⟩, rfl⟩

theorem asked_note {w : World} {o : Op} {l : List Event} (hl : l = (w.note o).log) :
    Asked l o := by
  subst hl
  exact ⟨_, List.mem_cons_self, rfl⟩

/-- A range is retired slot by slot; `V` is anything that the calls keep. -/
theorem swp_retire_of (hL : L.Ok) {range : ℕ} (hrange : range < L.ranges) {V : World → Prop}
    (hV : V w) (hrnd : ∀ w' n, V w' → V ((w'.note (.random 32)).spend n))
    (hmad : ∀ w' i data x, i < L.rounds → w'.rmem = w.rmem → V w' →
      x = w'.mad (mdSlot L range i) ∨ x = P.f1 data (mdSlot L range i) →
      V ((w'.note (.macAndDestroy .retire (mdSlot L range i) data)).setMad
        (mdSlot L range i) x)) :
    swp (chip P) A (retire L range)
      (fun ok u' w' => u' = u ∧ V w' ∧ Overwrite L range w w' ∧
        (ok = true ∧ Retired P L w' range ∨ ok = false ∧ Stormy A))
      (fun w' => V w' ∧ Overwrite L range w w' ∧ Stormy A) u w := by
  rw [retire, swp_bind]
  refine swp_mono (swp_loop
    (fun n _ u' w' => u' = u ∧ V w' ∧ Overwrite L range w w' ∧
      ∀ i < n, ∃ rnd, w'.mad (mdSlot L range i) = P.f1 rnd (mdSlot L range i) ∧
        Asked w'.log (.macAndDestroy .retire (mdSlot L range i) rnd))
    (fun u' w' => u' = u ∧ V w' ∧ Overwrite L range w w' ∧ Stormy A)
    ?_ ⟨rfl, hV, .refl L _ w, by simp⟩) ?_ fun _ h => h
  · rintro n _ u₁ w₁ hn ⟨rfl, hV₁, hspin, hdone⟩
    have hdraw : ∀ m, Overwrite L range w ((w₁.note (.random 32)).spend m) := fun m =>
      hspin.trans ⟨⟨rfl, fun _ _ => rfl⟩, silent_note (by simp) _ rfl⟩
    rw [swp_bind]
    refine swp_random ?_ ?_ ?_
    · simp only []
      rw [swp_bind]
      have hV₂ : ∀ x, x = ((w₁.note (.random 32)).spend 32).mad (mdSlot L range n) ∨
          x = P.f1 (w₁.draw 32) (mdSlot L range n) → V _ := fun x hx =>
        hmad _ n (w₁.draw 32) x hn (hdraw 32).rmem (hrnd w₁ 32 hV₁) hx
      have hspin₂ : ∀ x, Overwrite L range w _ := fun x =>
        (hdraw 32).trans (overwrite_mad .retire (by simp) hn _ (w₁.draw 32) x)
      refine swp_macAndDestroy ?_ ?_ ?_
      · refine ⟨rfl, hV₂ _ (.inr rfl), hspin₂ _, fun i hi => ?_⟩
        by_cases hin : i = n
        · subst hin
          exact ⟨w₁.draw 32, by simp, asked_note rfl⟩
        · obtain ⟨rnd, hm, hasked⟩ := hdone i (by omega)
          have hne : mdSlot L range i ≠ mdSlot L range n := fun h =>
            hin (mdSlot_inj hL hrange hrange (by omega) hn h).2
          refine ⟨rnd, by simp [Function.update_of_ne hne, hm], hasked.mono ?_⟩
          exact (List.suffix_cons _ _).trans (List.suffix_cons _ _)
      · exact fun hst x hx => ⟨rfl, hV₂ x hx, hspin₂ x, hst⟩
      · exact fun hst x hx => ⟨hV₂ x hx, hspin₂ x, hst⟩
    · exact fun hst m => ⟨rfl, hrnd _ m hV₁, hdraw m, hst⟩
    · exact fun hst m => ⟨hrnd _ m hV₁, hdraw m, hst⟩
  · rintro (_ | _) u' w' ⟨rfl, hV', hspin, h⟩
    · exact ⟨rfl, hV', hspin, .inr ⟨rfl, h⟩⟩
    · exact ⟨rfl, hV', hspin, .inl ⟨rfl, h⟩⟩

/-- The retirement that a binding asks for. -/
theorem swp_retire (hL : L.Ok) (hb : Now P L w g b) (hp : b.retirePending = true) :
    swp (chip P) A (retire L (1 - b.range))
      (fun ok u' w' => u' = u ∧ Via P L I w w' ∧ Overwrite L (1 - b.range) w w' ∧
        (ok = true ∧ Retired P L w' (1 - b.range) ∨ ok = false ∧ Stormy A))
      (fun w' => Via P L I w w' ∧ Overwrite L (1 - b.range) w w' ∧ Stormy A) u w := by
  have hrange : 1 - b.range < L.ranges := by
    have := hb.wf.pending hp
    omega
  refine swp_retire_of hL hrange (V := fun w' => Via P L I w w') (.refl w)
    (fun w' n h => h.trans (.of_keep fun c => .random 32 n)) fun w' i data x hi hr h hx => ?_
  exact h.trans fun c => ⟨_, .single (.mad (.retire (hb.congr hr) hp hi) hx)⟩

/-- `load` of a pair that holds a binding. -/
theorem swp_load (hA : ∀ f, A f → f.leaves (Invalid P L.record)) (hL : L.Ok)
    (hb : Now P L w g b) :
    swp (chip P) A (load P L)
      (fun st u' w' => Touches L.record (fun _ => True) w w' ∧ Via P L I w w' ∧
        Now P L w' g b ∧ match st with
          | .ok b' => b' = b ∧ u' = false ∧ Kept P L w' g b
          | .absent => False
          | .error => u = true ∨ Stormy A)
      (fun w' => Touches L.record (fun _ => True) w w' ∧ Via P L I w w' ∧ Now P L w' g b ∧
        Stormy A) u w := by
  obtain ⟨r, hr, rfl, hparse⟩ := hb
  have hlen : lenOf r ≤ recPayloadMax := by
    have hp : (payloadOf r).length = bindLen L.rounds := by
      rw [parseBinding] at hparse
      split at hparse
      · rename_i h
        exact h.1
      · cases hparse
    rw [← valid_lenOf hr.valid, hp]
    exact bindLen_le hL
  have hkeep : ∀ {w' : World}, Touches L.record (fun d => some r = some d) w w' →
      Holds P L.record w'.rmem (some r) →
      Touches L.record (fun _ => True) w w' ∧ Via P L I w w' ∧ Now P L w' (genOf r) b :=
    fun ht ho => ⟨ht.mono fun _ _ => trivial, .of_keep fun c => .pair (o := some r) hr ht ho,
      ⟨r, ho, rfl, hparse⟩⟩
  rw [load, swp_bind]
  refine swp_mono (swp_recPairRead hA (o := some r) hr) ?_ ?_
  · rintro (⟨buf, gen⟩ | _ | _ | _) u' w' ⟨ht, ho, hres⟩
    · obtain ⟨rfl, r', hr', rfl, -, -, hm⟩ := hres
      obtain rfl : r = r' := by simpa using hr'
      simp only [hparse]
      obtain ⟨h1, h2, h3⟩ := hkeep ht ho
      exact ⟨h1, h2, h3, rfl, rfl, r, hm, rfl, hparse⟩
    · cases hres.2
    · cases hres.2.1
    · obtain ⟨h1, h2, h3⟩ := hkeep ht ho
      refine ⟨h1, h2, h3, ?_⟩
      rcases hres with h | h | ⟨r', hr', h⟩
      · exact .inl h
      · exact .inr h
      · obtain rfl : r = r' := by simpa using hr'
        simp only [Option.any_some, decide_eq_true_eq] at h
        omega
  · rintro w' ⟨ht, ho, hst⟩
    obtain ⟨h1, h2, h3⟩ := hkeep ht ho
    exact ⟨h1, h2, h3, hst⟩

/-- `load` of a pair that holds nothing. -/
theorem swp_load_vacant (hA : ∀ f, A f → f.leaves (Invalid P L.record)) (ho : Vacant P L w) :
    swp (chip P) A (load P L)
      (fun st u' w' => Touches L.record (fun _ => True) w w' ∧ Via P L I w w' ∧
        Vacant P L w' ∧ match st with
          | .ok _ => False
          | .absent => u' = false
          | .error => u = true ∨ Stormy A ∨ ¬Blank P L.record w.rmem)
      (fun w' => Touches L.record (fun _ => True) w w' ∧ Via P L I w w' ∧ Vacant P L w') u w := by
  have hkeep : ∀ {w' : World}, Touches L.record (fun d => none = some d) w w' →
      Holds P L.record w'.rmem none →
      Touches L.record (fun _ => True) w w' ∧ Via P L I w w' ∧ Vacant P L w' :=
    fun ht h => ⟨ht.mono fun _ _ => trivial, .of_keep fun c => .pair (o := none) ho ht h, h⟩
  rw [load, swp_bind]
  refine swp_mono (swp_recPairRead hA (o := none) ho) ?_ ?_
  · rintro (⟨buf, gen⟩ | _ | _ | _) u' w' ⟨ht, h, hres⟩
    · obtain ⟨-, r, hr, -⟩ := hres
      cases hr
    all_goals obtain ⟨h1, h2, h3⟩ := hkeep ht h
    · exact ⟨h1, h2, h3, hres.1⟩
    · exact ⟨h1, h2, h3, .inr (.inr hres.2.2)⟩
    · refine ⟨h1, h2, h3, hres.imp_right fun h => .inl ?_⟩
      rcases h with h | ⟨r, hr, -⟩
      · exact h
      · cases hr
  · rintro w' ⟨ht, h, -⟩
    exact hkeep ht h

/-- Any chip state while a binding is being settled. -/
structure Settling (P : Prims) (L : Layout) (I : World → Bytes → Bytes → Prop) (g : ℕ)
    (b : Binding) (w w' : World) : Prop where
  via : Via P L I w w'
  silent : Silent w w'
  mad : ∀ slot, ¬InRange L (1 - b.range) slot → w'.mad slot = w.mad slot
  mad_eq : b.retirePending = false → w'.mad = w.mad
  holding : Holding P L w' (g + b.debt) fun b' => b' = b ∨ b' = b.settled

/-- After `settle` of a pair that held a binding. -/
def SettlePost (P : Prims) (A : Fate → Prop) (L : Layout)
    (I : World → Bytes → Bytes → Prop) (g : ℕ) (b : Binding) (u : Bool) (w : World)
    (st : Loaded) (u' : Bool) (w' : World) : Prop :=
  Settling P L I g b w w' ∧
    match st with
    | .ok b' => b' = b.settled ∧ u' = false ∧ Kept P L w' (g + b.debt) b' ∧
        (b.retirePending = true → Retired P L w' (1 - b.range))
    | .absent => False
    | .error => u = true ∨ Stormy A ∨ b.retirePending = true ∧ g = uint32Max

theorem swp_settle (hA : ∀ f, A f → f.leaves (Invalid P L.record)) (hL : L.Ok)
    (hb : Now P L w g b) :
    swp (chip P) A (settle P L) (SettlePost P A L I g b u w)
      (fun w' => Settling P L I g b w w' ∧ Stormy A) u w := by
  have hread : ∀ {w' : World}, Touches L.record (fun _ => True) w w' → Via P L I w w' →
      Now P L w' g b → Settling P L I g b w w' := fun ht hvia hnow =>
    ⟨hvia, ht.silent, fun _ _ => by rw [ht.mad], fun _ => ht.mad, g, b, hnow, le_rfl, .inl rfl⟩
  rw [settle, swp_bind]
  refine swp_mono (swp_load (I := I) hA hL hb) ?_ ?_
  · rintro (b₁ | _ | _) u₁ w₁ ⟨ht, hvia, hnow, hst⟩
    · obtain ⟨rfl, rfl, hkept⟩ := hst
      simp only []
      split
      · rename_i hp
        have hspin₁ : ∀ {w' : World}, Via P L I w₁ w' → Overwrite L (1 - b₁.range) w₁ w' →
            Settling P L I g b₁ w w' := by
          intro w' hvia' hspin
          refine ⟨hvia.trans hvia', ht.silent.trans hspin.silent, fun slot hs => ?_, fun hn => ?_,
            g, b₁, hnow.congr hspin.rmem, le_rfl, .inl rfl⟩
          · rw [hspin.mad slot hs, ht.mad]
          · rw [hp] at hn
            cases hn
        rw [swp_bind]
        refine swp_mono (swp_retire (I := I) hL hnow hp) ?_ ?_
        · rintro ok u₂ w₂ ⟨rfl, hvia₂, hspin, ⟨rfl, hret⟩ | ⟨rfl, hst⟩⟩
          · simp only [if_true]
            have hturn : Turn P L I w₂ b₁ { b₁ with retirePending := false } false :=
              .settled hp hret
            have hwf : Binding.Wf L { b₁ with retirePending := false } :=
              ⟨hnow.wf.range, nofun, hnow.wf.next, hnow.wf.tag, hnow.wf.ci, hnow.wf.ci_length⟩
            have hmid : ∀ {w' : World},
                Turning P L I g b₁ { b₁ with retirePending := false } w₂ w' →
                Settling P L I g b₁ w w' := by
              rintro w' ⟨ht', hvia', hnow'⟩
              have hs := hspin₁ hvia₂ hspin
              refine ⟨hs.via.trans hvia', hs.silent.trans ht'.silent, fun slot hslot => ?_,
                fun hn => ?_, ?_⟩
              · rw [ht'.mad, hs.mad slot hslot]
              · rw [hp] at hn
                cases hn
              · rcases hnow' with h | h
                · exact ⟨_, _, h, le_rfl, .inl rfl⟩
                · exact ⟨_, _, h, (debt_of_pending hp ▸ le_rfl : g + 1 ≤ g + b₁.debt), .inr rfl⟩
            rw [swp_bind]
            refine swp_mono (swp_store hA hL (hnow.congr hspin.rmem) hwf hturn) ?_ ?_
            · rintro ok u₃ w₃ ⟨hturning, ⟨rfl, rfl, hkept₃, -⟩ | ⟨rfl, hwhy⟩⟩
              · rw [← debt_of_pending hp] at hkept₃
                refine ⟨hmid hturning, rfl, rfl, hkept₃, fun _ i hi => ?_⟩
                · obtain ⟨rnd, hm, hasked⟩ := hret i hi
                  refine ⟨rnd, ?_, hasked.mono hturning.2.1.log⟩
                  rw [hturning.1.mad]
                  exact hm
              · refine ⟨hmid hturning, ?_⟩
                rcases hwhy with h | h | h
                · cases h
                · exact .inr (.inl h)
                · exact .inr (.inr ⟨hp, h⟩)
            · rintro w₃ ⟨hturning, hst⟩
              exact ⟨hmid hturning, hst⟩
          · exact ⟨hspin₁ hvia₂ hspin, .inr (.inl hst)⟩
        · rintro w₂ ⟨hvia₂, hspin, hst⟩
          exact ⟨hspin₁ hvia₂ hspin, hst⟩
      · rename_i hp
        have hp' : b₁.retirePending = false := by simpa using hp
        rw [← Nat.add_zero g, ← debt_of_settled hp'] at hkept
        exact ⟨hread ht hvia hnow, (settled_eq hp').symm, rfl, hkept, fun h => absurd h hp⟩
    · exact hst.elim
    · exact ⟨hread ht hvia hnow, hst.imp_right .inl⟩
  · rintro w₁ ⟨ht, hvia, hnow, hst⟩
    exact ⟨hread ht hvia hnow, hst⟩

/-- `settle` of a pair that holds nothing. -/
theorem swp_settle_vacant (hA : ∀ f, A f → f.leaves (Invalid P L.record)) (ho : Vacant P L w) :
    swp (chip P) A (settle P L)
      (fun st u' w' => Touches L.record (fun _ => True) w w' ∧ Via P L I w w' ∧
        Vacant P L w' ∧ match st with
          | .ok _ => False
          | .absent => u' = false
          | .error => u = true ∨ Stormy A ∨ ¬Blank P L.record w.rmem)
      (fun w' => Touches L.record (fun _ => True) w w' ∧ Via P L I w w' ∧ Vacant P L w') u w := by
  rw [settle, swp_bind]
  refine swp_mono (swp_load_vacant (I := I) hA ho) ?_ fun _ h => h
  rintro (b₁ | _ | _) u₁ w₁ ⟨ht, hvia, hvac, hst⟩
  · exact hst.elim
  · exact ⟨ht, hvia, hvac, hst⟩
  · exact ⟨ht, hvia, hvac, hst⟩

/-- Every slot of a range that held `mad` was called with the `u` of `s`. -/
def Restored (P : Prims) (L : Layout) (l : List Event) (range : ℕ) (mad : ℕ → Bytes)
    (s : Bytes) : Prop :=
  ∀ i < L.rounds, Called l (mdSlot L range i) (mad (mdSlot L range i)) (keyU P s)

theorem Restored.mono {l l' : List Event} {range : ℕ} {mad : ℕ → Bytes} {s : Bytes}
    (h : Restored P L l range mad s) (hl : l <:+ l') : Restored P L l' range mad s :=
  fun i hi => (h i hi).mono hl

/-- A range is armed again slot by slot. -/
theorem swp_restore (hL : L.Ok) {s : Bytes} (hb : Kept P L w g b)
    (hp : b.retirePending = false) (htag : keyTag P s = b.tag)
    (hasked : Asked w.log (.hmac s [0x00])) :
    swp (chip P) A (restore L b.range (keyU P s))
      (fun ok u' w' => u' = u ∧ Via P L I w w' ∧ Spin L b.range w w' ∧
        (ok = true ∧ Armed P L w'.mad b.range 0 s ∧ probes w'.log = 0 ∧
            Restored P L w'.log b.range w.mad s ∨
          ok = false ∧ Stormy A))
      (fun w' => Via P L I w w' ∧ Spin L b.range w w' ∧ Stormy A) u w := by
  have hrange := hb.now.wf.range
  rw [restore, swp_bind]
  refine swp_mono (swp_loop
    (fun n _ u' w' => u' = u ∧ Via P L I w w' ∧ Spin L b.range w w' ∧
      (∀ i < n, w'.mad (mdSlot L b.range i) = P.f1 (keyU P s) (mdSlot L b.range i)) ∧
      (n ≠ 0 → probes w'.log = 0) ∧
      (∀ i < n, Called w'.log (mdSlot L b.range i) (w.mad (mdSlot L b.range i)) (keyU P s)) ∧
      ∀ i, n ≤ i → i < L.rounds → w'.mad (mdSlot L b.range i) = w.mad (mdSlot L b.range i))
    (fun u' w' => u' = u ∧ Via P L I w w' ∧ Spin L b.range w w' ∧ Stormy A)
    ?_ ⟨rfl, .refl w, .refl L _ w, by simp, by simp, by simp, fun _ _ _ => rfl⟩) ?_ fun _ h => h
  · rintro n _ u₁ w₁ hn ⟨rfl, hvia, hspin, hdone, -, hcalled, hrest⟩
    have hok : ∀ c, MadOk P L w₁ c .restore (mdSlot L b.range n) (keyU P s) := fun c =>
      .restore (hb.congr hspin.rmem) hp htag (hasked.mono hvia.log) hn
    rw [swp_bind]
    refine swp_mono (swp_mad (I := I) hn hok) ?_ ?_
    · rintro res u₂ w₂ ⟨rfl, hvia₂, hspin₂, hlog, ⟨rfl, hmad⟩ | ⟨rfl, hst⟩⟩
      · have hne : ∀ i, i ≠ n → i < L.rounds → mdSlot L b.range i ≠ mdSlot L b.range n :=
          fun i hin hi h => hin (mdSlot_inj hL hrange hrange hi hn h).2
        refine ⟨rfl, hvia.trans hvia₂, hspin.trans hspin₂, fun i hi => ?_, fun _ => ?_,
          fun i hi => ?_, fun i hi hr => ?_⟩
        · by_cases hin : i = n
          · subst hin
            simp [hmad]
          · rw [hmad, Function.update_of_ne (hne i hin (by omega))]
            exact hdone i (by omega)
        · rw [hlog]
          rfl
        · by_cases hin : i = n
          · subst hin
            rw [← hrest i le_rfl hn]
            exact called_note hlog
          · exact (hcalled i (by omega)).mono hvia₂.log
        · rw [hmad, Function.update_of_ne (hne i (by omega) hr)]
          exact hrest i (by omega) hr
      · exact ⟨rfl, hvia.trans hvia₂, hspin.trans hspin₂, hst⟩
    · rintro w₂ ⟨hvia₂, hspin₂, -, hst⟩
      exact ⟨hvia.trans hvia₂, hspin.trans hspin₂, hst⟩
  · rintro (_ | _) u' w' ⟨rfl, hvia, hspin, h⟩
    · exact ⟨rfl, hvia, hspin, .inr ⟨rfl, h⟩⟩
    · exact ⟨rfl, hvia, hspin, .inl ⟨rfl, fun i _ hi => h.1 i hi, h.2.1 hL.rounds_pos.ne', h.2.2.1⟩⟩

/-- The slot that the next attempt uses. -/
def trySlot (L : Layout) (b : Binding) : ℕ := mdSlot L b.range b.next

/-- What the slot answers to the material. -/
def tryAnswer (P : Prims) (L : Layout) (mad : ℕ → Bytes) (b : Binding) (mat : Bytes) : Bytes :=
  answer P (mad (trySlot L b)) (pinKey P mat) (trySlot L b)

/-- The slots after a try with the material. -/
def triedMad (P : Prims) (L : Layout) (mad : ℕ → Bytes) (b : Binding) (mat : Bytes) : ℕ → Bytes :=
  Function.update mad (trySlot L b) (P.f1 (pinKey P mat) (trySlot L b))

/-- The `s` that an attempt with the material arrives at. -/
def guess (P : Prims) (L : Layout) (mad : ℕ → Bytes) (b : Binding) (mat : Bytes) : Bytes :=
  xorBytes (b.ci.getD b.next []) (P.hmac (tryAnswer P L mad b mat) mat)

/-- The queries of an attempt are in the log. -/
structure Tried (P : Prims) (L : Layout) (l : List Event) (mad : ℕ → Bytes) (b : Binding)
    (mat : Bytes) : Prop where
  asked_v : Asked l (.hmac zeros mat)
  called : Called l (trySlot L b) (mad (trySlot L b)) (pinKey P mat)
  asked_w : Asked l (.hmac (tryAnswer P L mad b mat) mat)
  asked_s : Asked l (.hmac (guess P L mad b mat) [0x00])

theorem Tried.mono {l l' : List Event} {mad : ℕ → Bytes} {mat : Bytes}
    (h : Tried P L l mad b mat) (hl : l <:+ l') : Tried P L l' mad b mat :=
  ⟨h.asked_v.mono hl, h.called.mono hl, h.asked_w.mono hl, h.asked_s.mono hl⟩

/-- Any chip state during an attempt on a binding. -/
structure Attempting (P : Prims) (L : Layout) (I : World → Bytes → Bytes → Prop) (g : ℕ)
    (b : Binding) (w w' : World) : Prop where
  via : Via P L I w w'
  mad : ∀ slot, ¬InRange L b.range slot → w'.mad slot = w.mad slot
  holding : Holding P L w' (g + 2) fun b' =>
    b' = b ∨ b' = { b with next := b.next + 1 } ∨ b' = { b with next := 0 }
  /-- A blocked PIN is not tried. -/
  full : L.rounds ≤ b.next → w' = w

/-- After `attempt` on the binding both copies held. -/
def AttemptPost (P : Prims) (A : Fate → Prop) (L : Layout)
    (I : World → Bytes → Bytes → Prop) (g : ℕ) (b : Binding) (mat : Bytes) (u : Bool)
    (w : World) (res : Verdict) (u' : Bool) (w' : World) : Prop :=
  Attempting P L I g b w w' ∧
    match res with
    | .right s => u' = false ∧ b.next < L.rounds ∧ s = guess P L w.mad b mat ∧
        keyTag P s = b.tag ∧ Tried P L w'.log w.mad b mat ∧
        Kept P L w' (g + 2) { b with next := 0 } ∧ Armed P L w'.mad b.range 0 s ∧
        probes w'.log = 0 ∧ Restored P L w'.log b.range (triedMad P L w.mad b mat) s
    | .wrong => u' = false ∧ b.next < L.rounds ∧ keyTag P (guess P L w.mad b mat) ≠ b.tag ∧
        Tried P L w'.log w.mad b mat ∧ Kept P L w' (g + 1) { b with next := b.next + 1 }
    | .blocked => u' = u ∧ w' = w ∧ L.rounds ≤ b.next
    | .err => u = true ∨ Stormy A ∨ uint32Max ≤ g + 1
    | .absent => False

theorem swp_slotXor {s mat c : Bytes} {Q : Bytes → Bool → World → Prop} {C : World → Prop}
    (h : Q (xorBytes c (P.hmac s mat)) u (w.note (.hmac s mat))) :
    swp (chip P) A (slotXor s mat c) Q C u w := by
  rw [slotXor, swp_bind]
  exact swp_hmac h

/-- An attempt goes on while the reserved binding stands and nothing outside its range is
touched. -/
theorem Attempting.onward {w₀ w' : World} (hat : Attempting P L I g b w₀ w)
    (hp : b.retirePending = false) (hn : b.next < L.rounds) (hvia : Via P L I w w')
    (hmad : ∀ slot, ¬InRange L b.range slot → w'.mad slot = w.mad slot)
    (hkept : Kept P L w' (g + 1) { b with next := b.next + 1 }) : Attempting P L I g b w₀ w' :=
  ⟨hat.via.trans hvia, fun slot hs => (hmad slot hs).trans (hat.mad slot hs),
    holding_of_now hkept.now hp (by omega) (.inr (.inl rfl)), fun h => absurd h (by omega)⟩

/-- What `judge` has left once the tag is right. -/
def rearms (P : Prims) (L : Layout) (b : Binding) (s u : Bytes) : PairM Verdict := do
  if ← restore L b.range u then
    if ← store P L { b with next := 0 } false then pure (.right s)
    else pure .err
  else pure .err

/-- A right PIN restores the range and then frees the reserved slot. -/
theorem swp_rearms (hA : ∀ f, A f → f.leaves (Invalid P L.record)) (hL : L.Ok)
    {mat : Bytes} {w₀ : World} (hp : b.retirePending = false) (hn : b.next < L.rounds)
    (hat : Attempting P L I g b w₀ w)
    (hkept : Kept P L w (g + 1) { b with next := b.next + 1 })
    (htag : keyTag P (guess P L w₀.mad b mat) = b.tag) (htried : Tried P L w.log w₀.mad b mat)
    (htry : w.mad = triedMad P L w₀.mad b mat) :
    swp (chip P) A (rearms P L b (guess P L w₀.mad b mat) (keyU P (guess P L w₀.mad b mat)))
      (AttemptPost P A L I g b mat false w₀)
      (fun w' => Attempting P L I g b w₀ w' ∧ Stormy A) false w := by
  rw [rearms, swp_bind]
  have hrestore := swp_restore (A := A) (I := I) (u := false) hL hkept hp htag htried.asked_s
  refine swp_mono hrestore ?_ ?_
  · rintro ok u₂ w₂ ⟨rfl, hvia, hspin, ⟨rfl, harmed, hprobes, hrest⟩ | ⟨rfl, hst⟩⟩
    · simp only [if_true]
      have hkept₂ : Kept P L w₂ (g + 1) { b with next := b.next + 1 } := hkept.congr hspin.rmem
      have hturn : Turn P L I w₂ { b with next := b.next + 1 } { b with next := 0 } false :=
        .restored hp htag (htried.asked_s.mono hvia.log) harmed hprobes
      have hwf : Binding.Wf L { b with next := 0 } := by
        have h := hkept.now.wf
        exact ⟨h.range, h.pending, Nat.zero_le _, h.tag, h.ci, h.ci_length⟩
      have hmid : ∀ {w' : World}, Turning P L I (g + 1) { b with next := b.next + 1 }
          { b with next := 0 } w₂ w' → Attempting P L I g b w₀ w' := by
        rintro w' ⟨ht, hvia', hnow⟩
        refine ⟨hat.via.trans (hvia.trans hvia'), fun slot hs => ?_, ?_,
          fun h => absurd h (by omega)⟩
        · rw [ht.mad, hspin.mad slot hs]
          exact hat.mad slot hs
        · rcases hnow with h | h
          · exact holding_of_now h hp (by omega) (.inr (.inl rfl))
          · exact holding_of_now h hp (by omega) (.inr (.inr rfl))
      rw [swp_bind]
      refine swp_mono (swp_store hA hL hkept₂.now hwf hturn) ?_ ?_
      · rintro ok u₃ w₃ ⟨hturning, ⟨rfl, rfl, hkept₃, -⟩ | ⟨rfl, hwhy⟩⟩
        · refine ⟨hmid hturning, rfl, hn, rfl, htag,
            htried.mono (hvia.log.trans hturning.2.1.log), hkept₃, ?_,
            hturning.1.silent.probes.trans hprobes, ?_⟩
          · rw [hturning.1.mad]
            exact harmed
          · rw [← htry]
            exact hrest.mono hturning.2.1.log
        · refine ⟨hmid hturning, ?_⟩
          rcases hwhy with h | h | h
          · cases h
          · exact .inr (.inl h)
          · exact .inr (.inr h.ge)
      · rintro w₃ ⟨hturning, hst⟩
        exact ⟨hmid hturning, hst⟩
    · exact ⟨hat.onward hp hn hvia hspin.mad (hkept.congr hspin.rmem), .inr (.inl hst)⟩
  · rintro w₂ ⟨hvia, hspin, hst⟩
    exact ⟨hat.onward hp hn hvia hspin.mad (hkept.congr hspin.rmem), hst⟩

/-- The comparison, in a world reached from `w₀` by reserving slot `b.next`
and trying it. -/
theorem swp_judge (hA : ∀ f, A f → f.leaves (Invalid P L.record)) (hL : L.Ok)
    {mat : Bytes} {w₀ : World} (hp : b.retirePending = false) (hn : b.next < L.rounds)
    (hat : Attempting P L I g b w₀ w)
    (hkept : Kept P L w (g + 1) { b with next := b.next + 1 })
    (hv : Asked w.log (.hmac zeros mat))
    (hcalled : Called w.log (trySlot L b) (w₀.mad (trySlot L b)) (pinKey P mat))
    (htry : w.mad = triedMad P L w₀.mad b mat) :
    swp (chip P) A (judge P L b mat (tryAnswer P L w₀.mad b mat))
      (AttemptPost P A L I g b mat false w₀)
      (fun w' => Attempting P L I g b w₀ w' ∧ Stormy A) false w := by
  have hask : ∀ (w' : World) key msg, Via P L I w' (w'.note (.hmac key msg)) :=
    fun _ key msg => .of_keep fun c => .hmac key msg
  rw [judge, swp_bind]
  refine swp_slotXor ?_
  rw [swp_bind]
  refine swp_hmac ?_
  change swp (chip P) A (if keyTag P (guess P L w₀.mad b mat) ≠ b.tag then _ else _) _ _ _ _
  generalize hw₁ : (w.note (.hmac (tryAnswer P L w₀.mad b mat) mat)).note
    (.hmac (guess P L w₀.mad b mat) [0x00]) = w₁
  have hw₁' : (w.note (.hmac (tryAnswer P L w₀.mad b mat) mat)).note
    (.hmac (xorBytes (b.ci.getD b.next []) (P.hmac (tryAnswer P L w₀.mad b mat) mat)) [0x00]) =
      w₁ := hw₁
  rw [hw₁']
  have hrmem : w₁.rmem = w.rmem := by rw [← hw₁]; rfl
  have hmad : w₁.mad = w.mad := by rw [← hw₁]; rfl
  have hvia : Via P L I w w₁ := by
    rw [← hw₁]
    exact (hask _ _ _).trans (hask _ _ _)
  have htried : Tried P L w₁.log w₀.mad b mat := by
    refine ⟨hv.mono hvia.log, hcalled.mono hvia.log, ?_, asked_note (by rw [← hw₁])⟩
    have hq : Asked (w.note (.hmac (tryAnswer P L w₀.mad b mat) mat)).log
        (.hmac (tryAnswer P L w₀.mad b mat) mat) := asked_note rfl
    refine hq.mono ?_
    rw [← hw₁]
    exact List.suffix_cons _ _
  have hkept₁ : Kept P L w₁ (g + 1) { b with next := b.next + 1 } := hkept.congr hrmem
  split
  · rename_i hne
    exact ⟨hat.onward hp hn hvia (fun slot _ => congrFun hmad slot) hkept₁, rfl, hn, hne, htried,
      hkept₁⟩
  · rename_i heq
    rw [swp_bind]
    refine swp_hmac ?_
    exact swp_rearms hA hL hp hn
      (hat.onward hp hn (hvia.trans (hask _ _ _)) (fun slot _ => congrFun hmad slot)
        (hkept₁.congr rfl))
      (hkept₁.congr rfl) (not_not.mp heq) (htried.mono (List.suffix_cons _ _)) (hmad.trans htry)

/-- An attempt reserves slot `b.next` in both copies before it tries the
PIN there. -/
theorem swp_attempt (hA : ∀ f, A f → f.leaves (Invalid P L.record)) (hL : L.Ok)
    {mat : Bytes} (hb : Kept P L w g b) (hp : b.retirePending = false) :
    swp (chip P) A (attempt P L b mat) (AttemptPost P A L I g b mat u w)
      (fun w' => Attempting P L I g b w w' ∧ Stormy A) u w := by
  have hrange := hb.now.wf.range
  rw [attempt]
  split
  · rename_i hfull
    exact ⟨⟨.refl w, fun _ _ => rfl, holding_of_now hb.now hp (by omega) (.inl rfl),
      fun _ => rfl⟩, rfl, rfl, hfull⟩
  · rename_i hfull
    have hn : b.next < L.rounds := by omega
    have hwf : Binding.Wf L { b with next := b.next + 1 } := by
      have h := hb.now.wf
      exact ⟨h.range, h.pending, hn, h.tag, h.ci, h.ci_length⟩
    have hmid : ∀ {w' : World}, Turning P L I g b { b with next := b.next + 1 } w w' →
        Attempting P L I g b w w' := by
      rintro w' ⟨ht, hvia, hnow⟩
      refine ⟨hvia, fun slot _ => by rw [ht.mad], ?_, fun h => absurd h hfull⟩
      rcases hnow with h | h
      · exact holding_of_now h hp (by omega) (.inl rfl)
      · exact holding_of_now h hp (by omega) (.inr (.inl rfl))
    rw [swp_bind]
    refine swp_mono (swp_store (I := I) hA hL hb.now hwf (.reserved hp hn)) ?_ ?_
    · rintro ok u₁ w₁ ⟨hturning, ⟨rfl, rfl, hkept₁, hstep⟩ | ⟨rfl, hwhy⟩⟩
      · simp only [if_true]
        have hmad₁ : w₁.mad = w.mad := hturning.1.mad
        rw [swp_bind, pinV]
        refine swp_hmac ?_
        change swp (chip P) A (tropicMacAndDestroy .probe (trySlot L b) (pinKey P mat) >>= _)
          _ _ false _
        rw [swp_bind]
        generalize hw₂ : w₁.note (.hmac zeros mat) = w₂
        have hmad₂ : w₂.mad = w.mad := by rw [← hw₂]; exact hmad₁
        have hkept₂ : Kept P L w₂ (g + 1) { b with next := b.next + 1 } :=
          hkept₁.congr (by rw [← hw₂]; rfl)
        have hasked : Asked w₂.log (.hmac zeros mat) := asked_note (by rw [← hw₂])
        have hpath : ∀ c, PinPath P L I (w, c) (w₂, true) := by
          intro c
          rw [← hw₂]
          exact (Relation.ReflTransGen.single (hstep c)).tail (.hmac zeros mat)
        have hok : MadOk P L w₂ true .probe (trySlot L b) (pinKey P mat) :=
          .probe (b := { b with next := b.next + 1 }) hkept₂ hp rfl hn
        have hat : ∀ x, x = w₂.mad (trySlot L b) ∨ x = P.f1 (pinKey P mat) (trySlot L b) →
            Attempting P L I g b w
              ((w₂.note (.macAndDestroy .probe (trySlot L b) (pinKey P mat))).setMad
                (trySlot L b) x) := by
          intro x hx
          refine ⟨fun c => ⟨_, (hpath c).tail (.mad hok hx)⟩, fun slot hs => ?_, ?_,
            fun h => absurd h hfull⟩
          · have hne : slot ≠ trySlot L b := fun h => hs ⟨b.next, hn, h⟩
            simp [Function.update_of_ne hne, hmad₂]
          · exact holding_of_now (hkept₂.congr rfl).now hp (by omega) (.inr (.inl rfl))
        refine swp_macAndDestroy ?_ ?_ ?_
        · have hjudge := swp_judge (A := A) hA hL hp hn
            (hat _ (.inr rfl)) (hkept₂.congr rfl)
            (hasked.mono (List.suffix_cons _ _)) (by
              rw [← hmad₂]
              exact called_note rfl) (by
              rw [triedMad, ← hmad₂]
              rfl)
          rw [tryAnswer, ← hmad₂] at hjudge
          refine swp_mono hjudge ?_ fun _ h => h
          rintro res u' w' ⟨hatt, hres⟩
          refine ⟨hatt, ?_⟩
          cases res with
          | err => exact hres.imp_left nofun
          | right s => exact hres
          | wrong => exact hres
          | blocked => exact absurd hres.2.2 (by omega)
          | absent => exact hres
        · exact fun hst x hx => ⟨hat x hx, .inr (.inl hst)⟩
        · exact fun hst x hx => ⟨hat x hx, hst⟩
      · refine ⟨hmid hturning, ?_⟩
        rcases hwhy with h | h | h
        · exact .inl h
        · exact .inr (.inl h)
        · exact .inr (.inr (by omega))
    · rintro w₁ ⟨hturning, hst⟩
      exact ⟨hmid hturning, hst⟩

/-- The bindings that a verification of `b` passes through. -/
def Binding.Verifies (b b' : Binding) : Prop :=
  b' = b ∨ b' = b.settled ∨ b' = { b.settled with next := b.next + 1 } ∨
    b' = { b.settled with next := 0 }

/-- Any chip state during `verify_s` on a pair that held a binding. -/
structure Verifying (P : Prims) (L : Layout) (I : World → Bytes → Bytes → Prop) (g : ℕ)
    (b : Binding) (w w' : World) : Prop where
  via : Via P L I w w'
  holding : Holding P L w' (g + b.debt + 2) b.Verifies
  full : L.rounds ≤ b.next → Silent w w'

/-- After `verify_s` on a pair that held a binding. -/
def VerifyPost (P : Prims) (A : Fate → Prop) (L : Layout)
    (I : World → Bytes → Bytes → Prop) (g : ℕ) (b : Binding) (mat : Bytes) (u : Bool)
    (w : World) (res : Verdict) (u' : Bool) (w' : World) : Prop :=
  Verifying P L I g b w w' ∧
    match res with
    | .right s => u' = false ∧ b.next < L.rounds ∧ s = guess P L w.mad b mat ∧
        keyTag P s = b.tag ∧ Tried P L w'.log w.mad b mat ∧
        Kept P L w' (g + b.debt + 2) { b.settled with next := 0 } ∧
        Armed P L w'.mad b.range 0 s ∧ probes w'.log = 0 ∧
        Restored P L w'.log b.range (triedMad P L w.mad b mat) s
    | .wrong => u' = false ∧ b.next < L.rounds ∧ keyTag P (guess P L w.mad b mat) ≠ b.tag ∧
        Tried P L w'.log w.mad b mat ∧
        Kept P L w' (g + b.debt + 1) { b.settled with next := b.next + 1 }
    | .blocked => u' = false ∧ L.rounds ≤ b.next
    | .err => u = true ∨ Stormy A ∨ uint32Max ≤ g + b.debt + 1
    | .absent => False

/-- Settling leaves the live range alone. -/
theorem Settling.range_eq {w' : World} (hL : L.Ok) (h : Settling P L I g b w w')
    (hwf : b.Wf L) {i : ℕ} (hi : i < L.rounds) :
    w'.mad (mdSlot L b.range i) = w.mad (mdSlot L b.range i) := by
  cases hp : b.retirePending with
  | false => rw [h.mad_eq hp]
  | true =>
      have h2 := hwf.pending hp
      have hr := hwf.range
      exact h.mad _ (inRange_apart hL hr (by omega) (by omega) ⟨i, hi, rfl⟩)

theorem Settling.verifies {w' : World} (h : Settling P L I g b w w') :
    Verifying P L I g b w w' := by
  refine ⟨h.via, h.holding.mono (by omega) ?_, fun _ => h.silent⟩
  rintro b' (hs | hs)
  · exact .inl hs
  · exact .inr (.inl hs)

theorem swp_verifyS (hA : ∀ f, A f → f.leaves (Invalid P L.record)) (hL : L.Ok)
    {mat : Bytes} (hb : Now P L w g b) :
    swp (chip P) A (verifyS P L mat) (VerifyPost P A L I g b mat u w)
      (fun w' => Verifying P L I g b w w' ∧ Stormy A) u w := by
  rw [verifyS, swp_bind]
  refine swp_mono (swp_settle (I := I) hA hL hb) ?_ ?_
  · rintro (b₁ | _ | _) u₁ w₁ ⟨hs, hst⟩
    · obtain ⟨rfl, rfl, hkept, -⟩ := hst
      have hholding : ∀ {w' : World}, Attempting P L I (g + b.debt) b.settled w₁ w' →
          Verifying P L I g b w w' := fun h =>
        ⟨hs.via.trans h.via, h.holding.mono le_rfl fun _ h => .inr h,
          fun hfull => h.full hfull ▸ hs.silent⟩
      -- the slot to be tried was not touched
      have hguess : b.next < L.rounds → w₁.mad (trySlot L b) = w.mad (trySlot L b) :=
        hs.range_eq hL hb.wf
      have htry : b.next < L.rounds → ∀ l, Tried P L l w₁.mad b.settled mat →
          Tried P L l w.mad b mat := by
        intro hn l h
        have hm := hguess hn
        have ha : tryAnswer P L w₁.mad b mat = tryAnswer P L w.mad b mat := by
          simp only [tryAnswer, hm]
        have hg : guess P L w₁.mad b mat = guess P L w.mad b mat := by
          simp only [guess, ha]
        exact ⟨h.asked_v, hm ▸ h.called, ha ▸ h.asked_w, hg ▸ h.asked_s⟩
      have hgeq : b.next < L.rounds →
          guess P L w₁.mad b.settled mat = guess P L w.mad b mat := by
        intro hn
        simp only [guess, tryAnswer]
        change xorBytes _ (P.hmac (answer P (w₁.mad (trySlot L b)) _ _) mat) = _
        rw [hguess hn]
        rfl
      refine swp_mono (swp_attempt (I := I) hA hL hkept rfl) ?_ ?_
      · rintro (s | _ | _ | _ | _) u₂ w₂ ⟨hat, hres⟩
        · obtain ⟨rfl, hn, hs', htag, htried, hk, harmed, hprobes, hrest⟩ := hres
          refine ⟨hholding hat, rfl, hn, hs'.trans (hgeq hn), htag,
            htry hn _ htried, hk, harmed, hprobes, fun i hi => ?_⟩
          have hslot : triedMad P L w₁.mad b.settled mat (mdSlot L b.range i) =
              triedMad P L w.mad b mat (mdSlot L b.range i) := by
            simp only [triedMad, Function.update_apply, hs.range_eq hL hb.wf hi]
            rfl
          rw [← hslot]
          exact hrest i hi
        · obtain ⟨rfl, hn, htag, htried, hk⟩ := hres
          refine ⟨hholding hat, rfl, hn, ?_, htry hn _ htried, hk⟩
          rw [← hgeq hn]
          exact htag
        · refine ⟨hholding hat, ?_⟩
          rcases hres with h | h | h
          · cases h
          · exact .inr (.inl h)
          · exact .inr (.inr (by omega))
        · obtain ⟨rfl, rfl, hfull⟩ := hres
          exact ⟨hholding hat, rfl, hfull⟩
        · exact hres.elim
      · rintro w₂ ⟨hat, hst⟩
        exact ⟨hholding hat, hst⟩
    · exact hst.elim
    · refine ⟨hs.verifies, ?_⟩
      rcases hst with h | h | ⟨hp, h⟩
      · exact .inl h
      · exact .inr (.inl h)
      · exact .inr (.inr (by omega))
  · rintro w₁ ⟨hs, hst⟩
    exact ⟨hs.verifies, hst⟩

theorem swp_verifyS_vacant (hA : ∀ f, A f → f.leaves (Invalid P L.record)) {mat : Bytes}
    (ho : Vacant P L w) :
    swp (chip P) A (verifyS P L mat)
      (fun res _ w' => Via P L I w w' ∧ Silent w w' ∧ Vacant P L w' ∧
        (res = .absent ∨ res = .err))
      (fun w' => Via P L I w w' ∧ Silent w w' ∧ Vacant P L w') u w := by
  rw [verifyS, swp_bind]
  refine swp_mono (swp_settle_vacant (I := I) hA ho) ?_ ?_
  · rintro (b₁ | _ | _) u₁ w₁ ⟨ht, hvia, hvac, hst⟩
    · exact hst.elim
    · exact ⟨hvia, ht.silent, hvac, .inl rfl⟩
    · exact ⟨hvia, ht.silent, hvac, .inr rfl⟩
  · rintro w₁ ⟨ht, hvia, hvac⟩
    exact ⟨hvia, ht.silent, hvac⟩

end Rules

end Nixtropic
