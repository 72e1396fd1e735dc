import Nixtropic.Tropic.PinLogic
import Mathlib.Data.List.GetD

/-!
The rules of `setup_s`: a range is written slot by slot, the record is
switched to it by one write, and the old range is retired.
-/

namespace Nixtropic

open Crash

section Rules

variable {P : Prims} {A : Fate → Prop} {L : Layout} {I : World → Bytes → Bytes → Prop}
  {u : Bool} {w : World} {g : ℕ} {b : Binding}

theorem Free.congr {range : ℕ} {w' : World} (h : Free P L w range) (hr : w'.rmem = w.rmem) :
    Free P L w' range := by
  rcases h with ⟨hv, h0⟩ | ⟨g, b, hb, hp, h2, hrange⟩
  · exact .inl ⟨hv.congr hr, h0⟩
  · exact .inr ⟨g, b, hb.congr hr, hp, h2, hrange⟩

theorem swp_armSlot {range i : ℕ} {ku kv : Bytes} (hfree : Free P L w range)
    (hi : i < L.rounds) :
    swp (chip P) A (armSlot (mdSlot L range i) ku kv)
      (fun res u' w' => u' = u ∧ Via P L I w w' ∧ Overwrite L range w w' ∧
        (res = some (answer P (P.f1 ku (mdSlot L range i)) kv (mdSlot L range i)) ∧
            w'.mad = Function.update w.mad (mdSlot L range i) (P.f1 ku (mdSlot L range i)) ∧
            Called w'.log (mdSlot L range i) (P.f1 ku (mdSlot L range i)) kv ∧
            (∃ old, Called w'.log (mdSlot L range i) old ku) ∨
          res = none ∧ Stormy A))
      (fun w' => Via P L I w w' ∧ Overwrite L range w w' ∧ Stormy A) u w := by
  have hok : ∀ {w' : World} data, Overwrite L range w w' →
      ∀ c, MadOk P L w' c .arm (mdSlot L range i) data := fun data hs c =>
    .arm (hfree.congr hs.rmem) hi
  rw [armSlot, swp_bind]
  refine swp_mono (swp_overwrite (I := I) (by simp) hi (hok ku (.refl L range w))) ?_ fun _ h => h
  rintro res u₁ w₁ ⟨rfl, hvia₁, hspin₁, hlog₁, ⟨rfl, hmad₁⟩ | ⟨rfl, hst⟩⟩
  · simp only []
    rw [swp_bind]
    refine swp_mono (swp_overwrite (I := I) (by simp) hi (hok kv hspin₁)) ?_ ?_
    · rintro res u₂ w₂ ⟨rfl, hvia₂, hspin₂, hlog₂, ⟨rfl, hmad₂⟩ | ⟨rfl, hst⟩⟩
      · simp only []
        rw [swp_bind]
        have hspin₁₂ := hspin₁.trans hspin₂
        refine swp_mono (swp_overwrite (I := I) (by simp) hi (hok ku hspin₁₂)) ?_ ?_
        · rintro res u₃ w₃ ⟨rfl, hvia₃, hspin₃, -, ⟨rfl, hmad₃⟩ | ⟨rfl, hst⟩⟩
          · have hv : Called w₂.log (mdSlot L range i) (w₁.mad (mdSlot L range i)) kv :=
              called_note hlog₂
            have hu : Called w₁.log (mdSlot L range i) (w.mad (mdSlot L range i)) ku :=
              called_note hlog₁
            rw [hmad₁, Function.update_self] at hv
            refine ⟨rfl, hvia₁.trans (hvia₂.trans hvia₃), hspin₁₂.trans hspin₃, .inl ⟨?_, ?_,
              hv.mono hvia₃.log, _, hu.mono (hvia₂.trans hvia₃).log⟩⟩
            · rw [hmad₁, Function.update_self]
            · rw [hmad₃, hmad₂, hmad₁, Function.update_idem, Function.update_idem]
          · exact ⟨rfl, hvia₁.trans (hvia₂.trans hvia₃), hspin₁₂.trans hspin₃,
              .inr ⟨rfl, hst⟩⟩
        · rintro w₃ ⟨hvia₃, hspin₃, hst⟩
          exact ⟨hvia₁.trans (hvia₂.trans hvia₃), hspin₁₂.trans hspin₃, hst⟩
      · exact ⟨rfl, hvia₁.trans hvia₂, hspin₁.trans hspin₂, .inr ⟨rfl, hst⟩⟩
    · rintro w₂ ⟨hvia₂, hspin₂, hst⟩
      exact ⟨hvia₁.trans hvia₂, hspin₁.trans hspin₂, hst⟩
  · exact ⟨rfl, hvia₁, hspin₁, .inr ⟨rfl, hst⟩⟩

/-- One slot of a range that is being written, with its ciphertext. -/
structure Written (P : Prims) (L : Layout) (w : World) (range : ℕ) (s mat : Bytes)
    (ci : List Bytes) (i : ℕ) : Prop where
  ci : ci.getD i [] = xorBytes s (P.hmac (armedAnswer P s mat (mdSlot L range i)) mat)
  asked : Asked w.log (.hmac (armedAnswer P s mat (mdSlot L range i)) mat)
  called : Called w.log (mdSlot L range i) (P.f1 (keyU P s) (mdSlot L range i)) (pinKey P mat)
  armed : ∃ old, Called w.log (mdSlot L range i) old (keyU P s)
  mad : w.mad (mdSlot L range i) = P.f1 (keyU P s) (mdSlot L range i)

/-- What holds after a range has been written up to slot `n`. -/
structure WrittenTo (P : Prims) (L : Layout) (w : World) (range : ℕ) (s mat : Bytes)
    (ci : List Bytes) (n : ℕ) : Prop where
  length : ci.length = n
  ci_length : ∀ c ∈ ci, c.length = slotSize
  slot : ∀ i < n, Written P L w range s mat ci i

theorem swp_armRange (hL : L.Ok) {range : ℕ} {s mat : Bytes} (hs : s.length = 32)
    (hrange : range < L.ranges) (hfree : Free P L w range) :
    swp (chip P) A (armRange L range mat s (keyU P s) (pinKey P mat))
      (fun res u' w' => u' = u ∧ Via P L I w w' ∧ Overwrite L range w w' ∧
        match res with
        | some ci => WrittenTo P L w' range s mat ci L.rounds
        | none => Stormy A)
      (fun w' => Via P L I w w' ∧ Overwrite L range w w' ∧ Stormy A) u w := by
  rw [armRange]
  refine swp_mono (swp_loop
    (fun n ci u' w' => u' = u ∧ Via P L I w w' ∧ Overwrite L range w w' ∧
      WrittenTo P L w' range s mat ci n)
    (fun u' w' => u' = u ∧ Via P L I w w' ∧ Overwrite L range w w' ∧ Stormy A)
    ?_ ⟨rfl, .refl w, .refl L _ w, rfl, by simp, by simp⟩) ?_ fun _ h => h
  · rintro n ci u₁ w₁ hn ⟨rfl, hvia, hspin, hdone⟩
    rw [swp_bind]
    refine swp_mono (swp_armSlot (I := I) (hfree.congr hspin.rmem) hn) ?_ ?_
    · rintro res u₂ w₂ ⟨rfl, hvia₂, hspin₂, ⟨rfl, hmad, hv, hu⟩ | ⟨rfl, hst⟩⟩
      · simp only []
        rw [swp_bind]
        refine swp_slotXor ?_
        change _ ∧ _
        generalize hw₃ : w₂.note (.hmac (answer P (P.f1 (keyU P s) (mdSlot L range n))
          (pinKey P mat) (mdSlot L range n)) mat) = w₃
        have hlog : w₂.log <:+ w₃.log := by
          rw [← hw₃]
          exact List.suffix_cons _ _
        have hmad₃ : w₃.mad = w₂.mad := by rw [← hw₃]; rfl
        have hvia₃ : Via P L I w₂ w₃ := by
          rw [← hw₃]
          exact .of_keep fun c => .hmac _ _
        have hspin₃ : Overwrite L range w₂ w₃ := by
          rw [← hw₃]
          exact overwrite_note _ (by simp)
        have hasked : Asked w₃.log (.hmac (armedAnswer P s mat (mdSlot L range n)) mat) :=
          asked_note (by rw [← hw₃]; rfl)
        refine ⟨rfl, hvia.trans (hvia₂.trans hvia₃), hspin.trans (hspin₂.trans hspin₃),
          by simp [hdone.length], ?_, fun i hi => ?_⟩
        · intro c hc
          rcases List.mem_append.mp hc with hc | hc
          · exact hdone.ci_length c hc
          · obtain rfl := List.mem_singleton.mp hc
            rw [xorBytes_length (hs.trans (P.hmac_length _ _).symm), hs]
            rfl
        · by_cases hin : i = n
          · subst hin
            refine ⟨?_, hasked, hv.mono hlog, ?_, ?_⟩
            · rw [List.getD_append_right _ _ _ _ hdone.length.le]
              simp [hdone.length, armedAnswer]
            · obtain ⟨old, hold⟩ := hu
              exact ⟨old, hold.mono hlog⟩
            · rw [hmad₃, hmad, Function.update_self]
          · have h := hdone.slot i (by omega)
            have hne : mdSlot L range i ≠ mdSlot L range n := fun heq =>
              hin (mdSlot_inj hL hrange hrange (by omega) hn heq).2
            have hl := hvia₂.log.trans hlog
            refine ⟨?_, h.asked.mono hl, h.called.mono hl, ?_, ?_⟩
            · rw [List.getD_append _ _ _ _ (by rw [hdone.length]; omega)]
              exact h.ci
            · obtain ⟨old, hold⟩ := h.armed
              exact ⟨old, hold.mono hl⟩
            · rw [hmad₃, hmad, Function.update_of_ne hne]
              exact h.mad
      · exact ⟨rfl, hvia.trans hvia₂, hspin.trans hspin₂, hst⟩
    · rintro w₂ ⟨hvia₂, hspin₂, hst⟩
      exact ⟨hvia.trans hvia₂, hspin.trans hspin₂, hst⟩
  · rintro (_ | ci) u' w' ⟨rfl, hvia, hspin, h⟩
    · exact ⟨rfl, hvia, hspin, h⟩
    · exact ⟨rfl, hvia, hspin, h⟩

/-- A written range makes a binding. -/
theorem WrittenTo.made {range : ℕ} {s mat : Bytes} {ci : List Bytes}
    (h : WrittenTo P L w range s mat ci L.rounds) (hs : s.length = 32)
    (htag : Asked w.log (.hmac s [0x00])) (hu : Asked w.log (.hmac s [0x01]))
    (hv : Asked w.log (.hmac zeros mat)) (hrange : b.range = range) (hci : b.ci = ci)
    (hbtag : b.tag = keyTag P s) : Made P L w.log b s mat := by
  subst hrange hci
  exact ⟨hs, hbtag, fun i hi => (h.slot i hi).ci, htag, hu, hv,
    fun i hi => (h.slot i hi).asked, fun i hi => (h.slot i hi).called,
    fun i hi => (h.slot i hi).armed⟩

/-- The beginning of a setup: the keys, then the range. -/
theorem swp_armThen (hL : L.Ok) {range : ℕ} {s mat : Bytes}
    {K : Bytes → List Bytes → PairM Bool} {Q : Bool → Bool → World → Prop} {C : World → Prop}
    (hs : s.length = 32) (hrange : range < L.ranges) (hfree : Free P L w range)
    (hok : ∀ w' ci, Via P L I w w' → Overwrite L range w w' →
      WrittenTo P L w' range s mat ci L.rounds → Asked w'.log (.hmac s [0x00]) →
      Asked w'.log (.hmac s [0x01]) → Asked w'.log (.hmac zeros mat) →
      swp (chip P) A (K (keyTag P s) ci) Q C u w')
    (herr : ∀ w', Via P L I w w' → Overwrite L range w w' → Stormy A → Q false u w')
    (hcut : ∀ w', Via P L I w w' → Overwrite L range w w' → Stormy A → C w') :
    swp (chip P) A (do
      let tag ← kdf s 0x00
      let ku ← kdf s 0x01
      let v ← pinV mat
      match ← armRange L range mat s ku v with
      | none => pure false
      | some ci => K tag ci) Q C u w := by
  rw [swp_bind]
  refine swp_hmac ?_
  rw [swp_bind]
  refine swp_hmac ?_
  rw [swp_bind]
  refine swp_hmac ?_
  generalize hw₁ : ((w.note (.hmac s [0x00])).note (.hmac s [0x01])).note (.hmac zeros mat) = w₁
  have hvia₁ : Via P L I w w₁ := by
    rw [← hw₁]
    exact (Via.of_keep fun c => .hmac _ _).trans
      ((Via.of_keep fun c => .hmac _ _).trans (.of_keep fun c => .hmac _ _))
  have hspin₁ : Overwrite L range w w₁ := by
    rw [← hw₁]
    have hnote : ∀ (w : World) key msg, Overwrite L range w (w.note (.hmac key msg)) :=
      fun w _ _ => overwrite_note w (by simp)
    exact (hnote _ _ _).trans ((hnote _ _ _).trans (hnote _ _ _))
  have hask : Asked w₁.log (.hmac s [0x00]) ∧ Asked w₁.log (.hmac s [0x01]) ∧
      Asked w₁.log (.hmac zeros mat) := by
    rw [← hw₁]
    refine ⟨(asked_note rfl : Asked (w.note (.hmac s [0x00])).log _).mono ?_,
      (asked_note rfl : Asked ((w.note (.hmac s [0x00])).note (.hmac s [0x01])).log _).mono
        (List.suffix_cons _ _), asked_note rfl⟩
    exact (List.suffix_cons _ _).trans (List.suffix_cons _ _)
  change swp (chip P) A (armRange L range mat s (keyU P s) (pinKey P mat) >>= _) Q C u w₁
  rw [swp_bind]
  refine swp_mono (swp_armRange (I := I) hL hs hrange (hfree.congr hspin₁.rmem)) ?_ ?_
  · rintro (_ | ci) u₂ w₂ ⟨rfl, hvia₂, hspin₂, h⟩
    · exact herr w₂ (hvia₁.trans hvia₂) (hspin₁.trans hspin₂) h
    · exact hok w₂ ci (hvia₁.trans hvia₂) (hspin₁.trans hspin₂) h (hask.1.mono hvia₂.log)
        (hask.2.1.mono hvia₂.log) (hask.2.2.mono hvia₂.log)
  · rintro w₂ ⟨hvia₂, hspin₂, hst⟩
    exact hcut w₂ (hvia₁.trans hvia₂) (hspin₁.trans hspin₂) hst

/-- A binding that was set up for `s` and the material and never tried. -/
structure Installed (P : Prims) (L : Layout) (w : World) (g : ℕ) (b : Binding)
    (s mat : Bytes) (pinLen : UInt8) : Prop where
  kept : Kept P L w g b
  pending : b.retirePending = false
  next : b.next = 0
  pinLen : b.pinLen = pinLen
  made : Made P L w.log b s mat
  armed : Armed P L w.mad b.range 0 s

/-- `store` of the first binding. -/
theorem swp_store_first (hA : ∀ f, A f → f.leaves (Invalid P L.record)) (hL : L.Ok)
    {s mat : Bytes} (ho : Vacant P L w) (hwf : b.Wf L) (hrange : b.range = 0)
    (hp : b.retirePending = false) (hnext : b.next = 0) (hmade : Made P L w.log b s mat)
    (harmed : Armed P L w.mad 0 0 s) (hI : I w s mat) :
    swp (chip P) A (store P L b true)
      (fun ok u' w' => Touches L.record (fun _ => True) w w' ∧ Via P L I w w' ∧
        (ok = true ∧ u' = false ∧ Kept P L w' 1 b ∨
          ok = false ∧ (u = true ∨ Stormy A) ∧ (Vacant P L w' ∨ Now P L w' 1 b)))
      (fun w' => Touches L.record (fun _ => True) w w' ∧ Via P L I w w' ∧
        (Vacant P L w' ∨ Now P L w' 1 b)) u w := by
  have hlen : (bindingBytes b).length ≤ recPayloadMax :=
    (bindingBytes_length hwf).le.trans (bindLen_le hL)
  have hmid : ∀ {w' : World},
      Touches L.record (fun d => d = encode P L.record 1 (bindingBytes b)) w w' →
      Vacant P L w' ∨ Now P L w' 1 b →
      Touches L.record (fun _ => True) w w' ∧ Via P L I w w' := by
    intro w' ht h
    have hdata : Touches L.record (RecordOf L b) w w' := by
      refine ht.mono ?_
      rintro d rfl
      exact recordOf_encode hL hwf
    exact ⟨ht.mono fun _ _ => trivial,
      .of_step fun c => .first ho hrange hp hnext hmade harmed hI hdata h.symm⟩
  have hholds : ∀ {w' : World}, (Holds P L.record w.rmem none → Holds P L.record w'.rmem none ∨
      Holds P L.record w'.rmem (some (encode P L.record 1 (bindingBytes b)))) →
      Vacant P L w' ∨ Now P L w' 1 b := fun h =>
    (h ho).imp_right fun hnew => now_encode hL hwf (by omega) hnew
  simp only [store, if_true]
  rw [swp_bind]
  refine swp_mono (swp_recPairInit hA) ?_ ?_
  · rintro res u' w' ⟨ht, ⟨rfl, rfl, -, hm⟩ | ⟨rfl, hwhy, hmem⟩⟩
    · have hkept : Kept P L w' 1 b := kept_encode hL hwf (by omega) hm
      obtain ⟨h1, h2⟩ := hmid ht (.inr hkept.now)
      exact ⟨h1, h2, .inl ⟨rfl, rfl, hkept⟩⟩
    · obtain ⟨h1, h2⟩ := hmid ht (hholds hmem)
      refine ⟨h1, h2, .inr ⟨rfl, ?_, hholds hmem⟩⟩
      rcases hwhy with h | h | h
      · exact .inl h
      · exact .inr h
      · omega
  · rintro w' ⟨ht, -, hmem⟩
    obtain ⟨h1, h2⟩ := hmid ht (hholds hmem)
    exact ⟨h1, h2, hholds hmem⟩

/-- `setup_s` of the first binding. -/
theorem swp_install_first (hA : ∀ f, A f → f.leaves (Invalid P L.record)) (hL : L.Ok)
    {s mat : Bytes} {pinLen : UInt8} (hs : s.length = 32) (ho : Vacant P L w)
    (hI : ∀ w', Silent w w' → Vacant P L w' → I w' s mat) :
    swp (chip P) A (install P L none mat pinLen s)
      (fun ok u' w' => Via P L I w w' ∧
        (ok = true ∧ u' = false ∧ (∀ slot, ¬InRange L 0 slot → w'.mad slot = w.mad slot) ∧
            (∃ b, b.range = 0 ∧ Installed P L w' 1 b s mat pinLen) ∨
          ok = false ∧ (u = true ∨ Stormy A) ∧ (Vacant P L w' ∨ ∃ b, Now P L w' 1 b)))
      (fun w' => Via P L I w w' ∧ (Vacant P L w' ∨ ∃ b, Now P L w' 1 b)) u w := by
  have hrange : 0 < L.ranges := by
    rcases hL.ranges with h | h <;> omega
  rw [install, if_neg (by simp)]
  refine swp_armThen (I := I) hL hs hrange (.inl ⟨ho, rfl⟩) ?_ ?_ ?_
  · intro w₁ ci hvia hspin hw htag hu hv
    set b : Binding := ⟨0, false, 0, pinLen, keyTag P s, ci⟩ with hb
    have hmade : Made P L w₁.log b s mat := hw.made hs htag hu hv rfl rfl rfl
    have hwf : b.Wf L := ⟨hrange, nofun, Nat.zero_le _, P.hmac_length _ _, hw.length, hw.ci_length⟩
    have harmed : Armed P L w₁.mad 0 0 s := fun i _ hi => (hw.slot i hi).mad
    change swp (chip P) A (store P L b true >>= _) _ _ u w₁
    rw [swp_bind]
    refine swp_mono (swp_store_first (I := I) hA hL (ho.congr hspin.rmem) hwf rfl rfl rfl hmade
      harmed (hI w₁ hspin.silent (ho.congr hspin.rmem))) ?_ ?_
    · rintro ok u₂ w₂ ⟨ht, hvia₂, ⟨rfl, rfl, hkept⟩ | ⟨rfl, hwhy, hmem⟩⟩
      · refine ⟨hvia.trans hvia₂, .inl ⟨rfl, rfl, fun slot hslot => ?_, b, rfl, hkept, rfl, rfl,
          rfl, hmade.mono hvia₂.log, ?_⟩⟩
        · rw [ht.mad, hspin.mad slot hslot]
        · rw [ht.mad]
          exact harmed
      · exact ⟨hvia.trans hvia₂, .inr ⟨rfl, hwhy, hmem.imp_right fun h => ⟨b, h⟩⟩⟩
    · rintro w₂ ⟨-, hvia₂, hmem⟩
      exact ⟨hvia.trans hvia₂, hmem.imp_right fun h => ⟨b, h⟩⟩
  · exact fun w₁ hvia hspin hst =>
      ⟨hvia, .inr ⟨rfl, .inr hst, .inl (ho.congr hspin.rmem)⟩⟩
  · exact fun w₁ hvia hspin hst => ⟨hvia, .inl (ho.congr hspin.rmem)⟩

/-- The bindings that a setup over `b` passes through. -/
def Binding.Installs (b : Binding) (pinLen : UInt8) (b' : Binding) : Prop :=
  b' = b ∨ b'.range = 1 - b.range ∧ b'.next = 0 ∧ b'.pinLen = pinLen

/-- After `setup_s` over the binding both copies held. -/
def InstallPost (P : Prims) (A : Fate → Prop) (L : Layout)
    (I : World → Bytes → Bytes → Prop) (g : ℕ) (b : Binding) (s mat : Bytes)
    (pinLen : UInt8) (u : Bool) (w : World) (ok u' : Bool) (w' : World) : Prop :=
  Via P L I w w' ∧ Holding P L w' (g + 2) (b.Installs pinLen) ∧
    (ok = true ∧ u' = false ∧ L.ranges = 2 ∧ Retired P L w' b.range ∧
        (∃ b', b'.range = 1 - b.range ∧ Installed P L w' (g + 2) b' s mat pinLen) ∨
      ok = false ∧ (L.ranges < 2 ∨ u = true ∨ Stormy A ∨ uint32Max ≤ g + 1))

/-- The end of a setup over `b`: the commit of `b'`, the retirement of the old
range, and its record. -/
theorem swp_switch (hA : ∀ f, A f → f.leaves (Invalid P L.record)) (hL : L.Ok)
    (h2 : L.ranges = 2) {s mat : Bytes} {b' : Binding} {w₀ : World}
    (hvia₀ : Via P L I w₀ w) (hb : Kept P L w g b) (hp : b.retirePending = false)
    (hwf : b'.Wf L) (hrange : b'.range = 1 - b.range) (hpend : b'.retirePending = true)
    (hnext : b'.next = 0) (hmade : Made P L w.log b' s mat)
    (harmed : Armed P L w.mad b'.range 0 s) (hI : I w s mat) :
    swp (chip P) A (do
      if ← store P L b' false then
        if ← retire L b.range then store P L { b' with retirePending := false } false
        else pure false
      else pure false)
      (InstallPost P A L I g b s mat b'.pinLen u w₀)
      (fun w' => Via P L I w₀ w' ∧ Holding P L w' (g + 2) (b.Installs b'.pinLen)) u w := by
  have hbr := hb.now.wf.range
  have hold : 1 - b'.range = b.range := by omega
  have hne : b'.range ≠ b.range := by omega
  have hd : b'.debt = 1 := debt_of_pending hpend
  have hturn : Turn P L I w b b' false := .switched hp h2 hrange hnext hmade harmed hI
  have hmid : ∀ {w' : World}, Turning P L I g b b' w w' →
      Via P L I w₀ w' ∧ Holding P L w' (g + 2) (b.Installs b'.pinLen) := by
    rintro w' ⟨-, hvia, hnow⟩
    refine ⟨hvia₀.trans hvia, ?_⟩
    rcases hnow with h | h
    · exact holding_of_now h hp (by omega) (.inl rfl)
    · exact ⟨_, _, h, by omega, .inr ⟨hrange, hnext, rfl⟩⟩
  rw [swp_bind]
  refine swp_mono (swp_store (I := I) hA hL hb.now hwf hturn) ?_ ?_
  · rintro ok u₁ w₁ ⟨hturning, ⟨rfl, rfl, hkept₁, -⟩ | ⟨rfl, hwhy⟩⟩
    · simp only [if_true]
      have hvia₁ := (hmid hturning).1
      rw [swp_bind, ← hold]
      refine swp_mono (swp_retire (I := I) hL hkept₁.now hpend) ?_ ?_
      · rintro ok u₂ w₂ ⟨rfl, hvia₂, hspin, ⟨rfl, hret⟩ | ⟨rfl, hst⟩⟩
        · simp only [if_true]
          have hkept₂ : Kept P L w₂ (g + 1) b' := hkept₁.congr hspin.rmem
          have hwf' : b'.settled.Wf L :=
            ⟨hwf.range, nofun, hwf.next, hwf.tag, hwf.ci, hwf.ci_length⟩
          have harmed₂ : Armed P L w₂.mad b'.range 0 s := by
            intro i h0 hi
            have hout : ¬InRange L (1 - b'.range) (mdSlot L b'.range i) :=
              inRange_apart hL hwf.range (by omega) (by omega) ⟨i, hi, rfl⟩
            rw [hspin.mad _ hout, hturning.1.mad]
            exact harmed i h0 hi
          have hmid₂ : ∀ {w' : World}, Turning P L I (g + 1) b' b'.settled w₂ w' →
              Via P L I w₀ w' ∧ Holding P L w' (g + 2) (b.Installs b'.pinLen) := by
            rintro w' ⟨-, hvia, hnow⟩
            refine ⟨hvia₁.trans (hvia₂.trans hvia), ?_⟩
            rcases hnow with h | h
            · exact ⟨_, _, h, by omega, .inr ⟨hrange, hnext, rfl⟩⟩
            · exact ⟨_, _, h, by rw [debt_settled], .inr ⟨hrange, hnext, rfl⟩⟩
          refine swp_mono (swp_store (I := I) hA hL hkept₂.now hwf' (.settled hpend hret)) ?_ ?_
          · rintro ok u₃ w₃ ⟨hturning₃, ⟨rfl, rfl, hkept₃, -⟩ | ⟨rfl, hwhy⟩⟩
            · refine ⟨(hmid₂ hturning₃).1, (hmid₂ hturning₃).2, .inl ⟨rfl, rfl, h2, ?_,
                b'.settled, hrange, hkept₃, rfl, hnext, rfl, ?_, ?_⟩⟩
              · intro i hi
                obtain ⟨rnd, hm, hasked⟩ := hret i hi
                rw [hold] at hm hasked
                refine ⟨rnd, ?_, hasked.mono hturning₃.2.1.log⟩
                rw [hturning₃.1.mad]
                exact hm
              · have hm := hmade.mono (hturning.2.1.trans (hvia₂.trans hturning₃.2.1)).log
                exact ⟨hm.s_length, hm.tag, hm.ci, hm.asked_tag, hm.asked_u, hm.asked_v,
                  hm.asked_ci, hm.called, hm.armed⟩
              · rw [hturning₃.1.mad]
                exact harmed₂
            · refine ⟨(hmid₂ hturning₃).1, (hmid₂ hturning₃).2, .inr ⟨rfl, .inr ?_⟩⟩
              rcases hwhy with h | h | h
              · cases h
              · exact .inr (.inl h)
              · exact .inr (.inr h.ge)
          · rintro w₃ ⟨hturning₃, -⟩
            exact hmid₂ hturning₃
        · exact ⟨hvia₁.trans hvia₂, ⟨_, _, (hkept₁.congr hspin.rmem).now, by omega,
            .inr ⟨hrange, hnext, rfl⟩⟩, .inr ⟨rfl, .inr (.inr (.inl hst))⟩⟩
      · rintro w₂ ⟨hvia₂, hspin, -⟩
        exact ⟨hvia₁.trans hvia₂, _, _, (hkept₁.congr hspin.rmem).now, by omega,
          .inr ⟨hrange, hnext, rfl⟩⟩
    · refine ⟨(hmid hturning).1, (hmid hturning).2, .inr ⟨rfl, .inr ?_⟩⟩
      rcases hwhy with h | h | h
      · exact .inl h
      · exact .inr (.inl h)
      · exact .inr (.inr (by omega))
  · rintro w₁ ⟨hturning, -⟩
    exact hmid hturning

/-- `setup_s` over the binding both copies hold. -/
theorem swp_install_over (hA : ∀ f, A f → f.leaves (Invalid P L.record)) (hL : L.Ok)
    {s mat : Bytes} {pinLen : UInt8} (hs : s.length = 32) (hb : Kept P L w g b)
    (hp : b.retirePending = false) (hI : ∀ w', Silent w w' → Kept P L w' g b → I w' s mat) :
    swp (chip P) A (install P L (some b) mat pinLen s) (InstallPost P A L I g b s mat pinLen u w)
      (fun w' => Via P L I w w' ∧ Holding P L w' (g + 2) (b.Installs pinLen)) u w := by
  have hstay : ∀ {w' : World}, w'.rmem = w.rmem →
      Holding P L w' (g + 2) (b.Installs pinLen) := fun hr =>
    holding_of_now (hb.now.congr hr) hp (by omega) (.inl rfl)
  rw [install]
  split
  · rename_i hone
    exact ⟨.refl w, hstay rfl, .inr ⟨rfl, .inl hone.2⟩⟩
  · rename_i hone
    have h2 : L.ranges = 2 := by
      have hge : ¬L.ranges < 2 := fun h => hone ⟨rfl, h⟩
      rcases hL.ranges with h | h <;> omega
    have hbr := hb.now.wf.range
    have hrange : 1 - b.range < L.ranges := by omega
    have hfree : Free P L w (1 - b.range) := .inr ⟨g, b, hb.now, hp, h2, rfl⟩
    refine swp_armThen (I := I) hL hs hrange hfree ?_ ?_ ?_
    · intro w₁ ci hvia hspin hw htag hu hv
      have hwf : Binding.Wf L ⟨1 - b.range, true, 0, pinLen, keyTag P s, ci⟩ :=
        ⟨hrange, fun _ => h2, Nat.zero_le _, P.hmac_length _ _, hw.length, hw.ci_length⟩
      have hswitch := swp_switch (I := I) (u := u) hA hL h2 hvia (hb.congr hspin.rmem) hp hwf
        rfl rfl rfl (hw.made hs htag hu hv rfl rfl rfl)
        (fun i _ hi => (hw.slot i hi).mad) (hI w₁ hspin.silent (hb.congr hspin.rmem))
      exact hswitch
    · exact fun w₁ hvia hspin hst =>
        ⟨hvia, hstay hspin.rmem, .inr ⟨rfl, .inr (.inr (.inl hst))⟩⟩
    · exact fun w₁ hvia hspin _ => ⟨hvia, hstay hspin.rmem⟩

/-- The bindings that `setup_s` passes through on a pair that held `b`. -/
def Binding.Sets (b : Binding) (pinLen : UInt8) (b' : Binding) : Prop :=
  b' = b ∨ b' = b.settled ∨ b'.range = 1 - b.range ∧ b'.next = 0 ∧ b'.pinLen = pinLen

/-- After `setup_s` on a pair that held a binding. -/
def SetupPost (P : Prims) (A : Fate → Prop) (L : Layout)
    (I : World → Bytes → Bytes → Prop) (g : ℕ) (b : Binding) (s mat : Bytes)
    (pinLen : UInt8) (u : Bool) (w : World) (ok u' : Bool) (w' : World) : Prop :=
  Via P L I w w' ∧ Holding P L w' (g + b.debt + 2) (b.Sets pinLen) ∧
    (ok = true ∧ u' = false ∧ L.ranges = 2 ∧ Retired P L w' b.range ∧
        (∃ b', b'.range = 1 - b.range ∧ Installed P L w' (g + b.debt + 2) b' s mat pinLen) ∨
      ok = false ∧ (L.ranges < 2 ∨ u = true ∨ Stormy A ∨ uint32Max ≤ g + b.debt + 1))

theorem Settling.sets {w' : World} (h : Settling P L I g b w w') (pinLen : UInt8) :
    Holding P L w' (g + b.debt + 2) (b.Sets pinLen) := by
  refine h.holding.mono (by omega) ?_
  rintro b' (hs | hs)
  · exact .inl hs
  · exact .inr (.inl hs)

theorem swp_setupS (hA : ∀ f, A f → f.leaves (Invalid P L.record)) (hL : L.Ok)
    {s mat : Bytes} {pinLen : UInt8} (hs : s.length = 32) (hb : Now P L w g b)
    (hI : ∀ w', Silent w w' → Kept P L w' (g + b.debt) b.settled → I w' s mat) :
    swp (chip P) A (setupS P L mat pinLen s) (SetupPost P A L I g b s mat pinLen u w)
      (fun w' => Via P L I w w' ∧ Holding P L w' (g + b.debt + 2) (b.Sets pinLen)) u w := by
  rw [setupS, swp_bind]
  refine swp_mono (swp_settle (I := I) hA hL hb) ?_ ?_
  · rintro (b₁ | _ | _) u₁ w₁ ⟨hset, hst⟩
    · obtain ⟨rfl, rfl, hkept, -⟩ := hst
      have hmid : ∀ {w' : World}, Via P L I w₁ w' →
          Holding P L w' (g + b.debt + 2) (b.settled.Installs pinLen) →
          Via P L I w w' ∧ Holding P L w' (g + b.debt + 2) (b.Sets pinLen) := fun hvia hh =>
        ⟨hset.via.trans hvia, hh.mono le_rfl fun _ h => .inr h⟩
      refine swp_mono (swp_install_over (I := I) hA hL hs hkept rfl
        fun w' hw' => hI w' (hset.silent.trans hw')) ?_ ?_
      · rintro ok u₂ w₂ ⟨hvia, hh, hres⟩
        refine ⟨(hmid hvia hh).1, (hmid hvia hh).2, ?_⟩
        rcases hres with ⟨rfl, h⟩ | ⟨rfl, h | h | h⟩
        · exact .inl ⟨rfl, h⟩
        · exact .inr ⟨rfl, .inl h⟩
        · cases h
        · exact .inr ⟨rfl, .inr (.inr h)⟩
      · rintro w₂ ⟨hvia, hh⟩
        exact hmid hvia hh
    · exact hst.elim
    · refine ⟨hset.via, hset.sets pinLen, .inr ⟨rfl, .inr ?_⟩⟩
      rcases hst with h | h | ⟨hp, h⟩
      · exact .inl h
      · exact .inr (.inl h)
      · exact .inr (.inr (by omega))
  · rintro w₁ ⟨hset, -⟩
    exact ⟨hset.via, hset.sets pinLen⟩

theorem swp_setupS_vacant (hA : ∀ f, A f → f.leaves (Invalid P L.record)) (hL : L.Ok)
    {s mat : Bytes} {pinLen : UInt8} (hs : s.length = 32) (ho : Vacant P L w)
    (hI : ∀ w', Silent w w' → Vacant P L w' → I w' s mat) :
    swp (chip P) A (setupS P L mat pinLen s)
      (fun ok u' w' => Via P L I w w' ∧
        (ok = true ∧ u' = false ∧ (∀ slot, ¬InRange L 0 slot → w'.mad slot = w.mad slot) ∧
            (∃ b, b.range = 0 ∧ Installed P L w' 1 b s mat pinLen) ∨
          ok = false ∧ (u = true ∨ Stormy A ∨ ¬Blank P L.record w.rmem) ∧
            (Vacant P L w' ∨ ∃ b, Now P L w' 1 b)))
      (fun w' => Via P L I w w' ∧ (Vacant P L w' ∨ ∃ b, Now P L w' 1 b)) u w := by
  rw [setupS, swp_bind]
  refine swp_mono (swp_settle_vacant (I := I) hA ho) ?_ ?_
  · rintro (b₁ | _ | _) u₁ w₁ ⟨ht, hvia, hvac, hst⟩
    · exact hst.elim
    · refine swp_mono (swp_install_first (I := I) hA hL hs hvac
        fun w' hw' => hI w' (ht.silent.trans hw')) ?_ ?_
      · rintro ok u₂ w₂ ⟨hvia₂, hres⟩
        refine ⟨hvia.trans hvia₂, hres.imp ?_ ?_⟩
        · rintro ⟨hok, hu, hmad, h⟩
          exact ⟨hok, hu, fun slot hslot => by rw [hmad slot hslot, ht.mad], h⟩
        · rintro ⟨h, hwhy, h'⟩
          refine ⟨h, ?_, h'⟩
          rcases hwhy with hu | hst'
          · cases hst.symm.trans hu
          · exact .inr (.inl hst')
      · rintro w₂ ⟨hvia₂, h⟩
        exact ⟨hvia.trans hvia₂, h⟩
    · exact ⟨hvia, .inr ⟨rfl, hst, .inl hvac⟩⟩
  · rintro w₁ ⟨-, hvia, hvac⟩
    exact ⟨hvia, .inl hvac⟩

end Rules

end Nixtropic
