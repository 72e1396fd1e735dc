import Nixtropic.Tropic.RecPairDecision
import Nixtropic.Crash.Watch

/-!
`rec_pair_clear` and `rec_pair_init` stopped by a fault.

The two erases come before the two writes, copy B before copy A, and each
before it is proven. What a stopped call leaves is therefore the old record,
the new one, two empty slots, or scraps; and scraps only where a call was torn
while the other copy was empty already. The runs are watched for such a call.
-/

namespace Nixtropic

open Crash

/-- The call was torn, with a reply or by a loss of power. -/
def Fate.tears : Fate → Prop
  | .torn _ _ => True
  | .cutTorn _ => True
  | _ => False

/-- A call that changes the slot. -/
def Op.changes (slot : ℕ) : Op → Prop
  | .rmemErase s => s = slot
  | .rmemWrite s _ => s = slot
  | _ => False

/-- A change of one copy was torn while the other read empty. -/
def TornAlone (P : Prims) (p : RecPair) (f : Fate) (o : Op) (w : World) : Prop :=
  f.tears ∧ (o.changes p.slotA ∧ classify P p (w.rmem p.slotB) = .empty ∨
    o.changes p.slotB ∧ classify P p (w.rmem p.slotA) = .empty)

/-- The erases issued so far. -/
def erases (w : World) : ℕ :=
  w.log.countP fun e => match e.op with
    | .rmemErase _ => true
    | _ => false

theorem erases_note_erase (w : World) (slot : ℕ) :
    erases (w.note (.rmemErase slot)) = erases w + 1 := by
  simp [erases]

@[simp] theorem erases_note_read (w : World) (slot max : ℕ) :
    erases (w.note (.rmemRead slot max)) = erases w := by
  simp [erases]

@[simp] theorem erases_setR (w : World) (slot : ℕ) (c : RSlot) :
    erases (w.setR slot c) = erases w := rfl

theorem erases_le_note (w : World) (o : Op) : erases w ≤ erases (w.note o) := by
  simp only [erases, World.note_log, List.countP_cons]
  omega

section Watched

variable {P : Prims} {A : Fate → Prop} {p : RecPair} {u : Bool} {w : World} {g : Prop}
  {slot other : ℕ}

/-- The machine of the chip that notices a change torn while the other copy
was empty. -/
abbrev watched (P : Prims) (p : RecPair) : Machine Op Ret (World × Prop) Fate :=
  (chip P).watch (TornAlone P p)

/-- The two slots, in either order. -/
def RecPair.Sides (p : RecPair) (slot other : ℕ) : Prop :=
  slot = p.slotA ∧ other = p.slotB ∨ slot = p.slotB ∧ other = p.slotA

theorem RecPair.Sides.ne (h : p.Sides slot other) : other ≠ slot := by
  rcases h with ⟨rfl, rfl⟩ | ⟨rfl, rfl⟩
  · exact p.slots_ne.symm
  · exact p.slots_ne

/-- What an erase or a write may leave that did not come to its end: nothing,
or no record, and then `g` holds if the copy was `alone`. -/
def Scrap (P : Prims) (p : RecPair) (alone g : Prop) (c : RSlot) : Prop :=
  classify P p c = .empty ∨ Invalid P p c ∧ (alone → g)

theorem Scrap.mono {alone g g' : Prop} {c : RSlot} (h : Scrap P p alone g c) (hg : g → g') :
    Scrap P p alone g' c := h.imp_right fun h => ⟨h.1, hg ∘ h.2⟩

theorem Scrap.invalid {alone g : Prop} {c : RSlot} (h : Scrap P p alone g c) : Invalid P p c := by
  rcases h with h | h
  · intro r hr
    rw [h] at hr
    cases hr
  · exact h.1

theorem scrap_empty (alone g : Prop) : Scrap P p alone g .empty := .inl rfl

/-- A torn change of one copy leaves scraps. -/
theorem scrap_torn (hs : p.Sides slot other) {f : Fate} (hf : f.tears) {o : Op}
    (ho : o.changes slot) {left : RSlot} (hleft : Invalid P p left) :
    Scrap P p (classify P p (w.rmem other) = .empty) (g ∨ TornAlone P p f o w) left := by
  refine .inr ⟨hleft, fun hempty => .inr ⟨hf, ?_⟩⟩
  rcases hs with ⟨rfl, rfl⟩ | ⟨rfl, rfl⟩
  · exact .inl ⟨ho, hempty⟩
  · exact .inr ⟨ho, hempty⟩

/-- A watched erase: refused, done, or leaving scraps. -/
theorem swp_watched_erase (hA : ∀ f, A f → p.Faults P f) (hs : p.Sides slot other)
    {Q : Reply Unit → Bool → World × Prop → Prop} {C : World × Prop → Prop}
    (hQ : ∀ r c (g' : Prop), (g → g') →
      (c = w.rmem slot ∧ r = .error .other ∨
        Scrap P p (classify P p (w.rmem other) = .empty) g' c) →
      Q r u ((w.note (.rmemErase slot)).setR slot c, g'))
    (hC : ∀ c (g' : Prop), (g → g') →
      (c = w.rmem slot ∨ Scrap P p (classify P p (w.rmem other) = .empty) g' c) →
      C ((w.note (.rmemErase slot)).setR slot c, g')) :
    swp (watched P p) A (tropicRmemErase slot) Q C u (w, g) := by
  rw [tropicRmemErase]
  apply swp_watch_perform
  intro f hf
  have hsame : (w.note (.rmemErase slot)).setR slot (w.rmem slot) = w.note (.rmemErase slot) := by
    simp [World.setR, World.note]
  have hscrap := scrap_empty (P := P) (p := p) (classify P p (w.rmem other) = .empty)
  have hop : (Op.rmemErase slot).changes slot := rfl
  cases f with
  | none => exact hQ (.ok ()) .empty _ .inl (.inr (hscrap _))
  | fail =>
      have h := hQ (.error .other) (w.rmem slot) (g ∨ TornAlone P p .fail (.rmemErase slot) w)
        .inl (.inl ⟨rfl, rfl⟩)
      rw [hsame] at h
      exact h
  | lost => exact hQ (.error .other) .empty _ .inl (.inr (hscrap _))
  | torn left acked =>
      exact hQ _ left _ .inl (.inr (scrap_torn (f := .torn left acked) hs trivial hop (hA _ hf)))
  | cutBefore =>
      have h := hC (w.rmem slot) (g ∨ TornAlone P p .cutBefore (.rmemErase slot) w) .inl (.inl rfl)
      rw [hsame] at h
      exact h
  | cutAfter => exact hC .empty _ .inl (.inr (hscrap _))
  | cutTorn left =>
      exact hC left _ .inl (.inr (scrap_torn (f := .cutTorn left) hs trivial hop (hA _ hf)))

/-- A watched read. -/
theorem swp_watched_read {max : ℕ} {Q : Reply Bytes → Bool → World × Prop → Prop}
    {C : World × Prop → Prop}
    (hok : ∀ g' : Prop, (g → g') →
      Q ((w.rmem slot).read max) u (w.note (.rmemRead slot max), g'))
    (herr : ∀ g' : Prop, (g → g') → Q (.error .other) u (w.note (.rmemRead slot max), g'))
    (hC : ∀ g' : Prop, (g → g') → C (w.note (.rmemRead slot max), g')) :
    swp (watched P p) A (tropicRmemRead slot max) Q C u (w, g) := by
  rw [tropicRmemRead]
  apply swp_watch_perform
  intro f _
  cases f with
  | none => exact hok _ .inl
  | fail => exact herr _ .inl
  | lost => exact herr _ .inl
  | torn left acked => exact herr _ .inl
  | cutBefore => exact hC _ .inl
  | cutAfter => exact hC _ .inl
  | cutTorn left => exact hC _ .inl

/-- A watched write: refused, done, or leaving scraps. -/
theorem swp_watched_write (hA : ∀ f, A f → p.Faults P f) (hs : p.Sides slot other)
    {data : Bytes} {Q : Reply Unit → Bool → World × Prop → Prop} {C : World × Prop → Prop}
    (hQ : ∀ r c (g' : Prop), (g → g') →
      (c = w.rmem slot ∧ r = .error .other ∨ c = .data data ∨
        Scrap P p (classify P p (w.rmem other) = .empty) g' c) →
      Q r u ((w.note (.rmemWrite slot data)).setR slot c, g'))
    (hC : ∀ c (g' : Prop), (g → g') →
      (c = w.rmem slot ∨ c = .data data ∨
        Scrap P p (classify P p (w.rmem other) = .empty) g' c) →
      C ((w.note (.rmemWrite slot data)).setR slot c, g')) :
    swp (watched P p) A (tropicRmemWrite slot data) Q C u (w, g) := by
  rw [tropicRmemWrite]
  apply swp_watch_perform
  intro f hf
  have hsame : (w.note (.rmemWrite slot data)).setR slot (w.rmem slot) =
      w.note (.rmemWrite slot data) := by
    simp [World.setR, World.note]
  have hop : (Op.rmemWrite slot data).changes slot := rfl
  have hrefused : ∀ g' : Prop, (g → g') → Q (.error .other) u (w.note (.rmemWrite slot data), g') :=
    fun g' hg => hsame ▸ hQ (.error .other) (w.rmem slot) g' hg (.inl ⟨rfl, rfl⟩)
  have hcut : ∀ g' : Prop, (g → g') → C (w.note (.rmemWrite slot data), g') :=
    fun g' hg => hsame ▸ hC (w.rmem slot) g' hg (.inl rfl)
  have hdone : ∀ r (g' : Prop), (g → g') →
      Q r u ((w.note (.rmemWrite slot data)).setR slot (.data data), g') :=
    fun r g' hg => hQ r _ g' hg (.inr (.inl rfl))
  -- the write is carried out, or the chip refuses it
  by_cases hbad : data.length = 0 ∨ rmemSlotSize < data.length ∨ w.rmem slot ≠ .empty
  · have hexec : ∀ w' : World, w'.rmem = w.rmem →
        exec P (.rmemWrite slot data) w' = (.error .other, w') := by
      intro w' hw'
      rw [exec, hw', if_pos hbad]
    cases f with
    | none =>
        simp only [chip, act, hexec w rfl, hexec (w.note _) rfl]
        exact hrefused (_ ∨ _) .inl
    | fail => exact hrefused (_ ∨ _) .inl
    | lost =>
        simp only [chip, act, failed, hexec (w.note _) rfl]
        exact hrefused (_ ∨ _) .inl
    | torn left acked =>
        exact hQ _ left _ .inl
          (.inr (.inr (scrap_torn (f := .torn left acked) hs trivial hop (hA _ hf))))
    | cutBefore => exact hcut (_ ∨ _) .inl
    | cutAfter =>
        simp only [chip, act, hexec (w.note _) rfl]
        exact hcut (_ ∨ _) .inl
    | cutTorn left =>
        exact hC left _ .inl
          (.inr (.inr (scrap_torn (f := .cutTorn left) hs trivial hop (hA _ hf))))
  · have hexec : ∀ w' : World, w'.rmem = w.rmem →
        exec P (.rmemWrite slot data) w' = (.ok (), w'.setR slot (.data data)) := by
      intro w' hw'
      rw [exec, hw', if_neg hbad]
    cases f with
    | none =>
        simp only [chip, act, hexec w rfl, hexec (w.note _) rfl]
        exact hdone _ (_ ∨ _) .inl
    | fail => exact hrefused (_ ∨ _) .inl
    | lost =>
        simp only [chip, act, failed, hexec (w.note _) rfl]
        exact hdone _ (_ ∨ _) .inl
    | torn left acked =>
        exact hQ _ left _ .inl
          (.inr (.inr (scrap_torn (f := .torn left acked) hs trivial hop (hA _ hf))))
    | cutBefore => exact hcut (_ ∨ _) .inl
    | cutAfter =>
        simp only [chip, act, hexec (w.note _) rfl]
        exact hC _ (_ ∨ _) .inl (.inr (.inl rfl))
    | cutTorn left =>
        exact hC left _ .inl
          (.inr (.inr (scrap_torn (f := .cutTorn left) hs trivial hop (hA _ hf))))

/-- The slot now holds `c` and nothing else changed; an erase was issued. -/
structure Rewritten (slot : ℕ) (w : World) (g : Prop) (c : RSlot) (x : World × Prop) : Prop where
  rmem : x.1.rmem = Function.update w.rmem slot c
  keeps : g → x.2
  erased : erases w + 1 ≤ erases x.1

theorem Rewritten.erase (slot : ℕ) (w : World) {g g' : Prop} (hg : g → g') (c : RSlot) :
    Rewritten slot w g c ((w.note (.rmemErase slot)).setR slot c, g') := by
  refine ⟨rfl, hg, ?_⟩
  show erases w + 1 ≤ erases ((w.note (.rmemErase slot)).setR slot c)
  rw [erases_setR, erases_note_erase]

theorem Rewritten.read {slot max : ℕ} {w w₁ : World} {g g₁ g' : Prop} {c : RSlot}
    (h : Rewritten slot w g c (w₁, g₁)) (hg : g₁ → g') :
    Rewritten slot w g c (w₁.note (.rmemRead slot max), g') :=
  ⟨h.rmem, hg ∘ h.keeps, h.erased.trans (erases_le_note w₁ _)⟩

theorem Rewritten.write {slot : ℕ} {data : Bytes} {w w₁ : World} {g g₁ g' : Prop} {c : RSlot}
    (h : Rewritten slot w g c (w₁, g₁)) (hg : g₁ → g') (c' : RSlot) :
    Rewritten slot w g c' ((w₁.note (.rmemWrite slot data)).setR slot c', g') := by
  refine ⟨?_, hg ∘ h.keeps, ?_⟩
  · have hr : w₁.rmem = Function.update w.rmem slot c := h.rmem
    show Function.update w₁.rmem slot c' = _
    rw [hr, Function.update_idem]
  · have hle := erases_le_note w₁ (.rmemWrite slot data)
    exact h.erased.trans hle

/-- A copy is proven empty, or is as it was, or scraps. -/
def EraseWatched (P : Prims) (p : RecPair) (slot other : ℕ) (u : Bool) (w : World) (g : Prop)
    (ok u' : Bool) (x : World × Prop) : Prop :=
  u' = u ∧ ∃ c, Rewritten slot w g c x ∧ (ok = true ∧ classify P p c = .empty ∨
    ok = false ∧ (c = w.rmem slot ∨ Scrap P p (classify P p (w.rmem other) = .empty) x.2 c))

def EraseWatchedCut (P : Prims) (p : RecPair) (slot other : ℕ) (w : World) (g : Prop)
    (x : World × Prop) : Prop :=
  ∃ c, Rewritten slot w g c x ∧
    (c = w.rmem slot ∨ Scrap P p (classify P p (w.rmem other) = .empty) x.2 c)

theorem swp_watched_eraseChecked (hA : ∀ f, A f → p.Faults P f) (hs : p.Sides slot other) :
    swp (watched P p) A (eraseChecked slot)
      (EraseWatched P p slot other u w g) (EraseWatchedCut P p slot other w g) u (w, g) := by
  have back : ∀ c (g₁ : Prop), (g → g₁) →
      Scrap P p (classify P p (w.rmem other) = .empty) g₁ c →
      swp (watched P p) A (readsEmpty slot)
      (EraseWatched P p slot other u w g) (EraseWatchedCut P p slot other w g) u
      ((w.note (.rmemErase slot)).setR slot c, g₁) := by
    intro c g₁ hg hc
    have hrw := Rewritten.erase slot w hg c
    rw [readsEmpty, swp_bind]
    apply swp_watched_read
    · intro g' hg'
      have hslot : ((w.note (.rmemErase slot)).setR slot c).rmem slot = c := by simp
      rw [hslot]
      cases hread : c.read slotMax with
      | error e =>
          cases e with
          | slotEmpty => exact ⟨rfl, c, hrw.read hg', .inl ⟨rfl, by simp [classify, hread]⟩⟩
          | other => exact ⟨rfl, c, hrw.read hg', .inr ⟨rfl, .inr (hc.mono hg')⟩⟩
      | ok got =>
          by_cases hlen : got.length = 0
          · exact ⟨rfl, c, hrw.read hg',
              .inl ⟨decide_eq_true hlen, by simp [classify, hread, hlen]⟩⟩
          · exact ⟨rfl, c, hrw.read hg', .inr ⟨decide_eq_false hlen, .inr (hc.mono hg')⟩⟩
    · exact fun g' hg' => ⟨rfl, c, hrw.read hg', .inr ⟨rfl, .inr (hc.mono hg')⟩⟩
    · exact fun g' hg' => ⟨c, hrw.read hg', .inr (hc.mono hg')⟩
  rw [eraseChecked, swp_bind]
  apply swp_watched_erase hA hs
  · intro r c g₁ hg hc
    cases r with
    | ok _ =>
        rcases hc with ⟨-, hr⟩ | hc
        · cases hr
        · exact back c g₁ hg hc
    | error _ => exact ⟨rfl, c, .erase slot w hg c, .inr ⟨rfl, hc.imp_left And.left⟩⟩
  · exact fun c g₁ hg hc => ⟨c, .erase slot w hg c, hc⟩

/-- A copy is proven to hold the record, or holds it unproven, or is as it was,
or scraps. -/
def CommitWatched (P : Prims) (p : RecPair) (slot other : ℕ) (r : Bytes) (u : Bool) (w : World)
    (g : Prop) (ok u' : Bool) (x : World × Prop) : Prop :=
  u' = u ∧ ∃ c, Rewritten slot w g c x ∧ (ok = true ∧ c = .data r ∨ ok = false ∧
    (c = w.rmem slot ∨ c = .data r ∨ Scrap P p (classify P p (w.rmem other) = .empty) x.2 c))

def CommitWatchedCut (P : Prims) (p : RecPair) (slot other : ℕ) (r : Bytes) (w : World)
    (g : Prop) (x : World × Prop) : Prop :=
  ∃ c, Rewritten slot w g c x ∧ (c = w.rmem slot ∨ c = .data r ∨
    Scrap P p (classify P p (w.rmem other) = .empty) x.2 c)

theorem swp_watched_readsBack {r : Bytes} (hr : valid P p r = true) {w₂ : World} {c : RSlot}
    {g₂ : Prop} (hrw : Rewritten slot w g c (w₂, g₂))
    (hc : c = .data r ∨ Scrap P p (classify P p (w.rmem other) = .empty) g₂ c) :
    swp (watched P p) A (readsBack slot r)
      (CommitWatched P p slot other r u w g) (CommitWatchedCut P p slot other r w g) u
      (w₂, g₂) := by
  have hleft : ∀ g' : Prop, (g₂ → g') →
      c = w.rmem slot ∨ c = .data r ∨ Scrap P p (classify P p (w.rmem other) = .empty) g' c :=
    fun g' hg' => .inr (hc.imp_right fun h => h.mono hg')
  rw [readsBack, swp_bind]
  apply swp_watched_read
  · intro g' hg'
    have hslot : w₂.rmem slot = c := by
      have h : w₂.rmem = Function.update w.rmem slot c := hrw.rmem
      rw [h, Function.update_self]
    rw [hslot]
    cases hread : c.read slotMax with
    | error e => exact ⟨rfl, c, hrw.read hg', .inr ⟨rfl, hleft g' hg'⟩⟩
    | ok got =>
        by_cases hgot : got = r
        · rw [hgot] at hread
          exact ⟨rfl, c, hrw.read hg', .inl ⟨decide_eq_true hgot, data_of_read hr hread⟩⟩
        · exact ⟨rfl, c, hrw.read hg', .inr ⟨decide_eq_false hgot, hleft g' hg'⟩⟩
  · exact fun g' hg' => ⟨rfl, c, hrw.read hg', .inr ⟨rfl, hleft g' hg'⟩⟩
  · exact fun g' hg' => ⟨c, hrw.read hg', hleft g' hg'⟩

theorem swp_watched_writesBack (hA : ∀ f, A f → p.Faults P f) (hs : p.Sides slot other)
    {r : Bytes} (hr : valid P p r = true) {w₁ : World} {c : RSlot} {g₁ : Prop}
    (hrw : Rewritten slot w g c (w₁, g₁))
    (hc : Scrap P p (classify P p (w.rmem other) = .empty) g₁ c) :
    swp (watched P p) A (writesBack slot r)
      (CommitWatched P p slot other r u w g) (CommitWatchedCut P p slot other r w g) u
      (w₁, g₁) := by
  have hrm : w₁.rmem = Function.update w.rmem slot c := hrw.rmem
  have hslot : w₁.rmem slot = c := by rw [hrm, Function.update_self]
  have hother : w₁.rmem other = w.rmem other := by rw [hrm, Function.update_of_ne hs.ne]
  rw [writesBack, swp_bind]
  apply swp_watched_write hA hs
  · intro res c' g' hg' hc'
    rw [hother, hslot] at hc'
    have hrw' : Rewritten slot w g c' ((w₁.note (.rmemWrite slot r)).setR slot c', g') :=
      hrw.write hg' c'
    cases res with
    | ok _ =>
        rcases hc' with ⟨-, hres⟩ | hc'
        · cases hres
        · exact swp_watched_readsBack hr hrw' hc'
    | error _ =>
        refine ⟨rfl, c', hrw', .inr ⟨rfl, .inr ?_⟩⟩
        rcases hc' with ⟨rfl, -⟩ | hc'
        · exact .inr (hc.mono hg')
        · exact hc'
  · intro c' g' hg' hc'
    rw [hother, hslot] at hc'
    refine ⟨c', hrw.write hg' c', .inr ?_⟩
    rcases hc' with rfl | hc'
    · exact .inr (hc.mono hg')
    · exact hc'

theorem swp_watched_commitCopy (hA : ∀ f, A f → p.Faults P f) (hs : p.Sides slot other)
    {r : Bytes} (hr : valid P p r = true) :
    swp (watched P p) A (commitCopy slot r)
      (CommitWatched P p slot other r u w g) (CommitWatchedCut P p slot other r w g) u (w, g) := by
  rw [commitCopy, swp_bind]
  apply swp_watched_erase hA hs
  · intro res c g₁ hg hc
    cases res with
    | ok _ =>
        rcases hc with ⟨-, hres⟩ | hc
        · cases hres
        · exact swp_watched_writesBack hA hs hr (.erase slot w hg c) hc
    | error _ =>
        refine ⟨rfl, c, .erase slot w hg c, .inr ⟨rfl, ?_⟩⟩
        rcases hc with ⟨rfl, -⟩ | hc
        · exact .inl rfl
        · exact .inr (.inr hc)
  · intro c g₁ hg hc
    exact ⟨c, .erase slot w hg c, hc.imp_right .inr⟩

/-! ### Clear and init -/

/-- The state a successful read leaves: both copies read empty, or both hold
the record. -/
def Rests (P : Prims) (p : RecPair) (R : ℕ → RSlot) : Option Bytes → Prop
  | none => Blank P p R
  | some r => Mirrored P p R r

/-- What a stopped clear leaves. Copy A is touched only by the second erase,
and then copy B has been proven empty. -/
def ClearLeft (P : Prims) (p : RecPair) (w : World) (x : World × Prop) : Prop :=
  x.1.rmem p.slotA = w.rmem p.slotA ∧ (x.1.rmem p.slotB = w.rmem p.slotB ∨
      Scrap P p (classify P p (w.rmem p.slotA) = .empty) x.2 (x.1.rmem p.slotB)) ∨
    erases w + 2 ≤ erases x.1 ∧ classify P p (x.1.rmem p.slotB) = .empty ∧
      (x.1.rmem p.slotA = w.rmem p.slotA ∨ Scrap P p True x.2 (x.1.rmem p.slotA))

/-- The old record, if there was one, or two empty slots, or no record after a
call torn while the other copy was empty. -/
def Outlived (P : Prims) (p : RecPair) (o : Option Bytes) (x : World × Prop) : Prop :=
  (∃ r, o = some r ∧ Current P p x.1.rmem r) ∨ Blank P p x.1.rmem ∨
    Holds P p x.1.rmem none ∧ x.2

theorem invalid_of_empty {c : RSlot} (h : classify P p c = .empty) : Invalid P p c := by
  intro r hr
  rw [h] at hr
  cases hr

theorem Blank.invalid {R : ℕ → RSlot} (h : Blank P p R) : Holds P p R none :=
  ⟨invalid_of_empty h.1, invalid_of_empty h.2⟩

/-- Scraps beside an empty copy. -/
theorem Scrap.outlived_a {o : Option Bytes} {x : World × Prop}
    (h : Scrap P p True x.2 (x.1.rmem p.slotA)) (hb : classify P p (x.1.rmem p.slotB) = .empty) :
    Outlived P p o x := by
  rcases h with ha | ⟨ha, hg⟩
  · exact .inr (.inl ⟨ha, hb⟩)
  · exact .inr (.inr ⟨⟨ha, invalid_of_empty hb⟩, hg trivial⟩)

theorem ClearLeft.outlived {o : Option Bytes} {x : World × Prop} (h : ClearLeft P p w x)
    (ho : Rests P p w.rmem o) : Outlived P p o x := by
  cases o with
  | none =>
      obtain ⟨ha, hb⟩ := ho
      rcases h with ⟨ha', hb'⟩ | ⟨-, hb', ha'⟩
      · rw [← ha'] at ha
        rcases hb' with hb' | hb' | ⟨hb', hg⟩
        · exact .inr (.inl ⟨ha, hb' ▸ hb⟩)
        · exact .inr (.inl ⟨ha, hb'⟩)
        · exact .inr (.inr ⟨⟨invalid_of_empty ha, hb'⟩, hg (ha' ▸ ha)⟩)
      · rcases ha' with ha' | ha'
        · exact .inr (.inl ⟨ha' ▸ ha, hb'⟩)
        · exact ha'.outlived_a hb'
  | some r =>
      have hm : Mirrored P p w.rmem r := ho
      rcases h with ⟨ha', hb'⟩ | ⟨-, hb', ha'⟩
      · refine .inl ⟨r, rfl, current_iff.mpr ⟨hm.valid, .inl ⟨ha'.trans hm.a, ?_⟩⟩⟩
        rcases hb' with hb' | hb'
        · exact .inl (hb'.trans hm.b)
        · exact .inr (.inl hb'.invalid)
      · rcases ha' with ha' | ha'
        · exact .inl ⟨r, rfl, current_iff.mpr
            ⟨hm.valid, .inl ⟨ha'.trans hm.a, .inr (.inl (invalid_of_empty hb'))⟩⟩⟩
        · exact ha'.outlived_a hb'

/-- Before the second erase is issued, nothing is lost. -/
theorem ClearLeft.current {r : Bytes} {x : World × Prop} (h : ClearLeft P p w x)
    (hm : Mirrored P p w.rmem r) (her : erases x.1 < erases w + 2) : Current P p x.1.rmem r := by
  rcases h with ⟨ha', hb'⟩ | ⟨her', -⟩
  · refine current_iff.mpr ⟨hm.valid, .inl ⟨ha'.trans hm.a, ?_⟩⟩
    rcases hb' with hb' | hb'
    · exact .inl (hb'.trans hm.b)
    · exact .inr (.inl hb'.invalid)
  · omega

/-- A watched clear. -/
theorem swp_watched_clear (hA : ∀ f, A f → p.Faults P f) :
    swp (watched P p) A (recPairClear p)
      (fun res _ x => res = .ok ∧ Blank P p x.1.rmem ∧ erases w + 2 ≤ erases x.1 ∨
        res ≠ .ok ∧ ClearLeft P p w x)
      (ClearLeft P p w) u (w, False) := by
  have hne := p.slots_ne
  have hfirst : ∀ {c : RSlot} {x : World × Prop}, Rewritten p.slotB w False c x →
      (c = w.rmem p.slotB ∨ Scrap P p (classify P p (w.rmem p.slotA) = .empty) x.2 c) →
      ClearLeft P p w x := by
    intro c x hrw hc
    left
    rw [hrw.rmem, Function.update_of_ne hne, Function.update_self]
    exact ⟨rfl, hc⟩
  rw [recPairClear, swp_bind, swp_get]
  cases u with
  | true => exact .inr ⟨(fun h => by cases h), .inl ⟨rfl, .inl rfl⟩⟩
  | false =>
      simp only [Bool.false_eq_true, if_false]
      rw [swp_bind]
      apply swp_mono (swp_watched_eraseChecked hA (.inr ⟨rfl, rfl⟩))
      · rintro ok u₁ ⟨w₁, g₁⟩ ⟨-, b, hrw, ⟨rfl, hb⟩ | ⟨rfl, hb⟩⟩
        · simp only [if_true]
          -- copy B is proven empty; copy A is still there
          have hrm : w₁.rmem = Function.update w.rmem p.slotB b := hrw.rmem
          have her : erases w + 1 ≤ erases w₁ := hrw.erased
          have ha₁ : w₁.rmem p.slotA = w.rmem p.slotA := by
            rw [hrm, Function.update_of_ne hne]
          have hb₁ : classify P p (w₁.rmem p.slotB) = .empty := by
            rw [hrm, Function.update_self]
            exact hb
          have hsecond : ∀ {c : RSlot} {x : World × Prop}, Rewritten p.slotA w₁ g₁ c x →
              (c = w₁.rmem p.slotA ∨
                Scrap P p (classify P p (w₁.rmem p.slotB) = .empty) x.2 c) →
              ClearLeft P p w x := by
            intro c x hrw' hc
            right
            have her' := hrw'.erased
            rw [hrw'.rmem, Function.update_of_ne hne.symm, Function.update_self]
            refine ⟨by omega, hb₁, ?_⟩
            rcases hc with hc | hc
            · exact .inl (hc.trans ha₁)
            · exact .inr (hc.imp_right fun h => ⟨h.1, fun _ => h.2 hb₁⟩)
          rw [swp_bind]
          apply swp_mono (swp_watched_eraseChecked hA (.inl ⟨rfl, rfl⟩))
          · rintro ok u₂ ⟨w₂, g₂⟩ ⟨-, a, hrw', ⟨rfl, ha⟩ | ⟨rfl, ha⟩⟩
            · left
              have hrm' : w₂.rmem = Function.update w₁.rmem p.slotA a := hrw'.rmem
              have her' : erases w₁ + 1 ≤ erases w₂ := hrw'.erased
              refine ⟨rfl, ⟨?_, ?_⟩, by show _ ≤ erases w₂; omega⟩
              · show classify P p (w₂.rmem p.slotA) = .empty
                rw [hrm', Function.update_self]
                exact ha
              · show classify P p (w₂.rmem p.slotB) = .empty
                rw [hrm', Function.update_of_ne hne.symm]
                exact hb₁
            · exact .inr ⟨(fun h => by cases h), hsecond hrw' ha⟩
          · rintro x ⟨a, hrw', ha⟩
            exact hsecond hrw' ha
        · exact .inr ⟨(fun h => by cases h), hfirst hrw hb⟩
      · rintro x ⟨b, hrw, hb⟩
        exact hfirst hrw hb

/-- A watched write of a record into two empty slots. -/
theorem swp_watched_commitBoth (hA : ∀ f, A f → p.Faults P f) {gen : ℕ} {payload : Bytes}
    (hnew : valid P p (encode P p gen payload) = true) (hblank : Blank P p w.rmem) :
    swp (watched P p) A (commitBoth P p gen payload)
      (fun _ _ x => Outlived P p (some (encode P p gen payload)) x ∧ erases w ≤ erases x.1)
      (fun x => Outlived P p (some (encode P p gen payload)) x ∧ erases w ≤ erases x.1)
      u (w, g) := by
  rw [commitBoth, swp_bind]
  generalize encode P p gen payload = new at hnew ⊢
  have hne := p.slots_ne
  have hfirst : ∀ {c : RSlot} {x : World × Prop}, Rewritten p.slotA w g c x →
      (c = w.rmem p.slotA ∨ c = .data new ∨
        Scrap P p (classify P p (w.rmem p.slotB) = .empty) x.2 c) →
      Outlived P p (some new) x ∧ erases w ≤ erases x.1 := by
    intro c x hrw hc
    have hle := hrw.erased
    refine ⟨?_, by omega⟩
    have ha : x.1.rmem p.slotA = c := by rw [hrw.rmem, Function.update_self]
    have hb : classify P p (x.1.rmem p.slotB) = .empty := by
      rw [hrw.rmem, Function.update_of_ne hne.symm]
      exact hblank.2
    rcases hc with rfl | rfl | hc
    · exact .inr (.inl ⟨ha ▸ hblank.1, hb⟩)
    · exact .inl ⟨new, rfl, current_iff.mpr ⟨hnew, .inl ⟨ha, .inr (.inl (invalid_of_empty hb))⟩⟩⟩
    · have hscrap : Scrap P p True x.2 (x.1.rmem p.slotA) := by
        rw [ha]
        exact hc.imp_right fun h => ⟨h.1, fun _ => h.2 hblank.2⟩
      exact hscrap.outlived_a hb
  apply swp_mono (swp_watched_commitCopy hA (.inl ⟨rfl, rfl⟩) hnew)
  · rintro ok u₁ ⟨w₁, g₁⟩ ⟨-, a, hrw, ⟨rfl, rfl⟩ | ⟨rfl, hc⟩⟩
    · simp only [if_true]
      -- copy A holds the record; whatever copy B comes to hold is behind it
      have hrm : w₁.rmem = Function.update w.rmem p.slotA (.data new) := hrw.rmem
      have her : erases w + 1 ≤ erases w₁ := hrw.erased
      have hb₁ : Invalid P p (w₁.rmem p.slotB) := by
        rw [hrm, Function.update_of_ne hne.symm]
        exact invalid_of_empty hblank.2
      have hsecond : ∀ {c : RSlot} {x : World × Prop}, Rewritten p.slotB w₁ g₁ c x →
          (c = .data new ∨ Invalid P p c) →
          Outlived P p (some new) x ∧ erases w ≤ erases x.1 := by
        intro c x hrw' hc
        have hle := hrw'.erased
        refine ⟨.inl ⟨new, rfl, current_iff.mpr ⟨hnew, .inl ⟨?_, ?_⟩⟩⟩, by omega⟩
        · rw [hrw'.rmem, Function.update_of_ne hne, hrm, Function.update_self]
        · rw [hrw'.rmem, Function.update_self]
          exact hc.imp_right .inl
      have hleft : ∀ {c : RSlot} {alone g' : Prop}, (c = w₁.rmem p.slotB ∨ c = .data new ∨
          Scrap P p alone g' c) → c = .data new ∨ Invalid P p c := by
        rintro c alone g' (rfl | hc | hc)
        · exact .inr hb₁
        · exact .inl hc
        · exact .inr hc.invalid
      rw [swp_bind]
      apply swp_mono (swp_watched_commitCopy hA (.inr ⟨rfl, rfl⟩) hnew)
      · rintro ok u₂ x ⟨-, b, hrw', ⟨rfl, hb⟩ | ⟨rfl, hb⟩⟩
        · exact hsecond hrw' (.inl hb)
        · exact hsecond hrw' (hleft hb)
      · rintro x ⟨b, hrw', hb⟩
        exact hsecond hrw' (hleft hb)
    · exact hfirst hrw hc
  · rintro x ⟨a, hrw, hc⟩
    exact hfirst hrw hc

/-- What a stopped init leaves: what a stopped clear does, or, both erases
having been issued, the new record, two empty slots or scraps. -/
def InitLeft (P : Prims) (p : RecPair) (new : Bytes) (w : World) (x : World × Prop) : Prop :=
  ClearLeft P p w x ∨ erases w + 2 ≤ erases x.1 ∧ Outlived P p (some new) x

theorem swp_watched_init (hA : ∀ f, A f → p.Faults P f) {payload : Bytes}
    (hlen : payload.length ≤ recPayloadMax) :
    swp (watched P p) A (recPairInit P p payload)
      (fun _ _ x => InitLeft P p (encode P p 1 payload) w x)
      (InitLeft P p (encode P p 1 payload) w) u (w, False) := by
  have hbad : badArgs payload = false := by
    simpa [badArgs] using hlen
  have hnew : valid P p (encode P p 1 payload) = true :=
    valid_encode P p one_ne_zero (by omega) hlen
  rw [recPairInit, hbad]
  simp only [Bool.false_eq_true, if_false]
  rw [swp_bind]
  apply swp_mono (swp_watched_clear hA) _ fun x h => .inl h
  rintro res u₁ ⟨w₁, g₁⟩ (⟨rfl, hblank, her⟩ | ⟨hres, hleft⟩)
  · have her₁ : erases w + 2 ≤ erases w₁ := her
    apply swp_mono (swp_watched_commitBoth hA hnew hblank)
    · rintro res u₂ x ⟨hout, hle⟩
      exact .inr ⟨by omega, hout⟩
    · rintro x ⟨hout, hle⟩
      exact .inr ⟨by omega, hout⟩
  · cases res with
    | ok => exact absurd rfl hres
    | _ => exact .inl hleft

end Watched

/-! ### After the reboot -/

/-- What an undisturbed read answers after a reboot. -/
def ReadsAs (P : Prims) (p : RecPair) (max : Option ℕ) (w : World) (res : RecRead) : Prop :=
  ∃ w', run (chip P) ((recPairRead P p max).run false) [] w = .done (res, false) w'

/-- What a read of a resting pair answers. -/
def stored : Option Bytes → RecRead
  | none => .absent
  | some r => .ok (payloadOf r) (genOf r)

/-- A call started in `w` was stopped in `w'`: the object reads as before, as
after, absent, or corrupt where the run `struck`; and before the second erase
was issued nothing was lost. -/
structure Recovers (P : Prims) (p : RecPair) (max : Option ℕ) (o : Option Bytes)
    (after : RecRead) (struck : Prop) (w w' : World) : Prop where
  reads : ReadsAs P p max w' (stored o) ∨ ReadsAs P p max w' after ∨
    ReadsAs P p max w' .absent ∨ ReadsAs P p max w' .corrupt ∧ struck
  kept : erases w' < erases w + 2 → ∀ r, o = some r →
    ReadsAs P p max w' (.ok (payloadOf r) (genOf r))

section Reboot

variable {P : Prims} {p : RecPair} {max : Option ℕ} {w : World}

theorem readsAs_current (hmax : ∀ m ∈ max, recPayloadMax ≤ m) {r : Bytes}
    (h : Current P p w.rmem r) : ReadsAs P p max w (.ok (payloadOf r) (genOf r)) := by
  obtain ⟨w', hw', -⟩ := reads_current hmax h
  exact ⟨w', hw'⟩

/-- Without a record a pair reads absent, or corrupt if a slot is not empty. -/
theorem readsAs_none (h : Holds P p w.rmem none) :
    ReadsAs P p max w .absent ∨ ReadsAs P p max w .corrupt ∧ ¬Blank P p w.rmem := by
  have hpost : (run (chip P) ((recPairRead P p max).run false) [] w).Satisfies _ _ :=
    run_among (swp_recPairRead (among_nil_leaves (J := Invalid P p)) h)
  simp only [ReadsAs]
  generalize run (chip P) ((recPairRead P p max).run false) [] w = out at hpost ⊢
  rcases out with ⟨⟨res, u'⟩, w'⟩ | w'
  · obtain ⟨-, -, hres⟩ := hpost
    cases res with
    | ok payload gen =>
        obtain ⟨-, r, hr, -⟩ := hres
        cases hr
    | absent =>
        obtain ⟨rfl, -⟩ := hres
        exact .inl ⟨w', rfl⟩
    | corrupt =>
        obtain ⟨rfl, -, hblank⟩ := hres
        exact .inr ⟨⟨w', rfl⟩, hblank⟩
    | error =>
        rcases hres with hu | hst | ⟨r, hr, -⟩
        · cases hu
        · exact absurd hst not_stormy_nil
        · cases hr
  · exact absurd hpost.2.2 not_stormy_nil

theorem readsAs_blank (h : Blank P p w.rmem) : ReadsAs P p max w .absent :=
  (readsAs_none h.invalid).resolve_right fun hcorrupt => hcorrupt.2 h

/-- What is left of a record, as it reads. -/
theorem Outlived.readsAs (hmax : ∀ m ∈ max, recPayloadMax ≤ m) {o : Option Bytes} {g : Prop}
    (h : Outlived P p o (w, g)) :
    ReadsAs P p max w (stored o) ∨ ReadsAs P p max w .absent ∨ ReadsAs P p max w .corrupt ∧ g := by
  rcases h with ⟨r, rfl, hcur⟩ | hblank | ⟨hnone, hg⟩
  · exact .inl (readsAs_current hmax hcur)
  · exact .inr (.inl (readsAs_blank hblank))
  · exact .inr ((readsAs_none hnone).imp_right fun h => ⟨h.1, hg⟩)

theorem ClearLeft.recovers (hmax : ∀ m ∈ max, recPayloadMax ≤ m) {o : Option Bytes}
    (ho : Rests P p w.rmem o) {w' : World} {g : Prop} (h : ClearLeft P p w (w', g))
    (after : RecRead) : Recovers P p max o after g w w' where
  reads := ((h.outlived ho).readsAs hmax).imp_right .inr
  kept := by
    rintro her r rfl
    exact readsAs_current hmax (h.current ho her)

theorem recPairClear_recovers (hmax : ∀ m ∈ max, recPayloadMax ≤ m) {o : Option Bytes}
    (ho : Rests P p w.rmem o) (u : Bool) {fs : List Fate} (hfs : ∀ f ∈ fs, p.Faults P f) :
    Recovers P p max o .absent (Struck (chip P) (TornAlone P p) ((recPairClear p).run u) fs w) w
      (run (chip P) ((recPairClear p).run u) fs w).state := by
  have hpost := run_of_swp_watch (M := chip P) (A := p.Faults P) trivial
    (swp_watched_clear (P := P) (p := p) (u := u) (w := w) fun _ h => h) hfs
  generalize run (chip P) ((recPairClear p).run u) fs w = out at hpost ⊢
  rcases out with ⟨⟨res, u'⟩, w'⟩ | w'
  · rcases hpost with ⟨-, hblank, her⟩ | ⟨-, hleft⟩
    · refine ⟨.inr (.inl (readsAs_blank hblank)), fun hlt => ?_⟩
      have hle : erases w + 2 ≤ erases w' := her
      have hlt' : erases w' < erases w + 2 := hlt
      omega
    · exact ClearLeft.recovers hmax ho hleft .absent
  · exact ClearLeft.recovers hmax ho hpost .absent

theorem recPairInit_recovers (hmax : ∀ m ∈ max, recPayloadMax ≤ m) {o : Option Bytes}
    (ho : Rests P p w.rmem o) (u : Bool) (payload : Bytes) {fs : List Fate}
    (hfs : ∀ f ∈ fs, p.Faults P f) :
    Recovers P p max o (.ok payload 1)
      (Struck (chip P) (TornAlone P p) ((recPairInit P p payload).run u) fs w) w
      (run (chip P) ((recPairInit P p payload).run u) fs w).state := by
  by_cases hlen : payload.length ≤ recPayloadMax
  · have hdone : ∀ {w' : World} {g : Prop}, InitLeft P p (encode P p 1 payload) w (w', g) →
        Recovers P p max o (.ok payload 1) g w w' := by
      rintro w' g (hleft | ⟨her, hout⟩)
      · exact hleft.recovers hmax ho _
      · have hreads := hout.readsAs hmax
        rw [stored, payloadOf_encode P p 1 hlen, genOf_encode P p payload (by decide)] at hreads
        refine ⟨.inr hreads, fun hlt => ?_⟩
        have hle : erases w + 2 ≤ erases w' := her
        omega
    have hpost := run_of_swp_watch (M := chip P) (A := p.Faults P) trivial
      (swp_watched_init (P := P) (p := p) (u := u) (w := w) (fun _ h => h) hlen) hfs
    generalize run (chip P) ((recPairInit P p payload).run u) fs w = out at hpost ⊢
    rcases out with ⟨⟨res, u'⟩, w'⟩ | w'
    · exact hdone hpost
    · exact hdone hpost
  · -- the payload is refused before anything is done
    have hbad : badArgs payload = true := by
      simpa [badArgs] using hlen
    rw [recPairInit, hbad]
    exact ClearLeft.recovers hmax ho (.inl ⟨rfl, .inl rfl⟩) _

end Reboot

/-! ### What an acknowledgement means -/

section Acknowledged

variable {P : Prims} {A : Fate → Prop} {p : RecPair} {u : Bool} {w : World}

/-- An acknowledged init has proven the record in both copies, whatever the
slots held and whatever its calls met. -/
theorem swp_recPairInit_proven {payload : Bytes} :
    swp (chip P) A (recPairInit P p payload)
      (fun res _ w' => res = .ok → payload.length ≤ recPayloadMax ∧
        Mirrored P p w'.rmem (encode P p 1 payload)) (fun _ => True) u w := by
  rw [recPairInit]
  split
  · exact fun h => by cases h
  · rename_i hbad
    have hlen : payload.length ≤ recPayloadMax := by
      simpa [badArgs] using hbad
    have hnew : valid P p (encode P p 1 payload) = true :=
      valid_encode P p one_ne_zero (by omega) hlen
    apply swp_bind_any _ fun _ => trivial
    intro res u₁ w₁
    cases res with
    | ok =>
        dsimp only
        rw [commitBoth, swp_bind]
        apply swp_mono (swp_commitCopy_proven (.inl rfl) hnew) _ fun _ _ => trivial
        rintro ok u₂ w₂ ⟨-, -, ⟨rfl, ha⟩ | ⟨rfl, -⟩⟩
        · simp only [if_true]
          rw [swp_bind]
          apply swp_mono (swp_commitCopy_proven (.inr rfl) hnew) _ fun _ _ => trivial
          rintro ok u₃ w₃ ⟨-, haway, ⟨rfl, hb⟩ | ⟨rfl, -⟩⟩
          · exact fun _ => ⟨hlen, (haway _ p.slots_ne).trans ha, hb, hnew⟩
          · exact fun h => by cases h
        · exact fun h => by cases h
    | _ => exact fun h => by cases h

end Acknowledged

/-- `rec_pair_clear` and `rec_pair_init` may be stopped anywhere: by an error, a
torn change or a loss of power at any of their calls, from every state a
successful read leaves. After the reboot the object reads as before, as after,
absent, or corrupt if a change was torn while the other copy was empty. What
they acknowledge is so, whatever the slots held and the calls met. -/
theorem recPairClear_and_init_recover (P : Prims) (p : RecPair) (max : Option ℕ)
    (hmax : ∀ m ∈ max, recPayloadMax ≤ m) :
    (∀ w u o fs, Rests P p w.rmem o → (∀ f ∈ fs, p.Faults P f) →
      Recovers P p max o .absent
          (Struck (chip P) (TornAlone P p) ((recPairClear p).run u) fs w) w
          (run (chip P) ((recPairClear p).run u) fs w).state ∧
        ∀ payload, Recovers P p max o (.ok payload 1)
          (Struck (chip P) (TornAlone P p) ((recPairInit P p payload).run u) fs w) w
          (run (chip P) ((recPairInit P p payload).run u) fs w).state) ∧
    (∀ w u fs u' w', run (chip P) ((recPairClear p).run u) fs w = .done (.ok, u') w' →
      ReadsAs P p max w' .absent) ∧
    ∀ w u fs u' w' payload,
      run (chip P) ((recPairInit P p payload).run u) fs w = .done (.ok, u') w' →
        ReadsAs P p max w' (.ok payload 1) ∧
          ∀ slot c, p.owns slot → Invalid P p c →
            ReadsAs P p max (w'.setR slot c) (.ok payload 1) := by
  refine ⟨fun w u o fs ho hfs => ⟨recPairClear_recovers hmax ho u hfs, fun payload =>
    recPairInit_recovers hmax ho u payload hfs⟩, ?_, ?_⟩
  · intro w u fs u' w' h
    exact readsAs_blank (done_among (swp_recPairClear_blank (P := P)) h rfl)
  · intro w u fs u' w' payload h
    obtain ⟨hlen, hm⟩ := done_among (swp_recPairInit_proven (P := P)) h rfl
    have hreads : ∀ {w₁ : World}, Current P p w₁.rmem (encode P p 1 payload) →
        ReadsAs P p max w₁ (.ok payload 1) := by
      intro w₁ hcur
      have hread := readsAs_current hmax hcur
      rwa [payloadOf_encode P p 1 hlen, genOf_encode P p payload (by decide)] at hread
    exact ⟨hreads hm.current, fun slot c hslot hc => hreads (hm.current_without hslot hc)⟩

/-- A pair at rest. -/
def demoResting : World :=
  (World.blank.setR 16 (.data (encode mixPrims demoPair 2 [8]))).setR 17
    (.data (encode mixPrims demoPair 2 [8]))

/-- The second erase of a clear is torn. -/
def demoTorn : List Fate := [.none, .none, .torn (.data [0]) false]

theorem recPairClear_and_init_recover_torn :
    Recovers mixPrims demoPair none (some (encode mixPrims demoPair 2 [8])) .absent
      (Struck (chip mixPrims) (TornAlone mixPrims demoPair) ((recPairClear demoPair).run false)
        demoTorn demoResting) demoResting
      (run (chip mixPrims) ((recPairClear demoPair).run false) demoTorn demoResting).state := by
  have hvalid : valid mixPrims demoPair (encode mixPrims demoPair 2 [8]) = true :=
    valid_encode _ _ (by decide) (by decide) (by decide)
  have hfaults : ∀ f ∈ demoTorn, demoPair.Faults mixPrims f := by
    intro f hf
    simp only [demoTorn, List.mem_cons, List.not_mem_nil, or_false] at hf
    rcases hf with rfl | rfl | rfl
    · trivial
    · trivial
    · intro r hr
      simp [classify, RSlot.read, valid, slotMax, recHdr, recSum] at hr
  exact ((recPairClear_and_init_recover mixPrims demoPair none (by simp)).1 demoResting false
    (some (encode mixPrims demoPair 2 [8])) demoTorn ⟨rfl, rfl, hvalid⟩ hfaults).1

end Nixtropic
