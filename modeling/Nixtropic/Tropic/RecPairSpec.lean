import Nixtropic.Tropic.RecFormat

/-!
What the record-pair calls do when any of their chip calls may fail, be torn
or be the last one.

A pair is judged by the record a read would settle on, its `Current` record.
That is a property of the two slots alone, so it makes sense in the middle of
a write and after a loss of power. The whole of the crash behaviour is then
in three statements: a read never changes the current record and, when it
succeeds, leaves the pair mirrored; a write moves it at most from the old to
the new record; and of the world outside the pair nothing changes.
-/

namespace Nixtropic

open Crash

/-! ### Reading the two slots -/

/-- What `read_copy` makes of the content of a slot. -/
def classify (P : Prims) (p : RecPair) (c : RSlot) : Copy :=
  match c.read slotMax with
  | .error .slotEmpty => .empty
  | .error .other => .err
  | .ok buf =>
      if buf.length = 0 then .empty else if valid P p buf then .valid buf else .bad

/-- The slot holds no record of this object and schema. -/
def Invalid (P : Prims) (p : RecPair) (c : RSlot) : Prop :=
  ∀ r, classify P p c ≠ .valid r

theorem classify_ne_err (P : Prims) (p : RecPair) (c : RSlot) : classify P p c ≠ .err := by
  cases c with
  | empty => simp [classify, RSlot.read]
  | masked => simp [classify, RSlot.read]
  | data b =>
      simp only [classify, RSlot.read]
      split
      · simp
      · split <;> simp

theorem classify_valid_iff {P : Prims} {p : RecPair} {c : RSlot} {r : Bytes} :
    classify P p c = .valid r ↔ c = .data r ∧ valid P p r = true := by
  constructor
  · intro h
    cases c with
    | empty => simp [classify, RSlot.read] at h
    | masked => simp [classify, RSlot.read] at h
    | data b =>
        simp only [classify, RSlot.read] at h
        split at h
        · simp at h
        · split at h
          · rename_i hv
            obtain rfl : b.take slotMax = r := by simpa using h
            have hlen := (valid_length hv).1
            have hle : b.length ≤ slotMax := by
              simp only [List.length_take, recMax, recHdr, recPayloadMax, recSum] at hlen
              simp only [slotMax] at hlen ⊢
              omega
            rw [List.take_of_length_le hle] at hv ⊢
            exact ⟨rfl, hv⟩
          · simp at h
  · rintro ⟨rfl, hv⟩
    have hlen := valid_length hv
    have hle : r.length ≤ slotMax := by
      simp only [recMax, recHdr, recPayloadMax, recSum] at hlen
      simp only [slotMax]
      omega
    have hpos : r.length ≠ 0 := by
      simp only [recHdr, recSum] at hlen
      omega
    simp [classify, RSlot.read, List.take_of_length_le hle, hv, hpos]

theorem invalid_empty (P : Prims) (p : RecPair) : Invalid P p .empty := by
  intro r
  simp [classify, RSlot.read]

theorem invalid_or_valid (P : Prims) (p : RecPair) (c : RSlot) :
    Invalid P p c ∨ ∃ r, c = .data r ∧ valid P p r = true := by
  by_cases h : ∃ r, classify P p c = .valid r
  · obtain ⟨r, hr⟩ := h
    exact .inr ⟨r, classify_valid_iff.mp hr⟩
  · exact .inl fun r hr => h ⟨r, hr⟩

theorem Invalid.ne_data {P : Prims} {p : RecPair} {c : RSlot} {r : Bytes}
    (h : Invalid P p c) (hv : valid P p r = true) : c ≠ .data r := by
  rintro rfl
  exact h r (classify_valid_iff.mpr ⟨rfl, hv⟩)

/-- The record both copies hold. -/
structure Mirrored (P : Prims) (p : RecPair) (R : ℕ → RSlot) (r : Bytes) : Prop where
  a : R p.slotA = .data r
  b : R p.slotB = .data r
  valid : valid P p r = true

/-- A copy that a read would repair from `r`, or leave alone: `r` itself, no
record, or the record one generation older. -/
def Behind (P : Prims) (p : RecPair) (r : Bytes) (c : RSlot) : Prop :=
  c = .data r ∨ Invalid P p c ∨
    ∃ r', c = .data r' ∧ Nixtropic.valid P p r' = true ∧ genOf r = genOf r' + 1

/-- The record a read of the pair settles on. -/
def Current (P : Prims) (p : RecPair) (R : ℕ → RSlot) (r : Bytes) : Prop :=
  ∃ repair, choose p (classify P p (R p.slotA)) (classify P p (R p.slotB)) = .win r repair

theorem Current.unique {P : Prims} {p : RecPair} {R : ℕ → RSlot} {r r' : Bytes}
    (h : Current P p R r) (h' : Current P p R r') : r = r' := by
  obtain ⟨x, hx⟩ := h
  obtain ⟨y, hy⟩ := h'
  rw [hx] at hy
  injection hy

/-- Generations compare without the 32-bit wrap: generation 0 is not valid. -/
theorem genOf_succ_iff {P : Prims} {p : RecPair} {a b : Bytes} (ha : valid P p a = true) :
    genOf a = (genOf b + 1) % 2 ^ 32 ↔ genOf a = genOf b + 1 := by
  have hlt := genOf_lt b
  have hpos := valid_genOf ha
  rcases Nat.lt_or_ge (genOf b + 1) (2 ^ 32) with h | h
  · rw [Nat.mod_eq_of_lt h]
  · have hb : genOf b + 1 = 2 ^ 32 := by omega
    rw [hb, Nat.mod_self]
    have := genOf_lt a
    omega

theorem choose_valid_invalid {P : Prims} {p : RecPair} {a : Bytes} {c : RSlot}
    (h : Invalid P p c) :
    choose p (.valid a) (classify P p c) = .win a (some p.slotB) := by
  rcases hc : classify P p c with r | _ | _ | _
  · exact absurd hc (h r)
  all_goals rfl

theorem choose_invalid_valid {P : Prims} {p : RecPair} {b : Bytes} {c : RSlot}
    (h : Invalid P p c) :
    choose p (classify P p c) (.valid b) = .win b (some p.slotA) := by
  rcases hc : classify P p c with r | _ | _ | _
  · exact absurd hc (h r)
  all_goals rfl

theorem choose_self (p : RecPair) (r : Bytes) :
    choose p (.valid r) (.valid r) = .win r none := by
  simp [choose]

theorem choose_newer {P : Prims} {p : RecPair} {a b : Bytes} (ha : valid P p a = true)
    (hgen : genOf a = genOf b + 1) :
    choose p (.valid a) (.valid b) = .win a (some p.slotB) := by
  rw [choose, if_neg (by omega), if_pos ((genOf_succ_iff ha).mpr hgen)]

theorem choose_older {P : Prims} {p : RecPair} {a b : Bytes} (ha : valid P p a = true)
    (hb : valid P p b = true) (hgen : genOf b = genOf a + 1) :
    choose p (.valid a) (.valid b) = .win b (some p.slotA) := by
  have hna : ¬genOf a = (genOf b + 1) % 2 ^ 32 := by
    rw [genOf_succ_iff ha]
    omega
  rw [choose, if_neg (by omega), if_neg hna, if_pos ((genOf_succ_iff hb).mpr hgen)]

theorem choose_behind_b {P : Prims} {p : RecPair} {r : Bytes} {c : RSlot}
    (hr : valid P p r = true) (h : Behind P p r c) :
    ∃ repair, choose p (.valid r) (classify P p c) = .win r repair := by
  rcases h with rfl | h | ⟨r', rfl, hv, hgen⟩
  · rw [classify_valid_iff.mpr ⟨rfl, hr⟩]
    exact ⟨_, choose_self p r⟩
  · exact ⟨_, choose_valid_invalid h⟩
  · rw [classify_valid_iff.mpr ⟨rfl, hv⟩]
    exact ⟨_, choose_newer hr hgen⟩

theorem choose_behind_a {P : Prims} {p : RecPair} {r : Bytes} {c : RSlot}
    (hr : valid P p r = true) (h : Behind P p r c) :
    ∃ repair, choose p (classify P p c) (.valid r) = .win r repair := by
  rcases h with rfl | h | ⟨r', rfl, hv, hgen⟩
  · rw [classify_valid_iff.mpr ⟨rfl, hr⟩]
    exact ⟨_, choose_self p r⟩
  · exact ⟨_, choose_invalid_valid h⟩
  · rw [classify_valid_iff.mpr ⟨rfl, hv⟩]
    exact ⟨_, choose_older hv hr hgen⟩

/-- What a winning choice says of the two copies. -/
theorem choose_win {P : Prims} {p : RecPair} {a b : RSlot} {r : Bytes} {repair : Option ℕ}
    (h : choose p (classify P p a) (classify P p b) = .win r repair) :
    valid P p r = true ∧
      (repair = none ∧ a = .data r ∧ b = .data r ∨
        repair = some p.slotB ∧ a = .data r ∧ Behind P p r b ∨
        repair = some p.slotA ∧ b = .data r ∧ Behind P p r a) := by
  rcases invalid_or_valid P p a with ha | ⟨ra, rfl, hva⟩
  · rcases invalid_or_valid P p b with hb | ⟨rb, rfl, hvb⟩
    · rcases hca : classify P p a with r₁ | _ | _ | _ <;>
        rcases hcb : classify P p b with r₂ | _ | _ | _
      all_goals first
        | exact absurd hca (ha r₁)
        | exact absurd hcb (hb r₂)
        | (rw [hca, hcb] at h; simp [choose] at h)
    · rw [classify_valid_iff.mpr ⟨rfl, hvb⟩, choose_invalid_valid ha] at h
      obtain ⟨rfl, rfl⟩ : rb = r ∧ some p.slotA = repair := by simpa using h
      exact ⟨hvb, .inr (.inr ⟨rfl, rfl, .inr (.inl ha)⟩)⟩
  · rw [classify_valid_iff.mpr ⟨rfl, hva⟩] at h
    rcases invalid_or_valid P p b with hb | ⟨rb, rfl, hvb⟩
    · rw [choose_valid_invalid hb] at h
      obtain ⟨rfl, rfl⟩ : ra = r ∧ some p.slotB = repair := by simpa using h
      exact ⟨hva, .inr (.inl ⟨rfl, rfl, .inr (.inl hb)⟩)⟩
    · rw [classify_valid_iff.mpr ⟨rfl, hvb⟩, choose] at h
      split at h
      · split at h
        · simp at h
        · rename_i hne
          obtain rfl : ra = rb := by
            by_contra hcon
            exact hne (.inr hcon)
          obtain ⟨rfl, rfl⟩ : ra = r ∧ none = repair := by simpa using h
          exact ⟨hva, .inl ⟨rfl, rfl, rfl⟩⟩
      · split at h
        · rename_i hgen
          obtain ⟨rfl, rfl⟩ : ra = r ∧ some p.slotB = repair := by simpa using h
          exact ⟨hva, .inr (.inl ⟨rfl, rfl,
            .inr (.inr ⟨rb, rfl, hvb, (genOf_succ_iff hva).mp hgen⟩)⟩)⟩
        · split at h
          · rename_i hgen
            obtain ⟨rfl, rfl⟩ : rb = r ∧ some p.slotA = repair := by simpa using h
            exact ⟨hvb, .inr (.inr ⟨rfl, rfl,
              .inr (.inr ⟨ra, rfl, hva, (genOf_succ_iff hvb).mp hgen⟩)⟩)⟩
          · simp at h

theorem Current.valid {P : Prims} {p : RecPair} {R : ℕ → RSlot} {r : Bytes}
    (h : Current P p R r) : Nixtropic.valid P p r = true := by
  obtain ⟨repair, h⟩ := h
  exact (choose_win h).1

/-- One copy is the current record and the other is behind it. -/
theorem current_iff {P : Prims} {p : RecPair} {R : ℕ → RSlot} {r : Bytes} :
    Current P p R r ↔ Nixtropic.valid P p r = true ∧
      (R p.slotA = .data r ∧ Behind P p r (R p.slotB) ∨
        R p.slotB = .data r ∧ Behind P p r (R p.slotA)) := by
  constructor
  · rintro ⟨repair, h⟩
    obtain ⟨hv, ⟨-, ha, hb⟩ | ⟨-, ha, hb⟩ | ⟨-, hb, ha⟩⟩ := choose_win h
    · exact ⟨hv, .inl ⟨ha, .inl hb⟩⟩
    · exact ⟨hv, .inl ⟨ha, hb⟩⟩
    · exact ⟨hv, .inr ⟨hb, ha⟩⟩
  · rintro ⟨hv, ⟨ha, hb⟩ | ⟨hb, ha⟩⟩
    · rw [Current, ha, classify_valid_iff.mpr ⟨rfl, hv⟩]
      exact choose_behind_b hv hb
    · rw [Current, hb, classify_valid_iff.mpr ⟨rfl, hv⟩]
      exact choose_behind_a hv ha

theorem Mirrored.current {P : Prims} {p : RecPair} {R : ℕ → RSlot} {r : Bytes}
    (h : Mirrored P p R r) : Current P p R r :=
  current_iff.mpr ⟨h.valid, .inl ⟨h.a, .inl h.b⟩⟩

end Nixtropic
