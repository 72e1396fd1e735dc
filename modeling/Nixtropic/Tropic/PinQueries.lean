import Nixtropic.Tropic.PinSteps
import Mathlib.Data.List.Dedup

/-!
The queries of a log as lists, so that `Ideal` can be checked on a run.
-/

namespace Nixtropic

open Crash

/-- The HMAC queries, key and message. -/
def hmacs (l : List Event) : List (Bytes × Bytes) :=
  (l.filterMap fun e => match e.op with
    | .hmac key msg => some (key, msg)
    | _ => none).dedup

/-- The M&D calls: the slot, what it held, and the input. -/
def mads (l : List Event) : List (ℕ × Bytes × Bytes) :=
  (l.filterMap fun e => match e.op with
    | .macAndDestroy _ slot data => some (slot, e.mad slot, data)
    | _ => none).dedup

theorem asked_iff {l : List Event} {key msg : Bytes} :
    Asked l (.hmac key msg) ↔ (key, msg) ∈ hmacs l := by
  constructor
  · rintro ⟨e, he, hop⟩
    exact List.mem_dedup.mpr (List.mem_filterMap.mpr ⟨e, he, by rw [hop]⟩)
  · intro h
    obtain ⟨e, he, hsome⟩ := List.mem_filterMap.mp (List.mem_dedup.mp h)
    refine ⟨e, he, ?_⟩
    split at hsome
    · rename_i k m hop
      obtain ⟨rfl, rfl⟩ : k = key ∧ m = msg := by simpa using hsome
      exact hop
    · cases hsome

theorem called_iff {l : List Event} {slot : ℕ} {old data : Bytes} :
    Called l slot old data ↔ (slot, old, data) ∈ mads l := by
  constructor
  · rintro ⟨e, he, ⟨site, hop⟩, rfl⟩
    exact List.mem_dedup.mpr (List.mem_filterMap.mpr ⟨e, he, by rw [hop]⟩)
  · intro h
    obtain ⟨e, he, hsome⟩ := List.mem_filterMap.mp (List.mem_dedup.mp h)
    refine ⟨e, he, ?_⟩
    split at hsome
    · rename_i site k m hop
      obtain ⟨rfl, rfl, rfl⟩ : k = slot ∧ e.mad k = old ∧ m = data := by simpa using hsome
      exact ⟨⟨site, hop⟩, rfl⟩
    · cases hsome

/-- No two of the listed queries collide. -/
def NoCollision (P : Prims) (hs : List (Bytes × Bytes)) (ms : List (ℕ × Bytes × Bytes)) : Prop :=
  (∀ p ∈ hs, ∀ q ∈ hs, P.hmac p.1 p.2 = P.hmac q.1 q.2 → p = q) ∧
    (∀ p ∈ ms, ∀ q ∈ ms, p.1 = q.1 → P.f1 p.2.2 p.1 = P.f1 q.2.2 p.1 → p.2.2 = q.2.2) ∧
    ∀ p ∈ ms, ∀ q ∈ ms, p.1 = q.1 →
      P.f2 p.2.1 (P.f1 p.2.2 p.1) p.1 = P.f2 q.2.1 (P.f1 q.2.2 p.1) p.1 → p.2.1 = q.2.1

instance (P : Prims) (hs : List (Bytes × Bytes)) (ms : List (ℕ × Bytes × Bytes)) :
    Decidable (NoCollision P hs ms) :=
  inferInstanceAs (Decidable (_ ∧ _))

theorem ideal_iff {P : Prims} {l : List Event} :
    Ideal P l ↔ NoCollision P (hmacs l) (mads l) := by
  constructor
  · intro h
    refine ⟨?_, ?_, ?_⟩
    · rintro ⟨k, m⟩ hp ⟨k', m'⟩ hq heq
      obtain ⟨rfl, rfl⟩ := h.hmac (asked_iff.mpr hp) (asked_iff.mpr hq) heq
      rfl
    · rintro ⟨slot, old, data⟩ hp ⟨slot', old', data'⟩ hq hs heq
      obtain rfl : slot = slot' := hs
      exact h.f1 (called_iff.mpr hp) (called_iff.mpr hq) heq
    · rintro ⟨slot, old, data⟩ hp ⟨slot', old', data'⟩ hq hs heq
      obtain rfl : slot = slot' := hs
      exact h.f2 (called_iff.mpr hp) (called_iff.mpr hq) heq
  · rintro ⟨h1, h2, h3⟩
    refine ⟨fun ha hb heq => ?_, fun ha hb heq => ?_, fun ha hb heq => ?_⟩
    · simpa using h1 _ (asked_iff.mp ha) _ (asked_iff.mp hb) heq
    · exact h2 _ (called_iff.mp ha) _ (called_iff.mp hb) rfl heq
    · exact h3 _ (called_iff.mp ha) _ (called_iff.mp hb) rfl heq

instance (P : Prims) (l : List Event) : Decidable (Ideal P l) := decidable_of_iff _ ideal_iff.symm

end Nixtropic
