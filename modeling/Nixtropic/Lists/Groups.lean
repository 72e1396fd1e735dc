import Mathlib.Data.List.Induction
import Mathlib.Data.List.Perm.Basic
import Mathlib.Data.List.Nodup

/-!
Grouping a list by a key.

`firsts` keeps the first element of each key. The elements of each of these keys,
taken key by key, are the whole list: nothing is lost and nothing comes twice.
-/

namespace Lists

variable {α κ : Type} [DecidableEq κ] (f : α → κ)

/-- One more element, unless its key is there already. -/
def addFirst (acc : List α) (x : α) : List α := if f x ∈ acc.map f then acc else acc ++ [x]

/-- The first element of each key. -/
def firsts (xs : List α) : List α := xs.foldl (addFirst f) []

@[simp] theorem firsts_nil : firsts f [] = [] := rfl

theorem firsts_concat (xs : List α) (x : α) :
    firsts f (xs ++ [x]) = addFirst f (firsts f xs) x := by
  rw [firsts, List.foldl_append]
  rfl

theorem mem_addFirst {acc : List α} {x y : α} (h : y ∈ addFirst f acc x) : y ∈ acc ∨ y = x := by
  rw [addFirst] at h
  split at h
  · exact .inl h
  · simpa using h

theorem keys_addFirst (acc : List α) (x : α) (k : κ) :
    k ∈ (addFirst f acc x).map f ↔ k ∈ acc.map f ∨ k = f x := by
  rw [addFirst]
  split
  · rename_i hx
    constructor
    · exact .inl
    · rintro (h | rfl)
      · exact h
      · exact hx
  · rw [List.map_append, List.mem_append, List.map_singleton, List.mem_singleton]

/-- The elements kept are elements of the list. -/
theorem mem_of_mem_firsts {xs : List α} {y : α} (h : y ∈ firsts f xs) : y ∈ xs := by
  induction xs using List.reverseRecOn with
  | nil => exact h
  | append_singleton xs x ih =>
      rw [firsts_concat] at h
      rcases mem_addFirst f h with h | rfl
      · exact List.mem_append_left _ (ih h)
      · simp

/-- Every key is kept. -/
theorem keys_firsts (xs : List α) (k : κ) : k ∈ (firsts f xs).map f ↔ k ∈ xs.map f := by
  induction xs using List.reverseRecOn with
  | nil => rfl
  | append_singleton xs x ih =>
      rw [firsts_concat, keys_addFirst, ih, List.map_append, List.mem_append, List.map_singleton,
        List.mem_singleton]

/-- No key is kept twice. -/
theorem nodup_firsts (xs : List α) : ((firsts f xs).map f).Nodup := by
  induction xs using List.reverseRecOn with
  | nil => exact List.nodup_nil
  | append_singleton xs x ih =>
      rw [firsts_concat, addFirst]
      split
      · exact ih
      · rename_i hx
        rw [List.map_append, List.map_singleton, List.nodup_append]
        refine ⟨ih, List.nodup_singleton _, ?_⟩
        intro k hk k' hk' heq
        rw [List.mem_singleton] at hk'
        exact hx (hk' ▸ heq ▸ hk)

theorem length_firsts_le (xs : List α) : (firsts f xs).length ≤ xs.length := by
  induction xs using List.reverseRecOn with
  | nil => exact Nat.le_refl _
  | append_singleton xs x ih =>
      rw [firsts_concat, addFirst, List.length_append]
      split
      · omega
      · rw [List.length_append]
        exact Nat.add_le_add_right ih _

/-- Key by key, for keys that cover the list, nothing is lost and nothing comes
twice. -/
theorem groups_perm {ks : List κ} (hks : ks.Nodup) {xs : List α} (hx : ∀ x ∈ xs, f x ∈ ks) :
    (ks.flatMap fun k => xs.filter fun x => f x = k).Perm xs := by
  induction ks generalizing xs with
  | nil =>
      cases xs with
      | nil => exact List.Perm.refl _
      | cons x xs => exact absurd (hx x List.mem_cons_self) List.not_mem_nil
  | cons k ks ih =>
      obtain ⟨hk, hks⟩ := List.nodup_cons.mp hks
      -- the other keys find their elements among those without `k`
      have hrest : ∀ k' ∈ ks, (xs.filter fun x => f x = k') =
          (xs.filter fun x => !decide (f x = k)).filter fun x => f x = k' := by
        intro k' hk'
        rw [List.filter_filter]
        apply List.filter_congr
        intro x _
        by_cases hxk : f x = k'
        · have hne : f x ≠ k := fun h => hk (h ▸ hxk ▸ hk')
          simp [hne]
        · simp [hxk]
      have hcover : ∀ x ∈ xs.filter (fun x => !decide (f x = k)), f x ∈ ks := by
        intro x hmem
        obtain ⟨hmem, hne⟩ := List.mem_filter.mp hmem
        rcases List.mem_cons.mp (hx x hmem) with h | h
        · simp [h] at hne
        · exact h
      rw [List.flatMap_cons, List.flatMap_congr hrest]
      exact ((ih hks hcover).append_left _).trans (List.filter_append_perm _ xs)

theorem firsts_groups_perm (xs : List α) :
    (((firsts f xs).map f).flatMap fun k => xs.filter fun x => f x = k).Perm xs := by
  apply groups_perm f (nodup_firsts f xs)
  intro x hx
  rw [keys_firsts]
  exact List.mem_map_of_mem hx

end Lists
