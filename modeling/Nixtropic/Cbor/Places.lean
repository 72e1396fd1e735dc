import Nixtropic.Cbor.Item

/-!
The places of the items inside an item: what is written before each of them and
what is written after it.
-/

namespace Cbor.Item

/-- `t.Occurs pre x post`: the item `x` is written in `t` after `pre` and before `post`. -/
inductive Occurs : Item → Bytes → Item → Bytes → Prop where
  | here (t : Item) : Occurs t [] t []
  | box {k w y x pre post} (l r : List Item) (h : Occurs y pre x post) :
      Occurs (.box k w (l ++ y :: r))
        (Head.encode ⟨k.major, w, k.count (l ++ y :: r).length⟩ ++ encodeAll l ++ pre) x
        (post ++ encodeAll r)
  | tag {w v y x pre post} (h : Occurs y pre x post) :
      Occurs (.tag w v y) (Head.encode ⟨6, w, v⟩ ++ pre) x post
  | boxOpen {k y x pre post} (l r : List Item) (h : Occurs y pre x post) :
      Occurs (.boxOpen k (l ++ y :: r)) (openByte k.major :: encodeAll l ++ pre) x
        (post ++ encodeAll r ++ [0xff])

variable {t x : Item} {pre post : Bytes}

theorem Occurs.encode (h : t.Occurs pre x post) : t.encode = pre ++ (x.encode ++ post) := by
  induction h with
  | here t => simp
  | box l r h ih | boxOpen l r h ih => simp [Item.encode, encodeAll_append, encodeAll, ih]
  | tag h ih => simp [Item.encode, ih]

theorem Occurs.all (h : t.Occurs pre x post) {p : Item → Prop} (ht : t.All p) : x.All p := by
  induction h with
  | here t => exact ht
  | box l r h ih | boxOpen l r h ih => exact ih (allIn_iff.mp ht.2 _ (by simp))
  | tag h ih => exact ih ht.2

theorem Occurs.depth (h : t.Occurs pre x post) : x.depth ≤ t.depth := by
  induction h with
  | here t => exact le_rfl
  | box l r h ih | boxOpen l r h ih =>
      exact Nat.le_succ_of_le (ih.trans (depthAll_le.mp le_rfl _ (by simp)))
  | tag h ih => exact ih

/-- The place after an item is the end, or another item starts there. -/
theorem Occurs.next (h : t.Occurs pre x post) (ht : t.Plain) :
    post = [] ∨ ∃ y post', t.Occurs (pre ++ x.encode) y post' := by
  induction h with
  | here t => exact .inl rfl
  | @box k w y x pre post l r h ih =>
      have hy : y.Plain := allIn_iff.mp ht.2 y (by simp)
      rcases ih hy with hpost | ⟨z, post', hz⟩
      · -- the last item of a member: the next member starts, if there is one
        have hlast : y.encode = pre ++ x.encode := by rw [h.encode, hpost, List.append_nil]
        cases r with
        | nil => exact .inl (by rw [hpost]; rfl)
        | cons z r =>
            refine .inr ⟨z, [] ++ encodeAll r, ?_⟩
            have hz := Occurs.box (k := k) (w := w) (l ++ [y]) r (Occurs.here z)
            simpa [encodeAll_append, encodeAll, hlast] using hz
      · refine .inr ⟨z, post' ++ encodeAll r, ?_⟩
        simpa using Occurs.box (k := k) (w := w) l r hz
  | tag => exact absurd ht.1 id
  | boxOpen => exact absurd ht.1 id

end Cbor.Item
