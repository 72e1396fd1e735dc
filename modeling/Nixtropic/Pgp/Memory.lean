import Nixtropic.Tropic.Chip

/-!
Buffers with checked reads and stores.

A function of the source that answers `-1` is refused. A read or a store outside
its buffer is another fault, which the source would not notice; that it never
happens is proved of the functions that are written this way.
-/

namespace Nixtropic.Pgp

/-- Why there is no result. -/
inductive Fault where
  | refused
  | outside
  deriving DecidableEq, Repr

def byteOf (body : Bytes) (off : ℕ) : Except Fault UInt8 :=
  match body[off]? with
  | some b => .ok b
  | none => .error .outside

def require (p : Prop) [Decidable p] : Except Fault Unit :=
  if p then .ok () else .error .refused

/-- The `len` bytes at an offset. -/
def slice (b : Bytes) (off len : ℕ) : Bytes := (b.drop off).take len

/-- A `memcpy` into a buffer. -/
def storeAt (out : Bytes) (off : ℕ) (v : Bytes) : Except Fault Bytes :=
  if off + v.length ≤ out.length then .ok (patch out off v) else .error .outside

/-- A `memmove` inside a buffer. -/
def moveIn (out : Bytes) (dst src len : ℕ) : Except Fault Bytes :=
  if src + len ≤ out.length then storeAt out dst (slice out src len) else .error .outside

section Safety

variable {α β : Type} {body s : Bytes} {off : ℕ}

/-- Nothing was outside a buffer, and what comes out satisfies `Q`. -/
def Safe (x : Except Fault α) (Q : α → Prop) : Prop :=
  match x with
  | .ok a => Q a
  | .error f => f = .refused

theorem safe_bind {x : Except Fault α} {f : α → Except Fault β} {Q : α → Prop} {R : β → Prop}
    (hx : Safe x Q) (hf : ∀ a, Q a → Safe (f a) R) : Safe (x >>= f) R := by
  cases x with
  | ok a => exact hf a hx
  | error e => exact hx

theorem safe_require {p : Prop} [Decidable p] : Safe (require p) fun _ => p := by
  unfold require
  split
  · assumption
  · rfl

@[simp] theorem ok_bind (a : α) (f : α → Except Fault β) : (Except.ok a >>= f) = f a := rfl

theorem require_pos {p : Prop} [Decidable p] (h : p) : require p = .ok () := if_pos h

/-- A byte inside the body is read. -/
theorem safe_byteOf (h : off < body.length) :
    Safe (byteOf body off) fun b => body.drop off = b :: body.drop (off + 1) := by
  rw [byteOf, List.getElem?_eq_getElem h]
  exact List.drop_eq_getElem_cons h

theorem byteOf_drop {b : UInt8} (h : body.drop off = b :: s) : byteOf body off = .ok b := by
  have hget : body[off]? = some b := by
    rw [← Nat.add_zero off, ← List.getElem?_drop, h]
    rfl
  rw [byteOf, hget]

theorem drop_succ_of_drop {b : UInt8} (h : body.drop off = b :: s) : body.drop (off + 1) = s := by
  rw [← List.drop_drop, h]
  rfl

end Safety

end Nixtropic.Pgp
