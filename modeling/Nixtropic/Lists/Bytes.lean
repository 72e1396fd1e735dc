import Mathlib.Algebra.Group.Nat.Defs
import Mathlib.Data.List.TakeDrop
import Mathlib.Data.List.GetD

/-!
Bytes: numbers of several bytes, the highest first, and stores into a buffer.
-/

namespace Nixtropic

abbrev Bytes := List UInt8

/-! ### Numbers -/

def byteAt (b : Bytes) (i : ℕ) : ℕ := (b.getD i 0).toNat

def be32 (v : ℕ) : Bytes :=
  [UInt8.ofNat (v / 2 ^ 24), UInt8.ofNat (v / 2 ^ 16), UInt8.ofNat (v / 2 ^ 8), UInt8.ofNat v]

def be16 (v : ℕ) : Bytes := [UInt8.ofNat (v / 2 ^ 8), UInt8.ofNat v]

theorem uint8_ofNat_eq {b : UInt8} {n : ℕ} (h : n % 256 = b.toNat) : UInt8.ofNat n = b := by
  apply UInt8.toNat_inj.mp
  rw [UInt8.toNat_ofNat', h]

/-- Four bytes are the big-endian form of the number they make. -/
theorem be32_of_bytes (a b c d : UInt8) :
    be32 (a.toNat * 2 ^ 24 + b.toNat * 2 ^ 16 + c.toNat * 2 ^ 8 + d.toNat) = [a, b, c, d] := by
  have ha := a.toNat_lt
  have hb := b.toNat_lt
  have hc := c.toNat_lt
  have hd := d.toNat_lt
  rw [be32, uint8_ofNat_eq (b := a) (by omega), uint8_ofNat_eq (b := b) (by omega),
    uint8_ofNat_eq (b := c) (by omega), uint8_ofNat_eq (b := d) (by omega)]

theorem be16_of_bytes (a b : UInt8) : be16 (a.toNat * 2 ^ 8 + b.toNat) = [a, b] := by
  have ha := a.toNat_lt
  have hb := b.toNat_lt
  rw [be16, uint8_ofNat_eq (b := a) (by omega), uint8_ofNat_eq (b := b) (by omega)]

/-! ### Stores -/

/-- The bytes `v` stored at an offset. -/
def patch (b : Bytes) (off : ℕ) (v : Bytes) : Bytes := b.take off ++ v ++ b.drop (off + v.length)

section Stores

variable {out v a : Bytes} {off i : ℕ}

theorem length_patch (h : off + v.length ≤ out.length) : (patch out off v).length = out.length := by
  simp only [patch, List.length_append, List.length_take, List.length_drop]
  omega

/-- Behind a patch the front is the old front and the patch. -/
theorem take_patch (h : off ≤ out.length) :
    (patch out off v).take (off + v.length) = out.take off ++ v := by
  have hlen : (out.take off ++ v).length = off + v.length := by
    rw [List.length_append, List.length_take, Nat.min_eq_left h]
  rw [patch, ← hlen, List.take_left]

/-- Two stores side by side. -/
theorem patch_patch (h : off + a.length + v.length ≤ out.length) :
    patch (patch out off a) (off + a.length) v = patch out off (a ++ v) := by
  have hlen : (out.take off ++ a).length = off + a.length := by
    rw [List.length_append, List.length_take, Nat.min_eq_left (by omega)]
  have hfront : (patch out off a).take (off + a.length) = out.take off ++ a := take_patch (by omega)
  have hback : (patch out off a).drop (off + a.length + v.length) =
      out.drop (off + (a ++ v).length) := by
    rw [patch, List.drop_append, hlen, List.drop_eq_nil_of_le (by omega), List.nil_append,
      List.drop_drop, List.length_append]
    congr 1
    omega
  rw [patch, hfront, hback, patch]
  simp only [List.append_assoc]

theorem le_length_patch (h : off ≤ out.length) : out.length ≤ (patch out off v).length := by
  simp only [patch, List.length_append, List.length_take, List.length_drop]
  omega

theorem getD_patch (h : off ≤ out.length) (hi : i < off ∨ off + v.length ≤ i) :
    (patch out off v).getD i 0 = out.getD i 0 := by
  have htake : (out.take off).length = off := by
    rw [List.length_take]
    omega
  have hfront : (out.take off ++ v).length = off + v.length := by
    rw [List.length_append, htake]
  rw [List.getD_eq_getElem?_getD, List.getD_eq_getElem?_getD, patch]
  congr 1
  rcases hi with hi | hi
  · rw [List.append_assoc, List.getElem?_append_left (by omega), List.getElem?_take_of_lt hi]
  · rw [List.getElem?_append_right (by omega), hfront, List.getElem?_drop]
    congr 1
    omega

/-- What is stored is there. -/
theorem getD_patch_inside (h : off ≤ out.length) (hi : i < v.length) :
    (patch out off v).getD (off + i) 0 = v.getD i 0 := by
  have htake : (out.take off).length = off := by
    rw [List.length_take]
    omega
  rw [List.getD_eq_getElem?_getD, List.getD_eq_getElem?_getD, patch, List.append_assoc,
    List.getElem?_append_right (by omega), htake, Nat.add_sub_cancel_left,
    List.getElem?_append_left hi]

/-- A buffer of zeros is filled from the front. -/
theorem patch_replicate (n : ℕ) (v : Bytes) :
    patch (List.replicate n 0) 0 v = v ++ List.replicate (n - v.length) 0 := by
  rw [patch, List.take_zero, List.nil_append, Nat.zero_add, List.drop_replicate]

/-- The next bytes join those that are there. -/
theorem patch_append (old v : Bytes) (n : ℕ) :
    patch (old ++ List.replicate n 0) old.length v =
      old ++ v ++ List.replicate (n - v.length) 0 := by
  rw [patch, List.take_left, ← List.drop_drop, List.drop_left, List.drop_replicate]

end Stores

end Nixtropic
