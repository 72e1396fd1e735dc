import Mathlib.Algebra.Group.Nat.Defs

/-!
The definite length of a BER object, in the forms of one, two and three bytes.

BER leaves the choice of the form to the sender; DER asks for the shortest.
-/

namespace Ber

abbrev Bytes := List UInt8

/-- The bytes are a length field of `n`, in any of the three forms. -/
inductive IsLength : Bytes → ℕ → Prop where
  | short (b : UInt8) : b.toNat < 0x80 → IsLength [b] b.toNat
  | one (b : UInt8) : IsLength [0x81, b] b.toNat
  | two (hi lo : UInt8) : IsLength [0x82, hi, lo] (hi.toNat * 256 + lo.toNat)

/-- The shortest form. -/
def lengthBytes (n : ℕ) : Bytes :=
  if n < 0x80 then [UInt8.ofNat n]
  else if n ≤ 0xff then [0x81, UInt8.ofNat n]
  else [0x82, UInt8.ofNat (n / 256), UInt8.ofNat n]

/-- The length in front, and what is behind it. -/
def readLength : Bytes → Option (ℕ × Bytes)
  | [] => none
  | b :: s =>
      if b.toNat < 0x80 then some (b.toNat, s)
      else if b = 0x81 then
        match s with
        | l :: s => some (l.toNat, s)
        | [] => none
      else if b = 0x82 then
        match s with
        | hi :: lo :: s => some (hi.toNat * 256 + lo.toNat, s)
        | _ => none
      else none

theorem isLength_lengthBytes {n : ℕ} (h : n < 2 ^ 16) : IsLength (lengthBytes n) n := by
  unfold lengthBytes
  split
  · next hshort =>
      have hn : (UInt8.ofNat n).toNat = n := by
        simp only [UInt8.toNat_ofNat']
        omega
      have hl := IsLength.short (UInt8.ofNat n) (by omega)
      rwa [hn] at hl
  · split
    · have hn : (UInt8.ofNat n).toNat = n := by
        simp only [UInt8.toNat_ofNat']
        omega
      have hl := IsLength.one (UInt8.ofNat n)
      rwa [hn] at hl
    · have hn : (UInt8.ofNat (n / 256)).toNat * 256 + (UInt8.ofNat n).toNat = n := by
        simp only [UInt8.toNat_ofNat']
        omega
      have hl := IsLength.two (UInt8.ofNat (n / 256)) (UInt8.ofNat n)
      rwa [hn] at hl

theorem IsLength.read {l : Bytes} {n : ℕ} (h : IsLength l n) (rest : Bytes) :
    readLength (l ++ rest) = some (n, rest) := by
  cases h with
  | short b hb => simp [readLength, hb]
  | one b => simp [readLength]
  | two hi lo => simp [readLength]

/-- A length field is never empty and has at most three bytes. -/
theorem IsLength.size {l : Bytes} {n : ℕ} (h : IsLength l n) : 1 ≤ l.length ∧ l.length ≤ 3 := by
  cases h with
  | short b hb => simp
  | one b => simp
  | two hi lo => simp

theorem lengthBytes_pos (n : ℕ) : 1 ≤ (lengthBytes n).length := by
  unfold lengthBytes
  split
  · simp
  · split <;> simp

theorem lengthBytes_le (n : ℕ) : (lengthBytes n).length ≤ 3 := by
  unfold lengthBytes
  split
  · simp
  · split <;> simp

theorem IsLength.lt {l : Bytes} {n : ℕ} (h : IsLength l n) : n < 2 ^ 16 := by
  cases h with
  | short b hb => omega
  | one b =>
      have hb := b.toNat_lt
      omega
  | two hi lo =>
      have hhi := hi.toNat_lt
      have hlo := lo.toNat_lt
      omega

/-- No form is shorter. -/
theorem IsLength.shortest {l : Bytes} {n : ℕ} (h : IsLength l n) :
    (lengthBytes n).length ≤ l.length := by
  unfold lengthBytes
  cases h with
  | short b hb =>
      rw [if_pos hb]
      simp
  | one b =>
      have hb := b.toNat_lt
      split
      · simp
      · split
        · simp
        · omega
  | two hi lo =>
      split
      · simp
      · split <;> simp

/-- A length field is read from its front alone. -/
theorem IsLength.unique {l l' rest rest' : Bytes} {n n' : ℕ} (h : IsLength l n)
    (h' : IsLength l' n') (heq : l ++ rest = l' ++ rest') : n = n' ∧ l = l' ∧ rest = rest' := by
  have hread := h.read rest
  rw [heq, h'.read rest'] at hread
  cases hread
  exact ⟨rfl, List.append_cancel_right heq, rfl⟩

end Ber
