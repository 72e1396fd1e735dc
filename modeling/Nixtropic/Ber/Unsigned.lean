import Nixtropic.Cbor.Head
import Nixtropic.Ber.Length
import Mathlib.Data.Nat.Size

/-!
The contents of a DER INTEGER that is not negative: two's complement, most
significant byte first, in as few bytes as possible and in one at least.
-/

namespace Ber

open Cbor (beVal beBytes)

/-- The contents of the integer `n`: room for its bits and a sign bit. -/
def unsigned (n : ℕ) : Bytes := beBytes (n.size / 8 + 1) n

/-- A strict reader. The top bit is the sign; a first byte that only repeats it
is refused. -/
def readUnsigned : Bytes → Option ℕ
  | [] => none
  | [b] => if 0x80 ≤ b.toNat then none else some (beVal [b])
  | b :: c :: s =>
      if 0x80 ≤ b.toNat then none
      else if b = 0 ∧ c.toNat < 0x80 then none
      else some (beVal (b :: c :: s))

theorem beVal_of_readUnsigned {s : Bytes} {n : ℕ} (h : readUnsigned s = some n) : beVal s = n := by
  match s with
  | [] => cases h
  | [b] =>
      simp only [readUnsigned] at h
      split at h
      · cases h
      · exact Option.some.inj h
  | b :: c :: s =>
      simp only [readUnsigned] at h
      split at h
      · cases h
      · split at h
        · cases h
        · exact Option.some.inj h

/-- A number has `k + 1` contents bytes when it needs more than `k` of them,
the sign bit counted. -/
theorem size_of_bounds {n k : ℕ} (hlo : k = 0 ∨ 2 ^ (8 * k - 1) ≤ n) (hhi : n < 2 ^ (8 * k + 7)) :
    n.size / 8 = k := by
  have hle := Nat.size_le.mpr hhi
  rcases hlo with rfl | hlo
  · omega
  · have hlt := Nat.lt_size.mpr hlo
    omega

theorem pow_256 (k : ℕ) : 256 ^ k = 2 ^ (8 * k) := by
  rw [Nat.pow_mul]

theorem beVal_lt_half {b : UInt8} (hb : b.toNat < 0x80) (s : Bytes) :
    beVal (b :: s) < 2 ^ (8 * s.length + 7) := by
  have hs := Cbor.beVal_lt s
  have hm := Nat.mul_le_mul_right (256 ^ s.length) (Nat.succ_le_of_lt hb)
  rw [Nat.succ_mul] at hm
  rw [Cbor.beVal_cons, Nat.pow_add, ← pow_256]
  omega

theorem le_beVal_cons (b : UInt8) (s : Bytes) :
    b.toNat * 2 ^ (8 * s.length) ≤ beVal (b :: s) := by
  rw [Cbor.beVal_cons, pow_256]
  exact Nat.le_add_right ..

/-- A first byte that does not only repeat the sign. -/
theorem le_beVal_minimal {b c : UInt8} (hmin : ¬(b = 0 ∧ c.toNat < 0x80)) (s : Bytes) :
    2 ^ (8 * s.length + 7) ≤ beVal (b :: c :: s) := by
  have hbc := le_beVal_cons b (c :: s)
  have hc := le_beVal_cons c s
  by_cases hb : b.toNat = 0
  · have h0 : b = 0 := UInt8.toNat_inj.mp hb
    have hc' : 0x80 ≤ c.toNat := by
      by_contra hlt
      exact hmin ⟨h0, by omega⟩
    have hm := Nat.mul_le_mul_right (2 ^ (8 * s.length)) hc'
    rw [Cbor.beVal_cons, Nat.pow_add]
    omega
  · have hm := Nat.mul_le_mul_right (2 ^ (8 * (c :: s).length)) (Nat.one_le_iff_ne_zero.mpr hb)
    have hpow : 2 ^ (8 * s.length + 7) ≤ 2 ^ (8 * (c :: s).length) := by
      apply Nat.pow_le_pow_right (by decide)
      rw [List.length_cons]
      omega
    omega

/-- The number of bytes follows from the number. -/
theorem length_of_readUnsigned {s : Bytes} {n : ℕ} (h : readUnsigned s = some n) :
    s.length = n.size / 8 + 1 := by
  have hval := beVal_of_readUnsigned h
  match s with
  | [] => cases h
  | [b] =>
      simp only [readUnsigned] at h
      split at h
      · cases h
      · next hb =>
          have hn := beVal_lt_half (Nat.lt_of_not_ge hb) []
          rw [hval] at hn
          rw [size_of_bounds (k := 0) (.inl rfl) hn]
          rfl
  | b :: c :: s =>
      simp only [readUnsigned] at h
      split at h
      · cases h
      · next hb =>
          split at h
          · cases h
          · next hmin =>
              have hlo := le_beVal_minimal hmin s
              have hhi := beVal_lt_half (Nat.lt_of_not_ge hb) (c :: s)
              rw [hval] at hlo hhi
              rw [size_of_bounds (k := s.length + 1) (.inr hlo) hhi]
              rfl

/-- The contents are read back, so they are the only ones. -/
theorem eq_unsigned_of_read {s : Bytes} {n : ℕ} (h : readUnsigned s = some n) : s = unsigned n := by
  rw [unsigned, ← length_of_readUnsigned h, ← beVal_of_readUnsigned h, Cbor.beBytes_beVal]

end Ber
