import Nixtropic.Tropic.RecPair
import Mathlib.Tactic.Ring

/-!
The record format: what `encode` writes, `valid` accepts, and the header
fields and the payload read back.
-/

namespace Nixtropic

theorem uint8_ofNat_toNat (n : ℕ) : (UInt8.ofNat n).toNat = n % 256 := by
  simp

/-- A record body with its bytes in sight. -/
theorem encodeBody_eq (p : RecPair) (gen : ℕ) (payload : Bytes) :
    encodeBody p gen payload =
      0x4e :: 0x58 :: 0x52 :: 0x31 :: p.obj :: p.schema ::
        UInt8.ofNat (gen / 2 ^ 24) :: UInt8.ofNat (gen / 2 ^ 16) ::
        UInt8.ofNat (gen / 2 ^ 8) :: UInt8.ofNat gen ::
        UInt8.ofNat (payload.length / 2 ^ 8) :: UInt8.ofNat payload.length :: payload := by
  simp [encodeBody, recMagic, be32, be16]

@[simp] theorem encodeBody_length (p : RecPair) (gen : ℕ) (payload : Bytes) :
    (encodeBody p gen payload).length = recHdr + payload.length := by
  rw [encodeBody_eq]
  simp [recHdr]
  omega

theorem checksum_length (P : Prims) (r : Bytes) (n : ℕ) : (checksum P r n).length = recSum := by
  simp [checksum, P.sha256_length, recSum]

@[simp] theorem encode_length (P : Prims) (p : RecPair) (gen : ℕ) (payload : Bytes) :
    (encode P p gen payload).length = recHdr + payload.length + recSum := by
  simp [encode, checksum_length]

theorem encode_eq (P : Prims) (p : RecPair) (gen : ℕ) (payload : Bytes) :
    encode P p gen payload =
      0x4e :: 0x58 :: 0x52 :: 0x31 :: p.obj :: p.schema ::
        UInt8.ofNat (gen / 2 ^ 24) :: UInt8.ofNat (gen / 2 ^ 16) ::
        UInt8.ofNat (gen / 2 ^ 8) :: UInt8.ofNat gen ::
        UInt8.ofNat (payload.length / 2 ^ 8) :: UInt8.ofNat payload.length ::
        (payload ++ checksum P (encodeBody p gen payload) (recHdr + payload.length)) := by
  rw [encode]
  conv_lhs => enter [1]; rw [encodeBody_eq]
  rfl

theorem genOf_encode (P : Prims) (p : RecPair) {gen : ℕ} (payload : Bytes) (hgen : gen < 2 ^ 32) :
    genOf (encode P p gen payload) = gen := by
  rw [encode_eq]
  simp only [genOf, byteAt, List.getD_cons_succ, List.getD_cons_zero, uint8_ofNat_toNat]
  omega

theorem lenOf_encode (P : Prims) (p : RecPair) (gen : ℕ) {payload : Bytes}
    (hlen : payload.length ≤ recPayloadMax) :
    lenOf (encode P p gen payload) = payload.length := by
  rw [encode_eq]
  simp only [lenOf, byteAt, List.getD_cons_succ, List.getD_cons_zero, uint8_ofNat_toNat]
  simp only [recPayloadMax] at hlen
  omega

theorem payloadOf_encode (P : Prims) (p : RecPair) (gen : ℕ) {payload : Bytes}
    (hlen : payload.length ≤ recPayloadMax) :
    payloadOf (encode P p gen payload) = payload := by
  rw [payloadOf, lenOf_encode P p gen hlen, encode_eq]
  simp [recHdr]

theorem valid_encode (P : Prims) (p : RecPair) {gen : ℕ} {payload : Bytes} (hpos : gen ≠ 0)
    (hgen : gen < 2 ^ 32) (hlen : payload.length ≤ recPayloadMax) :
    valid P p (encode P p gen payload) = true := by
  have hhead : (encode P p gen payload).take 4 = recMagic := by
    rw [encode_eq]
    simp [recMagic]
  have hobj : (encode P p gen payload).getD 4 0 = p.obj := by
    rw [encode_eq]
    rfl
  have hschema : (encode P p gen payload).getD 5 0 = p.schema := by
    rw [encode_eq]
    rfl
  have hbody : (encode P p gen payload).take (recHdr + payload.length) =
      encodeBody p gen payload := by
    rw [encode, List.take_left' (encodeBody_length p gen payload)]
  have hsum : (encode P p gen payload).drop (recHdr + payload.length) =
      checksum P (encodeBody p gen payload) (recHdr + payload.length) := by
    rw [encode, List.drop_left' (encodeBody_length p gen payload)]
  have htake : checksum P (encode P p gen payload) (recHdr + payload.length) =
      checksum P (encodeBody p gen payload) (recHdr + payload.length) := by
    rw [checksum, hbody, checksum, List.take_of_length_le (encodeBody_length p gen payload).le]
  rw [valid, if_neg, if_neg, if_neg]
  · rw [lenOf_encode P p gen hlen, htake, hsum, List.take_of_length_le]
    · simp
    · exact (checksum_length ..).le
  · rw [genOf_encode P p payload hgen, lenOf_encode P p gen hlen, encode_length]
    simp [hpos]
  · rw [hhead, hobj, hschema]
    simp
  · rw [encode_length]
    simp only [recMax]
    omega

/-- A valid record is not longer than `REC_MAX`, so a slot is read whole. -/
theorem valid_length {P : Prims} {p : RecPair} {r : Bytes} (h : valid P p r = true) :
    r.length ≤ recMax ∧ recHdr + recSum ≤ r.length := by
  by_contra hcon
  rw [valid, if_pos] at h
  · exact Bool.false_ne_true h
  · omega

theorem valid_genOf {P : Prims} {p : RecPair} {r : Bytes} (h : valid P p r = true) :
    genOf r ≠ 0 := by
  intro hgen
  rw [valid] at h
  split at h
  · exact Bool.false_ne_true h
  · split at h
    · exact Bool.false_ne_true h
    · rw [if_pos (.inl hgen)] at h
      exact Bool.false_ne_true h

/-- A valid record is exactly as long as its length field says. -/
theorem valid_length_eq {P : Prims} {p : RecPair} {r : Bytes} (h : valid P p r = true) :
    r.length = recHdr + lenOf r + recSum := by
  by_contra hcon
  rw [valid] at h
  split at h
  · exact Bool.false_ne_true h
  · split at h
    · exact Bool.false_ne_true h
    · rw [if_pos (.inr hcon)] at h
      exact Bool.false_ne_true h

/-- The length field of a valid record is the length of its payload. -/
theorem valid_lenOf {P : Prims} {p : RecPair} {r : Bytes} (h : valid P p r = true) :
    (payloadOf r).length = lenOf r := by
  have hlen := valid_length_eq h
  rw [payloadOf, List.length_take, List.length_drop]
  omega

theorem valid_lenOf_le {P : Prims} {p : RecPair} {r : Bytes} (h : valid P p r = true) :
    lenOf r ≤ recPayloadMax := by
  have hlen := valid_length_eq h
  have hmax := (valid_length h).1
  simp only [recMax] at hmax
  omega

theorem genOf_lt (r : Bytes) : genOf r < 2 ^ 32 := by
  have h6 := (r.getD 6 0).toNat_lt
  have h7 := (r.getD 7 0).toNat_lt
  have h8 := (r.getD 8 0).toNat_lt
  have h9 := (r.getD 9 0).toNat_lt
  simp only [genOf, byteAt]
  omega

end Nixtropic
