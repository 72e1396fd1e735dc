import Nixtropic.Fido.Credstore
import Nixtropic.Ber.Tlv
import Nixtropic.Ber.Unsigned

/-!
`cose_es256_der`: the raw signature of the chip as a DER SEQUENCE of two
INTEGERs.

`derInt` and `coseEs256Der` say which bytes come out. Beside them stands the
function with its buffers: every store into `body` and `out` is checked, and a
store outside the buffer would show as no result at all.
-/

namespace Nixtropic.Fido

open Cbor (beVal)

/-! ### The contents of an INTEGER -/

section Contents

variable {v : Bytes}

/-- The loop of `der_int`: the leading zero bytes, at most 31 of them. -/
def derSkip (v : Bytes) : ℕ := min 31 (v.takeWhile (· = 0)).length

/-- The contents bytes that `der_int` writes. -/
def derContents (v : Bytes) : Bytes :=
  let body := v.drop (derSkip v)
  (if 0x80 ≤ (body.headD 0).toNat then [0] else []) ++ body

theorem derInt_eq (v : Bytes) :
    derInt v = [0x02, UInt8.ofNat (derContents v).length] ++ derContents v := by
  unfold derInt derContents derSkip
  simp only [List.append_assoc, List.length_append, Nat.add_comm]

/-- Leading zero bytes say nothing about the number. -/
theorem beVal_drop_zeros (v : Bytes) {i : ℕ} (hi : i ≤ (v.takeWhile (· = 0)).length) :
    beVal (v.drop i) = beVal v := by
  induction v generalizing i with
  | nil => simp
  | cons b v ih =>
      cases i with
      | zero => rfl
      | succ i =>
          by_cases hb : b = 0
          · subst hb
            have hi' : i ≤ (v.takeWhile (· = 0)).length := by
              simpa using hi
            rw [List.drop_succ_cons, ih hi', Cbor.beVal_cons]
            simp
          · simp [hb] at hi

theorem head_drop_zeros (v : Bytes) (h : (v.takeWhile (· = 0)).length < v.length) :
    (v.drop (v.takeWhile (· = 0)).length).headD 0 ≠ 0 := by
  induction v with
  | nil => simp at h
  | cons b v ih =>
      by_cases hb : b = 0
      · subst hb
        simp only [decide_true, List.takeWhile_cons_of_pos, List.length_cons,
          List.drop_succ_cons] at h ⊢
        exact ih (by omega)
      · simp [hb]

/-- One byte is left at least, and the first of several is not zero. -/
theorem drop_derSkip (hv : v.length = 32) :
    ∃ b s, v.drop (derSkip v) = b :: s ∧ (b = 0 → s = []) := by
  have hlen : (v.drop (derSkip v)).length = 32 - derSkip v := by
    rw [List.length_drop, hv]
  have hskip : derSkip v ≤ 31 := Nat.min_le_left ..
  rcases hdrop : v.drop (derSkip v) with _ | ⟨b, s⟩
  · rw [hdrop] at hlen
    simp only [List.length_nil] at hlen
    omega
  · refine ⟨b, s, rfl, ?_⟩
    rintro rfl
    rw [hdrop, List.length_cons] at hlen
    apply List.eq_nil_of_length_eq_zero
    by_contra hs
    -- fewer than 31 bytes were skipped, so the loop stopped at a byte that is not zero
    have hz : derSkip v = (v.takeWhile (· = 0)).length := by
      unfold derSkip at hlen ⊢
      omega
    have hne := head_drop_zeros v (by omega)
    rw [← hz, hdrop] at hne
    exact hne rfl

theorem readUnsigned_derContents (hv : v.length = 32) :
    Ber.readUnsigned (derContents v) = some (beVal v) := by
  obtain ⟨b, s, hdrop, hmin⟩ := drop_derSkip hv
  have hval : beVal (b :: s) = beVal v := by
    rw [← hdrop]
    exact beVal_drop_zeros v (Nat.min_le_right ..)
  rw [← hval]
  simp only [derContents, hdrop, List.headD_cons]
  split
  · next hneg =>
      have hlt : ¬b.toNat < 0x80 := Nat.not_lt.mpr hneg
      simp [Ber.readUnsigned, hlt, Cbor.beVal_cons]
  · next hpos =>
      cases s with
      | nil => simp [Ber.readUnsigned, hpos]
      | cons c s =>
          have hb : b ≠ 0 := fun hb => List.cons_ne_nil _ _ (hmin hb)
          simp [Ber.readUnsigned, hpos, hb]

/-- `der_int` writes the contents of its number. -/
theorem derContents_eq (hv : v.length = 32) : derContents v = Ber.unsigned (beVal v) :=
  Ber.eq_unsigned_of_read (readUnsigned_derContents hv)

theorem derContents_length (hv : v.length = 32) :
    1 ≤ (derContents v).length ∧ (derContents v).length ≤ 33 := by
  obtain ⟨b, s, hdrop, -⟩ := drop_derSkip hv
  have hlen : (v.drop (derSkip v)).length ≤ 32 := by
    rw [List.length_drop, hv]
    exact Nat.sub_le ..
  simp only [derContents, hdrop, List.length_append, List.length_cons] at hlen ⊢
  split
  · simp only [List.length_cons, List.length_nil]
    omega
  · simp only [List.length_nil]
    omega

end Contents

/-! ### The buffers -/

/-- A `memcpy` to an offset of a buffer; `none` when it would run over the end. -/
def storeIn (buf : Bytes) (off : ℕ) (src : Bytes) : Option Bytes :=
  if off + src.length ≤ buf.length then some (buf.take off ++ src ++ buf.drop (off + src.length))
  else none

/-- `der_int`, with `out` at an offset of the buffer: the buffer after it, and
how many bytes were written. -/
def derIntAt (v : Bytes) (buf : Bytes) (off : ℕ) : Option (Bytes × ℕ) := do
  let i := derSkip v
  let n := 32 - i
  let pad := if 0x80 ≤ (v.getD i 0).toNat then 1 else 0
  let buf ← storeIn buf off [0x02]
  let buf ← storeIn buf (off + 1) [UInt8.ofNat (n + pad)]
  let buf ← if pad = 1 then storeIn buf (off + 2) [0] else some buf
  let buf ← storeIn buf (off + 2 + pad) ((v.drop i).take n)
  some (buf, 2 + pad + n)

/-- `cose_es256_der` with its local `body`, whatever was in it: what is returned,
no value for `-1`, and `out` after it. -/
def coseEs256DerAt (rs body out : Bytes) (outMax : ℕ) : Option (Option ℕ × Bytes) := do
  let (body, n) ← derIntAt (rs.take 32) body 0
  let (body, m) ← derIntAt ((rs.drop 32).take 32) body n
  let len := n + m
  if outMax < len + 2 then some (none, out)
  else
    let out ← storeIn out 0 [0x30]
    let out ← storeIn out 1 [UInt8.ofNat len]
    let out ← storeIn out 2 (body.take len)
    some (some (len + 2), out)

section Stores

variable {α : Type} {buf a c : Bytes} {off : ℕ}

/-- Two stores side by side are one store. -/
theorem storeIn_bind (k : Bytes → Option α) :
    ((storeIn buf off a).bind fun b => (storeIn b (off + a.length) c).bind k) =
      (storeIn buf off (a ++ c)).bind k := by
  by_cases ha : off + a.length ≤ buf.length
  · have hlen : (buf.take off ++ a ++ buf.drop (off + a.length)).length = buf.length := by
      simp only [List.length_append, List.length_take, List.length_drop]
      omega
    rw [storeIn, if_pos ha, Option.bind_some]
    by_cases hc : off + a.length + c.length ≤ buf.length
    · have hfront : (buf.take off ++ a).length = off + a.length := by
        simp only [List.length_append, List.length_take]
        omega
      rw [storeIn, if_pos (by rw [hlen]; exact hc), storeIn,
        if_pos (by rw [List.length_append]; omega)]
      congr 2
      rw [← hfront, List.take_left, List.drop_append, hfront, List.length_append,
        List.append_assoc (buf.take off) a c]
      congr 1
      rw [List.drop_eq_nil_of_le (by omega), List.nil_append, List.drop_drop]
      congr 1
      omega
    · rw [storeIn, if_neg (by rw [hlen]; exact hc), storeIn,
        if_neg (by rw [List.length_append]; omega)]
  · rw [storeIn, if_neg ha, storeIn, if_neg (by rw [List.length_append]; omega)]
    rfl

theorem storeIn_front (h : a.length ≤ buf.length) :
    storeIn buf 0 a = some (a ++ buf.drop a.length) := by
  rw [storeIn, if_pos (by omega)]
  simp

end Stores

theorem getD_eq_headD_drop (v : Bytes) (i : ℕ) : v.getD i 0 = (v.drop i).headD 0 := by
  simp [List.getD_eq_getElem?_getD, List.headD_eq_head?_getD, List.head?_drop]

/-- The stores of `der_int` are one store of its bytes. -/
theorem derIntAt_eq {v : Bytes} (hv : v.length = 32) (buf : Bytes) (off : ℕ) :
    derIntAt v buf off = (storeIn buf off (derInt v)).map fun b => (b, (derInt v).length) := by
  have hn : (v.drop (derSkip v)).length = 32 - derSkip v := by
    rw [List.length_drop, hv]
  rw [derInt_eq]
  simp only [derIntAt, derContents, getD_eq_headD_drop, ← hn, List.take_length]
  generalize v.drop (derSkip v) = body
  split
  · -- tag, length, sign byte, number
    refine (storeIn_bind (a := [0x02]) _).trans ?_
    refine (storeIn_bind (a := [0x02, _]) _).trans ?_
    refine (storeIn_bind (a := [0x02, _, 0]) _).trans ?_
    rw [Option.map_eq_bind]
    congr 1
    funext b
    simp
    omega
  · refine (storeIn_bind (a := [0x02]) _).trans ?_
    refine (storeIn_bind (a := [0x02, _]) _).trans ?_
    rw [Option.map_eq_bind]
    congr 1
    funext b
    simp
    omega

/-! ### The whole signature -/

section Signature

variable {rs : Bytes}

/-- SEQUENCE { INTEGER r, INTEGER s } -/
def es256Tree (r s : ℕ) : Ber.Tlv :=
  .constructed [0x30] [.primitive [0x02] (Ber.unsigned r), .primitive [0x02] (Ber.unsigned s)]

theorem derInt_object {v : Bytes} (hv : v.length = 32) :
    derInt v = Ber.object [0x02] (Ber.unsigned (beVal v)) := by
  have hlen := (derContents_length hv).2
  rw [derInt_eq, Ber.object, ← derContents_eq hv, Ber.lengthBytes, if_pos (by omega)]
  rfl

theorem derInt_length {v : Bytes} (hv : v.length = 32) : (derInt v).length ≤ 35 := by
  have hlen := (derContents_length hv).2
  rw [derInt_eq]
  simp only [List.length_append, List.length_cons, List.length_nil]
  omega

/-- The two halves of the raw signature. -/
theorem halves_length (h : rs.length = 64) :
    (rs.take 32).length = 32 ∧ ((rs.drop 32).take 32).length = 32 := by
  simp only [List.length_take, List.length_drop, h]
  omega

theorem encode_es256Tree (h : rs.length = 64) :
    (es256Tree (beVal (rs.take 32)) (beVal ((rs.drop 32).take 32))).encode =
      [0x30, UInt8.ofNat (derInt (rs.take 32) ++ derInt ((rs.drop 32).take 32)).length] ++
        (derInt (rs.take 32) ++ derInt ((rs.drop 32).take 32)) := by
  obtain ⟨hr, hs⟩ := halves_length h
  have hlen : (derInt (rs.take 32) ++ derInt ((rs.drop 32).take 32)).length < 0x80 := by
    have hlr := derInt_length hr
    have hls := derInt_length hs
    rw [List.length_append]
    omega
  simp only [es256Tree, Ber.Tlv.encode, Ber.encodeAll, List.append_nil]
  rw [← derInt_object hr, ← derInt_object hs]
  rw [Ber.object, Ber.lengthBytes, if_pos hlen]
  rfl

/-- The encoding has at most 72 bytes, 70 of them in `body`. -/
theorem encode_es256Tree_length (h : rs.length = 64) :
    (derInt (rs.take 32) ++ derInt ((rs.drop 32).take 32)).length ≤ 70 := by
  obtain ⟨hr, hs⟩ := halves_length h
  have hlr := derInt_length hr
  have hls := derInt_length hs
  rw [List.length_append]
  omega

theorem isTag_sequence : Ber.IsTag [0x30] := by
  show (0x30 : UInt8) &&& 0x1f ≠ 0x1f
  decide

theorem isTag_integer : Ber.IsTag [0x02] := by
  show (0x02 : UInt8) &&& 0x1f ≠ 0x1f
  decide

theorem wellFormed_es256Tree (h : rs.length = 64) :
    (es256Tree (beVal (rs.take 32)) (beVal ((rs.drop 32).take 32))).WellFormed := by
  obtain ⟨hr, hs⟩ := halves_length h
  have hcr := (derContents_length hr).2
  have hcs := (derContents_length hs).2
  rw [derContents_eq hr] at hcr
  rw [derContents_eq hs] at hcs
  have hbody := encode_es256Tree_length h
  rw [derInt_object hr, derInt_object hs] at hbody
  refine ⟨isTag_sequence, rfl, ?_, ⟨isTag_integer, rfl, ?_⟩, ⟨isTag_integer, rfl, ?_⟩, trivial⟩
  · simp only [Ber.encodeAll, Ber.Tlv.encode, List.append_nil]
    omega
  · omega
  · omega

/-- The function with its buffers stores the encoding or nothing. -/
theorem coseEs256DerAt_eq (h : rs.length = 64) {body out : Bytes} (hbody : body.length = 70)
    {outMax : ℕ} (hout : outMax ≤ out.length) :
    coseEs256DerAt rs body out outMax =
      match coseEs256Der rs outMax with
      | some enc => some (some enc.length, enc ++ out.drop enc.length)
      | none => some (none, out) := by
  obtain ⟨hr, hs⟩ := halves_length h
  have hlen := encode_es256Tree_length h
  unfold coseEs256DerAt coseEs256Der
  rw [derIntAt_eq hr, storeIn_front (by rw [List.length_append] at hlen; omega)]
  simp only [Option.map_some, Option.bind_eq_bind, Option.bind_some]
  rw [derIntAt_eq hs]
  generalize derInt (rs.take 32) = r at hlen ⊢
  generalize derInt ((rs.drop 32).take 32) = s at hlen ⊢
  have hboth : storeIn (r ++ body.drop r.length) r.length s =
      some (r ++ s ++ body.drop (r ++ s).length) := by
    have hstep : ((storeIn body 0 r).bind fun b => (storeIn b (0 + r.length) s).bind some) =
        (storeIn body 0 (r ++ s)).bind some := storeIn_bind some
    rw [storeIn_front (by rw [List.length_append] at hlen; omega),
      storeIn_front (by omega)] at hstep
    simpa using hstep
  rw [hboth]
  simp only [Option.map_some, Option.bind_some]
  have hsum : r.length + s.length = (r ++ s).length := List.length_append.symm
  rw [hsum]
  generalize hb : r ++ s = b at hlen ⊢
  split
  · rfl
  · next hroom =>
      refine (storeIn_bind (a := [0x30]) _).trans ?_
      have htake : (b ++ body.drop b.length).take b.length = b := List.take_left
      rw [htake]
      refine (storeIn_bind (a := [0x30, UInt8.ofNat b.length]) (c := b) _).trans ?_
      have hlength : ([0x30, UInt8.ofNat b.length] ++ b).length = b.length + 2 := by
        simp only [List.length_append, List.length_cons, List.length_nil]
        omega
      show (storeIn out 0 ([0x30, UInt8.ofNat b.length] ++ b)).bind _ = _
      rw [storeIn_front (by omega), hlength]
      show some (some (b.length + 2), _) = some (some ([0x30, UInt8.ofNat b.length] ++ b).length, _)
      rw [hlength]

/-- The DER encoding of a raw signature `r || s` of 64 bytes. It is the strict
encoding of SEQUENCE { INTEGER r, INTEGER s }, of 72 bytes at most, and reads back
as the two numbers; no other contents would. The function stores it at the front
of `out`, or nothing where it does not fit, and no storeIn is outside a buffer. A
signature of the chip always fits the buffer of `credstore_sign`. -/
theorem coseEs256Der_strict {rs body out : Bytes} {outMax : ℕ} (hrs : rs.length = 64)
    (hbody : body.length = 70) (hout : outMax ≤ out.length) :
    let r := beVal (rs.take 32)
    let s := beVal ((rs.drop 32).take 32)
    let enc := (es256Tree r s).encode
    enc.length ≤ 72 ∧ Ber.parse enc = some (es256Tree r s) ∧
      (∀ c, Ber.readUnsigned c = some r ↔ c = Ber.unsigned r) ∧
      (∀ c, Ber.readUnsigned c = some s ↔ c = Ber.unsigned s) ∧
      coseEs256DerAt rs body out outMax =
        some (if enc.length ≤ outMax then (some enc.length, enc ++ out.drop enc.length)
          else (none, out)) ∧
      coseEs256Der rs credstoreSigMax = some enc := by
  intro r s enc
  obtain ⟨hr, hs⟩ := halves_length hrs
  have henc : enc = [0x30, UInt8.ofNat (derInt (rs.take 32) ++
      derInt ((rs.drop 32).take 32)).length] ++
      (derInt (rs.take 32) ++ derInt ((rs.drop 32).take 32)) := encode_es256Tree hrs
  have hlen := encode_es256Tree_length hrs
  have hsize : enc.length = (derInt (rs.take 32) ++ derInt ((rs.drop 32).take 32)).length + 2 := by
    rw [henc]
    simp only [List.length_append, List.length_cons, List.length_nil]
    omega
  have hder : ∀ max, coseEs256Der rs max = if max < enc.length then none else some enc := by
    intro max
    rw [hsize, henc]
    rfl
  have hread : ∀ {v : Bytes}, v.length = 32 →
      ∀ c, Ber.readUnsigned c = some (beVal v) ↔ c = Ber.unsigned (beVal v) := by
    intro v hv c
    constructor
    · exact Ber.eq_unsigned_of_read
    · rintro rfl
      rw [← derContents_eq hv]
      exact readUnsigned_derContents hv
  refine ⟨by omega, Ber.parse_encode (wellFormed_es256Tree hrs), hread hr, hread hs, ?_, ?_⟩
  · rw [coseEs256DerAt_eq hrs hbody hout, hder]
    by_cases hfit : enc.length ≤ outMax
    · rw [if_neg (by omega), if_pos hfit]
    · rw [if_pos (by omega), if_neg hfit]
  · rw [hder, if_neg]
    simp only [credstoreSigMax]
    omega

/-- A signature whose `r` has its high bit set and whose `s` has leading zeros. -/
def demoSignature : Bytes := 0x80 :: List.replicate 31 0xAA ++ List.replicate 30 0 ++ [1, 2]

theorem coseEs256Der_strict_demo :
    coseEs256DerAt demoSignature (List.replicate 70 0) (List.replicate 80 0xFF) 72 =
      some (some 41, [0x30, 39, 2, 33, 0, 0x80] ++ List.replicate 31 0xAA ++ [2, 2, 1, 2] ++
        List.replicate 39 0xFF) := by
  have h := @coseEs256Der_strict demoSignature (List.replicate 70 0) (List.replicate 80 0xFF) 72
    (by decide) (by decide) (by decide)
  exact h.2.2.2.2.1.trans (by decide +kernel)

end Signature

end Nixtropic.Fido
