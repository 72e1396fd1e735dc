import Nixtropic.Tropic.RecPairDecision

/-!
The records are the image of the encoder.

`valid` reads a slot with nothing but bounds, a magic, two fields and a
checksum. What it accepts is exactly what `encode` writes, for one generation
and one payload, and these are the ones `rec_pair_read` hands out.
-/

namespace Nixtropic

open Crash

/-- The bytes are the record of `payload` at the generation `gen`. -/
structure Encoded (P : Prims) (p : RecPair) (r : Bytes) (gen : ℕ) (payload : Bytes) : Prop where
  gen_pos : 1 ≤ gen
  gen_le : gen ≤ uint32Max
  payload_le : payload.length ≤ recPayloadMax
  eq : r = encode P p gen payload

section Image

variable {P : Prims} {p : RecPair} {r : Bytes}

/-- What `valid` has checked, as one statement on the bytes. -/
structure Checked (P : Prims) (p : RecPair) (r : Bytes) : Prop where
  head : r.take 4 = recMagic
  obj : r.getD 4 0 = p.obj
  schema : r.getD 5 0 = p.schema
  gen : genOf r ≠ 0
  length : r.length = recHdr + lenOf r + recSum
  room : lenOf r ≤ recPayloadMax
  sum : checksum P r (recHdr + lenOf r) = r.drop (recHdr + lenOf r)

theorem checked_of_valid (h : valid P p r = true) : Checked P p r := by
  have hlen := valid_length_eq h
  have hroom := valid_lenOf_le h
  have hgen := valid_genOf h
  have hdrop : (r.drop (recHdr + lenOf r)).take recSum = r.drop (recHdr + lenOf r) := by
    apply List.take_of_length_le
    rw [List.length_drop]
    omega
  rw [valid] at h
  split at h
  · cases h
  · split at h
    · cases h
    · next hhead =>
        split at h
        · cases h
        · simp only [not_or, ne_eq, not_not] at hhead
          rw [hdrop] at h
          exact ⟨hhead.1, hhead.2.1, hhead.2.2, hgen, hlen, hroom, of_decide_eq_true h⟩

/-- The twelve header bytes of a checked record, one by one. -/
theorem Checked.body (h : Checked P p r) :
    r.take (recHdr + lenOf r) = encodeBody p (genOf r) (payloadOf r) := by
  have hlen := h.length
  have hhead := h.head
  have hobj := h.obj
  have hschema := h.schema
  have hpay : (payloadOf r).length = lenOf r := by
    rw [payloadOf, List.length_take, List.length_drop]
    omega
  rw [encodeBody, hpay, List.take_add, ← payloadOf]
  congr 1
  simp only [recHdr, recSum] at hlen
  rcases r with _ | ⟨m0, _ | ⟨m1, _ | ⟨m2, _ | ⟨m3, _ | ⟨o, _ | ⟨s, _ | ⟨g0, _ | ⟨g1, _ | ⟨g2, _ |
    ⟨g3, _ | ⟨l0, _ | ⟨l1, rest⟩⟩⟩⟩⟩⟩⟩⟩⟩⟩⟩⟩
  case cons.cons.cons.cons.cons.cons.cons.cons.cons.cons.cons.cons =>
    have hm : [m0, m1, m2, m3] = recMagic := hhead
    have ho : o = p.obj := hobj
    have hs : s = p.schema := hschema
    show [m0, m1, m2, m3, o, s, g0, g1, g2, g3, l0, l1] = _
    rw [← hm, ← ho, ← hs]
    have hg : be32 (genOf (m0 :: m1 :: m2 :: m3 :: o :: s :: g0 :: g1 :: g2 :: g3 :: l0 :: l1 ::
        rest)) =
        [g0, g1, g2, g3] := be32_of_bytes g0 g1 g2 g3
    have hl : be16 (lenOf (m0 :: m1 :: m2 :: m3 :: o :: s :: g0 :: g1 :: g2 :: g3 :: l0 :: l1 ::
        rest)) =
        [l0, l1] := be16_of_bytes l0 l1
    rw [hg, hl]
    rfl
  all_goals
    simp only [List.length_cons, List.length_nil] at hlen
    omega

theorem Checked.encoded (h : Checked P p r) : Encoded P p r (genOf r) (payloadOf r) where
  gen_pos := Nat.one_le_iff_ne_zero.mpr h.gen
  gen_le := by
    have hlt := genOf_lt r
    simp only [uint32Max]
    omega
  payload_le := by
    have hroom := h.room
    rw [payloadOf, List.length_take]
    omega
  eq := by
    have hlen := h.length
    have hpay : (payloadOf r).length = lenOf r := by
      rw [payloadOf, List.length_take, List.length_drop]
      omega
    have hsum : checksum P (encodeBody p (genOf r) (payloadOf r)) (recHdr + lenOf r) =
        r.drop (recHdr + lenOf r) := by
      rw [← h.sum, checksum, checksum, ← h.body, List.take_take, Nat.min_self]
    rw [encode, hpay, hsum, ← h.body, List.take_append_drop]

theorem Encoded.valid {gen : ℕ} {payload : Bytes} (h : Encoded P p r gen payload) :
    valid P p r = true := by
  have hle := h.gen_le
  rw [h.eq]
  apply valid_encode P p
  · exact Nat.one_le_iff_ne_zero.mp h.gen_pos
  · simp only [uint32Max] at hle
    omega
  · exact h.payload_le

/-- The generation and the payload of a record are the ones read back from it. -/
theorem Encoded.fields {gen : ℕ} {payload : Bytes} (h : Encoded P p r gen payload) :
    gen = genOf r ∧ payload.length = lenOf r ∧ payload = payloadOf r := by
  have hle := h.gen_le
  have hgen : gen < 2 ^ 32 := by
    simp only [uint32Max] at hle
    omega
  rw [h.eq, genOf_encode P p payload hgen, lenOf_encode P p gen h.payload_le,
    payloadOf_encode P p gen h.payload_le]
  exact ⟨rfl, rfl, rfl⟩

/-- A record cut short or carried on has another length than its header says. -/
theorem valid_of_head {q : RecPair} {r' : Bytes} (h : valid P p r = true)
    (hhead : lenOf r' = lenOf r) (hlen : r'.length ≠ r.length) : valid P q r' = false := by
  have hr := valid_length_eq h
  rw [Bool.eq_false_iff]
  intro hcon
  have hr' := valid_length_eq hcon
  omega

theorem lenOf_take {n : ℕ} (hn : recHdr ≤ n) : lenOf (r.take n) = lenOf r := by
  simp only [recHdr] at hn
  have h10 : 10 < n := by omega
  have h11 : 11 < n := by omega
  simp [lenOf, byteAt, List.getD_eq_getElem?_getD, h10, h11]

theorem lenOf_append {e : Bytes} (hr : recHdr ≤ r.length) : lenOf (r ++ e) = lenOf r := by
  simp only [recHdr] at hr
  have h10 : 10 < r.length := by omega
  have h11 : 11 < r.length := by omega
  simp [lenOf, byteAt, List.getD_eq_getElem?_getD, List.getElem?_append_left h10,
    List.getElem?_append_left h11]

theorem valid_take {q : RecPair} {n : ℕ} (h : valid P p r = true) (hn : n < r.length) :
    valid P q (r.take n) = false := by
  by_cases hhdr : recHdr ≤ n
  · apply valid_of_head h (lenOf_take hhdr)
    rw [List.length_take]
    omega
  · -- too short for a header
    rw [Bool.eq_false_iff]
    intro hcon
    have hshort := (valid_length hcon).2
    rw [List.length_take] at hshort
    omega

theorem valid_append {q : RecPair} {e : Bytes} (h : valid P p r = true) (he : e ≠ []) :
    valid P q (r ++ e) = false := by
  have hlen := (valid_length h).2
  apply valid_of_head h (lenOf_append (by omega))
  have hpos := List.length_pos_iff.mpr he
  rw [List.length_append]
  omega

theorem valid_foreign {q : RecPair} (h : valid P p r = true)
    (hq : q.obj ≠ p.obj ∨ q.schema ≠ p.schema) : valid P q r = false := by
  rw [Bool.eq_false_iff]
  intro hcon
  have hp := checked_of_valid h
  have hother := checked_of_valid hcon
  rcases hq with hobj | hschema
  · exact hobj (hother.obj.symm.trans hp.obj)
  · exact hschema (hother.schema.symm.trans hp.schema)

end Image

section Reads

variable {P : Prims} {p : RecPair} {w : World} {max : Option ℕ} {u : Bool}

/-- An answer with a payload hands out a record of one of the two slots. -/
def HandsOut (P : Prims) (p : RecPair) (R : ℕ → RSlot) (res : RecRead) : Prop :=
  ∀ payload gen, res = .ok payload gen → ∃ r, (R p.slotA = .data r ∨ R p.slotB = .data r) ∧
    Encoded P p r gen payload

theorem handsOut_refused {R : ℕ → RSlot} {res : RecRead}
    (h : ∀ payload gen, res ≠ .ok payload gen) :
    HandsOut P p R res := fun payload gen hres => absurd hres (h payload gen)

theorem handsOut_of_win {R : ℕ → RSlot} {r : Bytes} {repair : Option ℕ}
    (h : choose p (classify P p (R p.slotA)) (classify P p (R p.slotB)) = .win r repair) :
    HandsOut P p R (.ok (payloadOf r) (genOf r)) := by
  intro payload gen hres
  cases hres
  obtain ⟨hv, hwin⟩ := choose_win h
  refine ⟨r, ?_, (checked_of_valid hv).encoded⟩
  rcases hwin with ⟨-, ha, -⟩ | ⟨-, ha, -⟩ | ⟨-, hb, -⟩
  · exact .inl ha
  · exact .inl ha
  · exact .inr hb

/-- Whatever the repair meets. -/
theorem swp_adopt_handsOut {A : Fate → Prop} {R : ℕ → RSlot} {c : Choice}
    (hwin : ∀ r repair, c = .win r repair → HandsOut P p R (.ok (payloadOf r) (genOf r))) :
    swp (chip P) A (adopt max c) (fun res _ _ => HandsOut P p R res) (fun _ => True) u w := by
  cases c with
  | absent => exact handsOut_refused (fun _ _ h => by cases h)
  | corrupt => exact handsOut_refused (fun _ _ h => by cases h)
  | error => exact handsOut_refused (fun _ _ h => by cases h)
  | win r repair =>
      have hok := hwin r repair rfl
      simp only [adopt]
      split
      · exact handsOut_refused (fun _ _ h => by cases h)
      · cases repair with
        | none => exact hok
        | some slot =>
            apply swp_bind_any _ fun _ => trivial
            intro ok v x
            cases ok with
            | true => exact hok
            | false => exact handsOut_refused (fun _ _ h => by cases h)

/-- Whatever the two reads and the repair meet, the payload and the generation
handed out are those of a record in one of the slots. -/
theorem swp_recPairRead_handsOut {A : Fate → Prop} :
    swp (chip P) A (recPairRead P p max) (fun res _ _ => HandsOut P p w.rmem res)
      (fun _ => True) u w := by
  rw [recPairRead, swp_bind, swp_get]
  cases u with
  | true => exact handsOut_refused (fun _ _ h => by cases h)
  | false =>
      simp only [Bool.false_eq_true, if_false]
      rw [swp_bind]
      refine swp_readCopy ?_ (fun _ => handsOut_refused (fun _ _ h => by cases h))
        (fun _ => trivial)
      rw [if_neg (classify_ne_err P p _), swp_bind]
      refine swp_readCopy ?_ (fun _ => handsOut_refused (fun _ _ h => by cases h))
        (fun _ => trivial)
      rw [if_neg (classify_ne_err P p _)]
      exact swp_adopt_handsOut fun r repair hc => handsOut_of_win hc

end Reads

/-- What `valid` accepts is exactly what `encode` writes at a generation from 1
on. The generation and the payload are the ones in the bytes, and a read hands
them out from such a record only. A record of another object or schema, one
cut short or carried on, and one of generation 0 is never valid. -/
theorem valid_iff_encoded (P : Prims) (p : RecPair) (r : Bytes) :
    (valid P p r = true ↔ ∃ gen payload, Encoded P p r gen payload) ∧
    (∀ gen payload, Encoded P p r gen payload →
      gen = genOf r ∧ payload.length = lenOf r ∧ payload = payloadOf r) ∧
    (∀ max u fs w payload gen u' w',
      run (chip P) ((recPairRead P p max).run u) fs w = .done (.ok payload gen, u') w' →
      ∃ r, (w.rmem p.slotA = .data r ∨ w.rmem p.slotB = .data r) ∧ Encoded P p r gen payload) ∧
    (valid P p r = true → ∀ q : RecPair,
      (q.obj ≠ p.obj ∨ q.schema ≠ p.schema → valid P q r = false) ∧
      (∀ n, n < r.length → valid P q (r.take n) = false) ∧
      ∀ e, e ≠ [] → valid P q (r ++ e) = false) ∧
    (genOf r = 0 → valid P p r = false) := by
  refine ⟨⟨?_, ?_⟩, fun gen payload h => h.fields, ?_, ?_, ?_⟩
  · intro h
    exact ⟨genOf r, payloadOf r, (checked_of_valid h).encoded⟩
  · rintro ⟨gen, payload, h⟩
    exact h.valid
  · intro max u fs w payload gen u' w' h
    have hread : swp (chip P) (fun _ => True) (recPairRead P p max)
        (fun res _ _ => HandsOut P p w.rmem res) (fun _ => True) u w :=
      swp_recPairRead_handsOut
    have hpost : (run (chip P) ((recPairRead P p max).run u) fs w).Satisfies
        (fun x _ => HandsOut P p w.rmem x.1) (fun _ => True) :=
      run_of_swp trivial hread fun _ _ => trivial
    rw [h] at hpost
    exact hpost payload gen rfl
  · intro h q
    exact ⟨valid_foreign h, fun n => valid_take h, fun e => valid_append h⟩
  · intro hgen
    rw [Bool.eq_false_iff]
    exact fun h => valid_genOf h hgen

theorem valid_iff_encoded_demo :
    valid mixPrims demoPair (encode mixPrims demoPair 2 [8]) = true ∧
      valid mixPrims demoPair ((encode mixPrims demoPair 2 [8]).take 20) = false ∧
      valid mixPrims demoPair (encode mixPrims demoPair 2 [8] ++ [0]) = false := by
  obtain ⟨hiff, -, -, hdamaged, -⟩ :=
    valid_iff_encoded mixPrims demoPair (encode mixPrims demoPair 2 [8])
  have hv := hiff.mpr ⟨2, [8], by decide, by decide, by decide, rfl⟩
  have hq := hdamaged hv demoPair
  refine ⟨hv, hq.2.1 20 ?_, hq.2.2 [0] (by decide)⟩
  rw [encode_length]
  decide

end Nixtropic
