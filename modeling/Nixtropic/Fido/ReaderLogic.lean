import Nixtropic.Cbor.Item
import Nixtropic.Fido.Reader

/-!
What the readers of `cbor.c` do on a buffer, in terms of the bytes that are left:
`cbor_reader_read_head` reads the head that is at their front.
-/

namespace Nixtropic.Fido

open Cbor Rd

variable {ε α β : Type} {b : Buffer} {r r' : Reader}

namespace Reader

/-- The bytes from the position on. -/
def rest (r : Reader) : Bytes := r.buf.drop r.pos

/-- The reader, `n` bytes further on. -/
def adv (r : Reader) (n : ℕ) : Reader := { r with pos := r.pos + n }

@[simp] theorem adv_pos (r : Reader) (n : ℕ) : (r.adv n).pos = r.pos + n := rfl
@[simp] theorem adv_buf (r : Reader) (n : ℕ) : (r.adv n).buf = r.buf := rfl
@[simp] theorem adv_err (r : Reader) (n : ℕ) : (r.adv n).err = r.err := rfl
@[simp] theorem adv_len (r : Reader) (n : ℕ) : (r.adv n).len = r.len := rfl

@[simp] theorem adv_zero (r : Reader) : r.adv 0 = r := rfl

@[simp] theorem adv_adv (r : Reader) (m n : ℕ) : (r.adv m).adv n = r.adv (m + n) := by
  simp [adv, Nat.add_assoc]

theorem rest_length (r : Reader) : r.rest.length = r.len - r.pos := List.length_drop

@[simp] theorem rest_adv (r : Reader) (n : ℕ) : (r.adv n).rest = r.rest.drop n := by
  simp [rest, adv, List.drop_drop]

/-- What comes after the bytes `s` that are next. -/
theorem rest_adv_of_append {s t : Bytes} (h : r.rest = s ++ t) : (r.adv s.length).rest = t := by
  rw [rest_adv, h, List.drop_left]

end Reader

/-- A reader of `b`, with its position in it. -/
structure InBuffer (b : Buffer) (r : Reader) : Prop where
  buf : r.buf = b.bytes
  pos : r.pos ≤ r.len

namespace InBuffer

theorem lt (h : InBuffer b r) : r.len + 16 ≤ 2 ^ 32 := by
  rw [Reader.len, h.buf]
  exact b.apart

theorem adv {n : ℕ} (h : InBuffer b r) (hn : n ≤ r.rest.length) : InBuffer b (r.adv n) := by
  have hp := h.pos
  rw [r.rest_length] at hn
  exact ⟨h.buf, by simp only [Reader.adv_pos, Reader.adv_len]; omega⟩

theorem refused (h : InBuffer b r) : InBuffer b { r with err := true } := ⟨h.buf, h.pos⟩

/-- The bytes read up to here stay where they are. -/
theorem adv_of_append {s t : Bytes} (h : InBuffer b r) (hs : r.rest = s ++ t) :
    InBuffer b (r.adv s.length) := h.adv (by simp [hs])

end InBuffer

theorem inBuffer_init (b : Buffer) : InBuffer b (cborReaderInit b.bytes) := ⟨rfl, Nat.zero_le _⟩

/-- A `size_t` that is in range. -/
theorem sz_of_lt {n : ℕ} (h : n < 2 ^ 32) : sz n = n := Nat.mod_eq_of_lt h

/-! ### Evaluation -/

@[simp] theorem pure_run (a : α) (r : Reader) : (pure a : Rd ε α) r = .ok a r := rfl

theorem bind_run (f : Rd ε α) (g : α → Rd ε β) (r : Reader) :
    (f >>= g) r = match f r with
      | .ok a r => g a r
      | .fail e r => .fail e r
      | .fault => .fault := rfl

theorem bind_ok {f : Rd ε α} {g : α → Rd ε β} {a : α} (h : f r = .ok a r') :
    (f >>= g) r = g a r' := by
  rw [bind_run, h]

theorem bind_fail {f : Rd ε α} {g : α → Rd ε β} {e : ε} (h : f r = .fail e r') :
    (f >>= g) r = .fail e r' := by
  rw [bind_run, h]

/-- A call whose continuation returned has returned. -/
theorem ok_of_bind {f : Rd ε α} {g : α → Rd ε β} {c : β} (h : (f >>= g) r = .ok c r') :
    ∃ a s, f r = .ok a s ∧ g a s = .ok c r' := by
  rw [bind_run] at h
  split at h
  · exact ⟨_, _, ‹_›, h⟩
  · cases h
  · cases h

@[simp] theorem reader_bind (g : Reader → Rd ε β) (r : Reader) : (reader >>= g) r = g r r := rfl

@[simp] theorem setPos_bind (n : ℕ) (g : Unit → Rd ε β) (r : Reader) :
    (setPos n >>= g) r = g () { r with pos := n } := rfl

theorem bufAt_rest {c : UInt8} {s : Bytes} (h : r.rest = c :: s) :
    (bufAt r.pos : Rd ε UInt8) r = .ok c r := by
  have hget : r.buf[r.pos]? = some c := by
    rw [← List.head?_drop]
    exact congrArg List.head? h
  simp only [bufAt, hget]

/-- A position in the buffer, and a head after it, are no wrapped sum. -/
theorem InBuffer.sz_add {n : ℕ} (h : InBuffer b r) (hn : n < 16) : sz (r.pos + n) = r.pos + n := by
  have := h.lt
  have := h.pos
  exact sz_of_lt (by omega)

theorem bytesLeft_run (h : InBuffer b r) : (bytesLeft : Rd ε ℕ) r = .ok r.rest.length r := by
  have hlt := h.lt
  have hp := h.pos
  have hs : sz (r.len + 2 ^ 32 - r.pos) = r.len - r.pos := by
    unfold sz
    omega
  show Out.ok (sz (r.len + 2 ^ 32 - r.pos)) r = _
  rw [hs, r.rest_length]

/-! ### Heads -/

theorem gather_run (h : InBuffer b r) {n i v : ℕ} (hi : i + n ≤ r.len) :
    gather n i v r = .ok (beFrom v ((r.buf.drop i).take n)) r := by
  induction n generalizing i v with
  | zero => rfl
  | succ n ih =>
      have hlt : i < r.buf.length := by
        show i < r.len
        omega
      have hsz : sz i = i := sz_of_lt (by have := h.lt; omega)
      have hbyte : (bufAt (sz i) : Rd Unit UInt8) r = .ok r.buf[i] r := by
        simp only [bufAt, hsz, List.getElem?_eq_getElem hlt]
      have hshift : (v <<< 8) ||| r.buf[i].toNat = v * 256 + r.buf[i].toNat := by
        rw [← Nat.shiftLeft_add_eq_or_of_lt r.buf[i].toNat_lt, Nat.shiftLeft_eq]
      rw [gather, bind_ok hbyte, hshift, ih (by omega), List.drop_eq_getElem_cons hlt,
        List.take_succ_cons, beFrom]

theorem readArgument_run (h : InBuffer b r) {n : ℕ} (hn : n < 16) :
    readArgument n r = if r.rest.length < n then .fail () { r with err := true }
      else .ok (beVal (r.rest.take n)) (r.adv n) := by
  have hp := h.pos
  have hl := r.rest_length
  unfold readArgument
  rw [reader_bind, h.sz_add hn]
  by_cases hlen : r.rest.length < n
  · rw [if_pos hlen, if_pos (by omega)]
    rfl
  · have hi : r.pos + n ≤ r.len := by omega
    rw [if_neg hlen, if_neg (by omega), bind_ok (gather_run h hi), setPos_bind]
    rfl

/-- The argument of a head after its initial byte. -/
theorem readInfo_run (h : InBuffer b r) {ai : ℕ} {w : Width} (hw : Width.ofInfo ai = some w) :
    readInfo ai r =
      if r.rest.length < w.bytes then .fail () { r with err := true }
      else if w = .eight ∧ sizeMax < w.arg ai r.rest then
        .fail () { r.adv w.bytes with err := true }
      else .ok (w.arg ai r.rest) (r.adv w.bytes) := by
  unfold Width.ofInfo at hw
  unfold readInfo
  split at hw
  · obtain rfl := Option.some.inj hw
    rw [if_pos ‹_›]
    simp [Width.bytes, Width.arg]
  · rw [if_neg ‹_›]
    split at hw
    · obtain rfl := Option.some.inj hw
      rw [if_pos ‹_›, readArgument_run h (by decide)]
      rfl
    · rw [if_neg ‹_›]
      split at hw
      · obtain rfl := Option.some.inj hw
        rw [if_pos ‹_›, readArgument_run h (by decide)]
        rfl
      · rw [if_neg ‹_›]
        split at hw
        · obtain rfl := Option.some.inj hw
          rw [if_pos ‹_›, readArgument_run h (by decide)]
          rfl
        · rw [if_neg ‹_›]
          split at hw
          · obtain rfl := Option.some.inj hw
            rw [if_pos ‹_›, bind_run, readArgument_run h (by decide)]
            by_cases hl : r.rest.length < 8
            · simp [Width.bytes, hl]
            · by_cases hv : sizeMax < beVal (r.rest.take 8)
              · simp [Width.bytes, Width.arg, hl, hv, refuse]
              · simp [Width.bytes, Width.arg, hl, hv]
          · cases hw

theorem readInfo_none {ai : ℕ} (hw : Width.ofInfo ai = none) :
    readInfo ai r = .fail () { r with err := true } := by
  have := Width.lt_of_ofInfo_none hw
  unfold readInfo
  rw [if_neg (by omega), if_neg (by omega), if_neg (by omega), if_neg (by omega),
    if_neg (by omega)]
  rfl

/-- The head at the front of the bytes left is one that `cbor_reader_read_head` takes. -/
def HeadAt (r : Reader) (h : Head) : Prop :=
  (∃ s, decodeHead r.rest = some (h, s)) ∧ (h.width = .eight → h.val ≤ sizeMax)

/-- What `cbor_reader_read_head` does: it reads a head that is there, and is refused
otherwise. -/
theorem readHead_cases (h : InBuffer b r) (he : r.err = false) :
    (∃ g, HeadAt r g ∧ cborReaderReadHead r = .ok (g.major, g.val) (r.adv g.encode.length)) ∨
    ((∀ g, ¬HeadAt r g) ∧ ∃ r', InBuffer b r' ∧ cborReaderReadHead r = .fail () r') := by
  have hl := r.rest_length
  unfold cborReaderReadHead
  rw [reader_bind, he]
  cases hr : r.rest with
  | nil =>
      have hpos : r.len ≤ r.pos := by
        rw [hr, List.length_nil] at hl
        omega
      rw [if_neg Bool.false_ne_true, if_pos hpos]
      refine .inr ⟨?_, _, h.refused, rfl⟩
      rintro g ⟨⟨s, hs⟩, -⟩
      rw [hr] at hs
      cases hs
  | cons c s =>
      have hpos : ¬r.len ≤ r.pos := by
        rw [hr, List.length_cons] at hl
        omega
      have hin : InBuffer b (r.adv 1) := h.adv (by simp [hr])
      have hrest : (r.adv 1).rest = s := by rw [Reader.rest_adv, hr]; rfl
      have hai : (c &&& 0x1f).toNat = c.toNat % 32 := by
        rw [UInt8.toNat_and]
        exact Nat.and_two_pow_sub_one_eq_mod c.toNat 5
      have hmt : ((c >>> 5) &&& 7).toNat = c.toNat / 32 := by
        have hc : c.toNat < 256 := c.toNat_lt
        rw [UInt8.toNat_and, UInt8.toNat_shiftRight]
        show c.toNat >>> 5 &&& 2 ^ 3 - 1 = _
        rw [Nat.and_two_pow_sub_one_eq_mod, Nat.shiftRight_eq_div_pow]
        omega
      rw [if_neg Bool.false_ne_true, if_neg hpos, bind_ok (bufAt_rest hr), setPos_bind,
        h.sz_add (by decide), hai, hmt]
      show (∃ g, _ ∧ (readInfo (c.toNat % 32) >>= _) (r.adv 1) = _) ∨ _ ∧ ∃ r', _ ∧
        (readInfo (c.toNat % 32) >>= _) (r.adv 1) = _
      cases hw : Width.ofInfo (c.toNat % 32) with
      | none =>
          refine .inr ⟨?_, _, hin.refused, bind_fail (readInfo_none hw)⟩
          rintro g ⟨⟨t, ht⟩, -⟩
          simp only [hr, decodeHead, hw] at ht
          cases ht
      | some w =>
          have hrun := readInfo_run hin hw
          rw [hrest] at hrun
          have hdec : decodeHead r.rest = if s.length < w.bytes then none else
              some (⟨c.toNat / 32, w, w.arg (c.toNat % 32) s⟩, s.drop w.bytes) := by
            simp only [hr, decodeHead, hw]
          by_cases hlen : s.length < w.bytes
          · rw [if_pos hlen] at hrun hdec
            refine .inr ⟨?_, _, hin.refused, bind_fail hrun⟩
            rintro g ⟨⟨t, ht⟩, -⟩
            rw [hdec] at ht
            cases ht
          · rw [if_neg hlen] at hrun hdec
            by_cases hbig : w = .eight ∧ sizeMax < w.arg (c.toNat % 32) s
            · rw [if_pos hbig] at hrun
              have hadv : InBuffer b ((r.adv 1).adv w.bytes) := hin.adv (by rw [hrest]; omega)
              refine .inr ⟨?_, _, hadv.refused, bind_fail hrun⟩
              rintro g ⟨⟨t, ht⟩, hmax⟩
              rw [hdec] at ht
              obtain ⟨rfl, -⟩ := Prod.mk.inj (Option.some.inj ht)
              exact absurd (hmax hbig.1) (Nat.not_le.mpr hbig.2)
            · rw [if_neg hbig] at hrun
              refine .inl ⟨_, ⟨⟨_, hdec⟩, fun hw8 => ?_⟩, ?_⟩
              · exact Nat.not_lt.mp fun hlt => hbig ⟨hw8, hlt⟩
              · rw [bind_ok hrun, pure_run, Reader.adv_adv, Head.encode_length, Nat.add_comm]

end Nixtropic.Fido
