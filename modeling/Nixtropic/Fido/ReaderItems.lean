import Nixtropic.Fido.Validate

/-!
What the typed readers of `cbor.c` return on an item that stands at the front of
the bytes left.
-/

namespace Nixtropic.Fido

open Cbor Rd

variable {b : Buffer} {r : Reader} {ε : Type}

/-- The first byte of a head. -/
theorem head_cons {g : Head} (hf : g.Fits) {s : Bytes} :
    ∃ c t, g.encode ++ s = c :: t ∧ ((c >>> 5) &&& 7).toNat = g.major := by
  refine ⟨_, _, rfl, ?_⟩
  have hm := hf.major
  have hi := Width.info_lt hf.val
  have hc : (UInt8.ofNat (g.major * 32 + g.width.info g.val)).toNat =
      g.major * 32 + g.width.info g.val := by
    simp
    omega
  rw [UInt8.toNat_and, UInt8.toNat_shiftRight, hc]
  show (g.major * 32 + g.width.info g.val) >>> 5 &&& 2 ^ 3 - 1 = _
  rw [Nat.and_two_pow_sub_one_eq_mod, Nat.shiftRight_eq_div_pow]
  omega

/-- The major type of the head that stands there is peeked at. -/
theorem peekMajor_head {g : Head} {s : Bytes} (hs : r.rest = g.encode ++ s) (hf : g.Fits) :
    (cborReaderPeekMajor : Rd ε (Option ℕ)) r = .ok (some g.major) r := by
  obtain ⟨c, t, ht, hc⟩ := head_cons (s := s) hf
  have hrest : r.rest = c :: t := hs.trans ht
  have hl := r.rest_length
  rw [hrest, List.length_cons] at hl
  unfold cborReaderPeekMajor
  rw [reader_bind, if_neg (by omega), bind_ok (bufAt_rest hrest), hc]
  rfl

/-! ### Code that reads what stands there -/

/-- `f` reads the bytes `s`, wherever they stand, and returns `a`. -/
def Reads {α : Type} (b : Buffer) (f : Rd ε α) (s : Bytes) (a : α) : Prop :=
  ∀ r t, InBuffer b r → r.err = false → r.rest = s ++ t → f r = .ok a (r.adv s.length)

namespace Reads

variable {α β : Type} {f : Rd ε α} {h : α → Rd ε β} {s t : Bytes} {a : α} {c : β}

theorem pure : Reads b (Pure.pure a : Rd ε α) [] a := fun _ _ _ _ _ => rfl

theorem bind (hf : Reads b f s a) (hh : Reads b (h a) t c) : Reads b (f >>= h) (s ++ t) c := by
  intro r u hr he hs
  rw [List.append_assoc] at hs
  have h₁ := hf r _ hr he hs
  have h₂ := hh _ u (hr.adv_of_append hs) he (Reader.rest_adv_of_append hs)
  rw [bind_ok h₁, h₂, Reader.adv_adv, List.length_append]

/-- The last call of a sequence. -/
theorem map {g : α → β} (hf : Reads b f s a) :
    Reads b (f >>= fun x => Pure.pure (g x)) s (g a) := by
  have h := hf.bind (h := fun x => Pure.pure (g x)) Reads.pure
  rwa [List.append_nil] at h

theorem congr {s' : Bytes} (hf : Reads b f s a) (h : s = s') : Reads b f s' a := h ▸ hf

/-- A peek at the major type of the head that comes next. -/
theorem peek {g : Head} (hg : g.Fits) {h : Option ℕ → Rd ε β}
    (hh : Reads b (h (some g.major)) (g.encode ++ s) c) :
    Reads b (cborReaderPeekMajor >>= h) (g.encode ++ s) c := by
  intro r u hr he hs
  have hs' : r.rest = g.encode ++ (s ++ u) := by rw [hs, List.append_assoc]
  rw [bind_ok (peekMajor_head hs' hg)]
  exact hh r u hr he hs

theorem peek_head {g : Head} (hg : g.Fits) {h : Option ℕ → Rd ε β}
    (hh : Reads b (h (some g.major)) g.encode c) :
    Reads b (cborReaderPeekMajor >>= h) g.encode c := by
  have hp := Reads.peek (s := []) hg (h := h) (c := c) (b := b)
  rw [List.append_nil] at hp
  exact hp hh

end Reads

section Typed

variable {g : Head} {s t : Bytes} {w : Width} {m : ℕ}

theorem readTyped_head (hr : InBuffer b r) (he : r.err = false) (hs : r.rest = g.encode ++ s)
    (hf : g.Fits) (h8 : g.width = .eight → g.val < 2 ^ 32) :
    readTyped g.major r = .ok g.val (r.adv g.encode.length) := by
  unfold readTyped
  rw [bind_ok (readHead_encode hr he hs hf h8)]
  show (if g.major ≠ g.major then refuse else pure g.val : Rd Unit ℕ) _ = _
  rw [if_neg fun h => h rfl]
  rfl

theorem readCount_head (hr : InBuffer b r) (he : r.err = false) (hs : r.rest = g.encode ++ s)
    (hf : g.Fits) (hv : g.val < 2 ^ 32) :
    readCount g.major r = .ok g.val (r.adv g.encode.length) := by
  unfold readCount
  rw [bind_ok (readTyped_head hr he hs hf fun _ => hv), sz_of_lt hv]
  rfl

/-- A string that stands there: the span covers its bytes. -/
theorem readByteRun_str (hr : InBuffer b r) (he : r.err = false) {k : Str}
    (hs : r.rest = Item.encode (.str k w s) ++ t) (hf : s.length < w.bound)
    (h8 : w = .eight → s.length < 2 ^ 32) :
    ∃ sp : Span, readByteRun k.major r = .ok sp (r.adv (Item.encode (.str k w s)).length) ∧
      sp.of r.buf = s ∧ sp.In b := by
  let g : Head := ⟨k.major, w, s.length⟩
  have hs' : r.rest = g.encode ++ (s ++ t) := by
    rw [hs, Item.encode, List.append_assoc]
  have hhead := readTyped_head (g := g) hr he hs' ⟨k.major_lt, hf⟩ h8
  have hrest := Reader.rest_adv_of_append hs'
  have hin := hr.adv_of_append hs'
  have htake := takeRun_run hin s.length
  rw [hrest, if_neg (by simp)] at htake
  have hrun : readByteRun k.major r =
      .ok ⟨r.pos + g.encode.length, s.length⟩ (r.adv (Item.encode (.str k w s)).length) := by
    have h := (bind_ok (g := takeRun) hhead).trans htake
    rw [Reader.adv_adv, ← List.length_append] at h
    exact h
  refine ⟨_, hrun, ?_, ?_⟩
  · show (r.buf.drop (r.pos + g.encode.length)).take s.length = s
    have hdrop : r.buf.drop (r.pos + g.encode.length) = s ++ t := hrest
    rw [hdrop, List.take_left]
  · have hstay := stays_readByteRun (b := b) k.major r hr
    rw [hrun] at hstay
    exact hstay.2

theorem reads_head (hf : g.Fits) (h8 : g.width = .eight → g.val < 2 ^ 32) :
    Reads b cborReaderReadHead g.encode (g.major, g.val) :=
  fun _ _ hr he hs => readHead_encode hr he hs hf h8

theorem reads_typed (hf : g.Fits) (h8 : g.width = .eight → g.val < 2 ^ 32) :
    Reads b (readTyped g.major) g.encode g.val :=
  fun _ _ hr he hs => readTyped_head hr he hs hf h8

theorem reads_count (hf : g.Fits) (hv : g.val < 2 ^ 32) :
    Reads b (readCount g.major) g.encode g.val :=
  fun _ _ hr he hs => readCount_head hr he hs hf hv

end Typed

end Nixtropic.Fido
