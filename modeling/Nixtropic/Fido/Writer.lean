import Nixtropic.Cbor.Value
import Nixtropic.Fido.Cbor
import Nixtropic.Fido.Reader

/-!
The writers of `cbor.c`: `cbor_writer_t` and the `cbor_write_*` functions.

The memory behind `buf` goes on beyond the capacity here, so that a write there
would be seen. Every writer appends bytes or sets the error: `Appends` says which
bytes, and rules for one call after another follow.
-/

namespace Nixtropic.Fido

open Cbor Rd

/-- `cbor_writer_t`; `mem i` is the byte at `buf + i`. -/
structure Writer where
  mem : ℕ → UInt8
  cap : ℕ
  pos : ℕ
  err : Bool

/-- `cbor_writer_init` -/
def cborWriterInit (mem : ℕ → UInt8) (cap : ℕ) : Writer := ⟨mem, cap, 0, false⟩

namespace Writer

/-- The bytes written so far. -/
def bytes (w : Writer) : Bytes := (List.range w.pos).map w.mem

/-- Bytes put at a position of the memory. -/
def poke (mem : ℕ → UInt8) (i : ℕ) : Bytes → ℕ → UInt8
  | [] => mem
  | b :: s => poke (Function.update mem i b) (i + 1) s

/-- `w->err = 1; return -1;` -/
def refuse (w : Writer) : Bool × Writer := (false, { w with err := true })

/-- A call that returns an error ends the caller: `if (f(w) < 0) return -1;`. -/
def andThen (p : Bool × Writer) (f : Writer → Bool × Writer) : Bool × Writer :=
  if p.1 then f p.2 else p

/-- `put_byte` -/
def putByte (b : UInt8) (w : Writer) : Bool × Writer :=
  if w.err then (false, w)
  else if w.cap ≤ w.pos then refuse w
  else (true, { w with mem := Function.update w.mem w.pos b, pos := w.pos + 1 })

/-- `put_bytes` -/
def putBytes (s : Bytes) (w : Writer) : Bool × Writer :=
  if w.err then (false, w)
  else if sz (w.cap + 2 ^ 32 - w.pos) < s.length then refuse w
  else (true, { w with mem := poke w.mem w.pos s, pos := w.pos + s.length })

/-- `put_head`: the argument in the shortest form. -/
def putHead (mt v : ℕ) (w : Writer) : Bool × Writer :=
  let mtBits := UInt8.ofNat (mt <<< 5)
  if v < 24 then putByte (mtBits ||| UInt8.ofNat v) w
  else if v ≤ 0xff then
    andThen (putByte (mtBits ||| 24) w) (putByte (UInt8.ofNat v))
  else if v ≤ 0xffff then
    andThen (putByte (mtBits ||| 25) w) (putBytes [UInt8.ofNat (v >>> 8), UInt8.ofNat v])
  else if v ≤ 0xffffffff then
    andThen (putByte (mtBits ||| 26) w) (putBytes [UInt8.ofNat (v >>> 24), UInt8.ofNat (v >>> 16),
      UInt8.ofNat (v >>> 8), UInt8.ofNat v])
  else
    andThen (putByte (mtBits ||| 27) w) (putBytes [UInt8.ofNat (v >>> 56), UInt8.ofNat (v >>> 48),
      UInt8.ofNat (v >>> 40), UInt8.ofNat (v >>> 32), UInt8.ofNat (v >>> 24),
      UInt8.ofNat (v >>> 16), UInt8.ofNat (v >>> 8), UInt8.ofNat v])

end Writer

open Writer

/-- `cbor_write_uint` -/
def cborWriteUint (v : ℕ) (w : Writer) : Bool × Writer := Writer.putHead 0 v w

/-- `cbor_write_negint`, of an integer that should be negative. -/
def cborWriteNegint (v : ℤ) (w : Writer) : Bool × Writer :=
  if 0 ≤ v then Writer.refuse w else Writer.putHead 1 (-(v + 1)).toNat w

/-- `cbor_write_byte_string` -/
def cborWriteByteString (s : Bytes) (w : Writer) : Bool × Writer :=
  andThen (Writer.putHead 2 s.length w) (putBytes s)

/-- `strlen` -/
def strlen (s : Bytes) : ℕ := (s.takeWhile (· ≠ 0)).length

/-- `cbor_write_text`, of a string in a memory where a zero byte ends it. -/
def cborWriteText (s : Bytes) (w : Writer) : Bool × Writer :=
  andThen (Writer.putHead 3 (strlen s) w) (putBytes (s.take (strlen s)))

/-- `cbor_write_array_header` -/
def cborWriteArrayHeader (count : ℕ) (w : Writer) : Bool × Writer := Writer.putHead 4 count w

/-- `cbor_write_map_header` -/
def cborWriteMapHeader (count : ℕ) (w : Writer) : Bool × Writer := Writer.putHead 5 count w

/-- `cbor_write_bool` -/
def cborWriteBool (v : Bool) (w : Writer) : Bool × Writer :=
  putByte (UInt8.ofNat (7 <<< 5) ||| if v then 21 else 20) w

/-- `cbor_write_null` -/
def cborWriteNull (w : Writer) : Bool × Writer := putByte (UInt8.ofNat (7 <<< 5) ||| 22) w

/-! ### What a writer appends -/

namespace Writer

variable {w w' : Writer} {f g : Writer → Bool × Writer} {s t : Bytes}

/-- The position is not behind the capacity, which leaves room for the writer itself. -/
structure Ok (w : Writer) : Prop where
  pos : w.pos ≤ w.cap
  apart : w.cap + 16 ≤ 2 ^ 32

/-- `s` was appended. -/
def append (w : Writer) (s : Bytes) : Writer :=
  { w with mem := poke w.mem w.pos s, pos := w.pos + s.length }

/-- The error is set, and no byte from the capacity on has changed. -/
structure Overflowed (w w' : Writer) : Prop where
  err : w'.err = true
  cap : w'.cap = w.cap
  pos : w'.pos ≤ w'.cap
  mem : ∀ i, w.cap ≤ i → w'.mem i = w.mem i

theorem poke_below (mem : ℕ → UInt8) {i j : ℕ} (h : j < i) (s : Bytes) :
    poke mem i s j = mem j := by
  induction s generalizing mem i with
  | nil => rfl
  | cons b s ih => rw [poke, ih _ (by omega), Function.update_of_ne (by omega)]

theorem poke_above (mem : ℕ → UInt8) {i j : ℕ} {s : Bytes} (h : i + s.length ≤ j) :
    poke mem i s j = mem j := by
  induction s generalizing mem i with
  | nil => rfl
  | cons b s ih =>
      rw [List.length_cons] at h
      rw [poke, ih _ (by omega), Function.update_of_ne (by omega)]

theorem poke_append (mem : ℕ → UInt8) (i : ℕ) (s t : Bytes) :
    poke mem i (s ++ t) = poke (poke mem i s) (i + s.length) t := by
  induction s generalizing mem i with
  | nil => rfl
  | cons b s ih =>
      rw [List.cons_append, poke, ih, poke, List.length_cons]
      congr 1
      omega

theorem map_poke (mem : ℕ → UInt8) (i : ℕ) (s : Bytes) :
    (List.range' i s.length).map (poke mem i s) = s := by
  induction s generalizing mem i with
  | nil => rfl
  | cons b s ih =>
      rw [List.length_cons, List.range'_succ, List.map_cons, poke, ih,
        poke_below _ (Nat.lt_succ_self i), Function.update_self]

@[simp] theorem append_err (w : Writer) (s : Bytes) : (w.append s).err = w.err := rfl
@[simp] theorem append_cap (w : Writer) (s : Bytes) : (w.append s).cap = w.cap := rfl
@[simp] theorem append_pos (w : Writer) (s : Bytes) : (w.append s).pos = w.pos + s.length := rfl

theorem append_append (w : Writer) (s t : Bytes) : (w.append s).append t = w.append (s ++ t) := by
  simp only [append, poke_append, List.length_append, Nat.add_assoc]

/-- What was appended stands after what was written. -/
theorem bytes_append (w : Writer) (s : Bytes) : (w.append s).bytes = w.bytes ++ s := by
  have hlow : (List.range w.pos).map (poke w.mem w.pos s) = w.bytes :=
    List.map_congr_left fun i hi => poke_below _ (List.mem_range.mp hi) s
  have hhigh := map_poke w.mem w.pos s
  show (List.range (w.pos + s.length)).map (poke w.mem w.pos s) = _
  rw [List.range_eq_range', ← List.range'_append_1, List.map_append, Nat.zero_add, hhigh,
    ← List.range_eq_range', hlow]

theorem Ok.append (h : w.Ok) (hs : w.pos + s.length ≤ w.cap) : (w.append s).Ok := ⟨hs, h.apart⟩

/-- Nothing from the capacity on changes. -/
theorem append_mem (hs : w.pos + s.length ≤ w.cap) {i : ℕ} (hi : w.cap ≤ i) :
    (w.append s).mem i = w.mem i :=
  poke_above _ (hs.trans hi)

/-- The call appends `s`, or sets the error when there is no room for it; after an error it
does nothing. -/
structure Appends (f : Writer → Bool × Writer) (s : Bytes) : Prop where
  stuck : ∀ w, w.err = true → f w = (false, w)
  room : ∀ w, w.Ok → w.err = false → w.pos + s.length ≤ w.cap → f w = (true, w.append s)
  full : ∀ w, w.Ok → w.err = false → w.cap < w.pos + s.length →
    (f w).1 = false ∧ Overflowed w (f w).2

theorem Overflowed.of_append (hs : w.pos + s.length ≤ w.cap) (h : Overflowed (w.append s) w') :
    Overflowed w w' :=
  ⟨h.err, h.cap, h.pos, fun i hi => (h.mem i hi).trans (append_mem hs hi)⟩

theorem overflowed_refuse (h : w.Ok) : Overflowed w (refuse w).2 :=
  ⟨rfl, rfl, h.pos, fun _ _ => rfl⟩

namespace Appends

theorem putByte (b : UInt8) : Appends (putByte b) [b] where
  stuck w he := by rw [Writer.putByte, if_pos he]
  room w _ he hs := by
    have hp : ¬w.cap ≤ w.pos := by
      have : w.pos + 1 ≤ w.cap := hs
      omega
    rw [Writer.putByte, if_neg (ne_true_of_eq_false he), if_neg hp]
    rfl
  full w hw he hs := by
    have hp : w.cap ≤ w.pos := by
      have : w.cap < w.pos + 1 := hs
      omega
    rw [Writer.putByte, if_neg (ne_true_of_eq_false he), if_pos hp]
    exact ⟨rfl, overflowed_refuse hw⟩

/-- The difference of the source is the room that is left. -/
theorem sz_room (hw : w.Ok) : sz (w.cap + 2 ^ 32 - w.pos) = w.cap - w.pos := by
  have := hw.pos
  have := hw.apart
  unfold sz
  omega

theorem putBytes (s : Bytes) : Appends (putBytes s) s where
  stuck w he := by rw [Writer.putBytes, if_pos he]
  room w hw he hs := by
    rw [Writer.putBytes, if_neg (ne_true_of_eq_false he), sz_room hw, if_neg (by omega)]
    rfl
  full w hw he hs := by
    have := hw.pos
    rw [Writer.putBytes, if_neg (ne_true_of_eq_false he), sz_room hw, if_pos (by omega)]
    exact ⟨rfl, overflowed_refuse hw⟩

/-- Two calls, the second only after the first returned. -/
theorem andThen (hf : Appends f s) (hg : Appends g t) :
    Appends (fun w => Writer.andThen (f w) g) (s ++ t) where
  stuck w he := by rw [hf.stuck w he, Writer.andThen, if_neg Bool.false_ne_true]
  room w hw he hs := by
    rw [List.length_append] at hs
    have hs' : w.pos + s.length ≤ w.cap := by omega
    have h := hg.room (w.append s) (hw.append hs') he (by simp only [append_pos, append_cap]; omega)
    rw [hf.room w hw he hs', Writer.andThen, if_pos rfl, h, append_append]
  full w hw he hs := by
    rw [List.length_append] at hs
    by_cases hs' : w.pos + s.length ≤ w.cap
    · have h := hg.full (w.append s) (hw.append hs') he
        (by simp only [append_pos, append_cap]; omega)
      rw [hf.room w hw he hs', Writer.andThen, if_pos rfl]
      exact ⟨h.1, h.2.of_append hs'⟩
    · have h := hf.full w hw he (by omega)
      rw [Writer.andThen, h.1, if_neg Bool.false_ne_true]
      exact h

theorem congr (hf : Appends f s) (h : s = t) : Appends f t := h ▸ hf

end Appends

/-- `f` appends `s`, or sets the error when there is no room for it, and no caller has looked at
what its calls returned. -/
structure Adds (f : Writer → Writer) (s : Bytes) : Prop where
  stuck : ∀ w, w.err = true → f w = w
  room : ∀ w, w.Ok → w.err = false → w.pos + s.length ≤ w.cap → f w = w.append s
  full : ∀ w, w.Ok → w.err = false → w.cap < w.pos + s.length → Overflowed w (f w)

theorem Appends.adds (hf : Appends f s) : Adds (fun w => (f w).2) s where
  stuck w he := by rw [hf.stuck w he]
  room w hw he hs := by rw [hf.room w hw he hs]
  full w hw he hs := (hf.full w hw he hs).2

theorem Adds.id : Adds (fun w => w) [] where
  stuck _ _ := rfl
  room _ _ _ _ := rfl
  full _ hw _ hs := absurd hs (Nat.not_lt.mpr hw.pos)

/-- Calls one after the other. -/
theorem Adds.comp {f g : Writer → Writer} (hf : Adds f s) (hg : Adds g t) :
    Adds (fun w => g (f w)) (s ++ t) where
  stuck w he := by rw [hf.stuck w he, hg.stuck w he]
  room w hw he hs := by
    rw [List.length_append] at hs
    have hs' : w.pos + s.length ≤ w.cap := by omega
    have h := hg.room (w.append s) (hw.append hs') he (by simp only [append_pos, append_cap]; omega)
    rw [hf.room w hw he hs', h, append_append]
  full w hw he hs := by
    rw [List.length_append] at hs
    by_cases hs' : w.pos + s.length ≤ w.cap
    · rw [hf.room w hw he hs']
      exact (hg.full (w.append s) (hw.append hs') he
        (by simp only [append_pos, append_cap]; omega)).of_append hs'
    · have h := hf.full w hw he (by omega)
      rw [hg.stuck _ h.err]
      exact h

/-- The initial byte of a head. -/
theorem initial_byte {mt ai : ℕ} (hm : mt < 8) (ha : ai < 32) :
    UInt8.ofNat (mt <<< 5) ||| UInt8.ofNat ai = UInt8.ofNat (mt * 32 + ai) := by
  apply UInt8.toNat_inj.mp
  have h : mt <<< 5 ||| ai = mt * 32 + ai := by
    rw [← Nat.shiftLeft_add_eq_or_of_lt ha, Nat.shiftLeft_eq]
  have h₁ : (UInt8.ofNat (mt <<< 5)).toNat = mt <<< 5 := by
    rw [Nat.shiftLeft_eq]
    simp
    omega
  have h₂ : (UInt8.ofNat ai).toNat = ai := by
    simp
    omega
  have h₃ : (UInt8.ofNat (mt * 32 + ai)).toNat = mt * 32 + ai := by
    simp
    omega
  rw [UInt8.toNat_or, h₁, h₂, h₃, h]

/-- `put_head` appends the head of the shortest width. -/
theorem appends_putHead {mt : ℕ} (hm : mt < 8) (v : ℕ) :
    Appends (putHead mt v) (Head.encode ⟨mt, .shortest v, v⟩) := by
  have hshift (k : ℕ) : v >>> k = v / 2 ^ k := Nat.shiftRight_eq_div_pow v k
  -- the initial byte, then the argument of `k` bytes
  have hwide (ai : ℕ) (ha : ai < 32) (t : Bytes) (g : Writer → Bool × Writer) (hg : Appends g t) :
      Appends (fun w => andThen (putByte (UInt8.ofNat (mt <<< 5) ||| UInt8.ofNat ai) w) g)
        (UInt8.ofNat (mt * 32 + ai) :: t) := by
    rw [initial_byte hm ha]
    exact (Appends.putByte _).andThen hg
  unfold Width.shortest
  by_cases h1 : v < 24
  · have hf : putHead mt v = putByte (UInt8.ofNat (mt * 32 + v)) := by
      funext w
      simp only [putHead, if_pos h1]
      rw [initial_byte hm (by omega)]
    rw [hf, if_pos h1]
    exact Appends.putByte _
  rw [if_neg h1]
  by_cases h2 : v ≤ 0xff
  · have hf : putHead mt v = fun w => andThen (putByte (UInt8.ofNat (mt <<< 5) ||| 24) w)
        (putByte (UInt8.ofNat v)) := by
      funext w
      simp only [putHead, if_neg h1, if_pos h2]
    rw [hf, if_pos (by omega)]
    exact (hwide 24 (by decide) _ _ (Appends.putByte _)).congr (by simp [Head.encode, beBytes,
      Width.info, Width.bytes])
  rw [if_neg (by omega)]
  by_cases h3 : v ≤ 0xffff
  · have hf : putHead mt v = fun w => andThen (putByte (UInt8.ofNat (mt <<< 5) ||| 25) w)
        (putBytes [UInt8.ofNat (v >>> 8), UInt8.ofNat v]) := by
      funext w
      simp only [putHead, if_neg h1, if_neg h2, if_pos h3]
    rw [hf, if_pos (by omega)]
    exact (hwide 25 (by decide) _ _ (Appends.putBytes _)).congr (by simp [Head.encode, beBytes,
      Width.info, Width.bytes, hshift])
  rw [if_neg (by omega)]
  by_cases h4 : v ≤ 0xffffffff
  · have hf : putHead mt v = fun w => andThen (putByte (UInt8.ofNat (mt <<< 5) ||| 26) w)
        (putBytes [UInt8.ofNat (v >>> 24), UInt8.ofNat (v >>> 16), UInt8.ofNat (v >>> 8),
          UInt8.ofNat v]) := by
      funext w
      simp only [putHead, if_neg h1, if_neg h2, if_neg h3, if_pos h4]
    rw [hf, if_pos (by omega)]
    exact (hwide 26 (by decide) _ _ (Appends.putBytes _)).congr (by simp [Head.encode, beBytes,
      Width.info, Width.bytes, hshift])
  · have hf : putHead mt v = fun w => andThen (putByte (UInt8.ofNat (mt <<< 5) ||| 27) w)
        (putBytes [UInt8.ofNat (v >>> 56), UInt8.ofNat (v >>> 48), UInt8.ofNat (v >>> 40),
          UInt8.ofNat (v >>> 32), UInt8.ofNat (v >>> 24), UInt8.ofNat (v >>> 16),
          UInt8.ofNat (v >>> 8), UInt8.ofNat v]) := by
      funext w
      simp only [putHead, if_neg h1, if_neg h2, if_neg h3, if_neg h4]
    rw [hf, if_neg (by omega)]
    exact (hwide 27 (by decide) _ _ (Appends.putBytes _)).congr (by simp [Head.encode, beBytes,
      Width.info, Width.bytes, hshift])

/-- The head of the encoders that return their bytes is that of `put_head`. -/
theorem putHead_eq_encode {mt v : ℕ} :
    Fido.putHead mt v = Head.encode ⟨mt, .shortest v, v⟩ := by
  unfold Fido.putHead Width.shortest
  by_cases h1 : v < 24
  · rw [if_pos h1, if_pos h1]
    rfl
  rw [if_neg h1, if_neg h1]
  by_cases h2 : v ≤ 0xff
  · rw [if_pos h2, if_pos (show v < 2 ^ 8 by omega)]
    simp [Head.encode, beBytes, Width.info, Width.bytes]
  rw [if_neg h2, if_neg (show ¬v < 2 ^ 8 by omega)]
  by_cases h3 : v ≤ 0xffff
  · rw [if_pos h3, if_pos (show v < 2 ^ 16 by omega)]
    simp [Head.encode, beBytes, Width.info, Width.bytes, be16]
  rw [if_neg h3, if_neg (show ¬v < 2 ^ 16 by omega)]
  by_cases h4 : v ≤ 0xffffffff
  · rw [if_pos h4, if_pos (show v < 2 ^ 32 by omega)]
    simp [Head.encode, beBytes, Width.info, Width.bytes, be32]
  · rw [if_neg h4, if_neg (show ¬v < 2 ^ 32 by omega)]
    simp [Head.encode, beBytes, Width.info, Width.bytes, be64, be32, Nat.div_div_eq_div_mul]

/-! ### The writers -/

theorem appends_writeUint (v : ℕ) : Appends (cborWriteUint v) (cborUint v) :=
  (appends_putHead (by decide) v).congr putHead_eq_encode.symm

theorem appends_writeNegint (n : ℕ) : Appends (cborWriteNegint (-1 - n)) (cborNegint n) := by
  have hf : cborWriteNegint (-1 - n) = putHead 1 n := by
    funext w
    have hv : ¬(0 : ℤ) ≤ -1 - n := by omega
    have hn : (-((-1 : ℤ) - n + 1)).toNat = n := by omega
    rw [cborWriteNegint, if_neg hv, hn]
  rw [hf]
  exact (appends_putHead (by decide) n).congr putHead_eq_encode.symm

theorem appends_writeByteString (s : Bytes) :
    Appends (cborWriteByteString s) (cborByteString s) :=
  ((appends_putHead (by decide) s.length).congr putHead_eq_encode.symm).andThen
    (Appends.putBytes s)

/-- A text without a zero byte, which a zero byte ends. -/
theorem strlen_append {s : Bytes} (hs : 0 ∉ s) (t : Bytes) : strlen (s ++ 0 :: t) = s.length := by
  unfold strlen
  rw [List.takeWhile_append_of_pos, List.takeWhile_cons_of_neg (by simp), List.append_nil]
  intro b hb
  simp only [decide_not, Bool.not_eq_eq_eq_not, Bool.not_true, decide_eq_false_iff_not]
  rintro rfl
  exact hs hb

theorem appends_writeText {s : Bytes} (hs : 0 ∉ s) (t : Bytes) :
    Appends (cborWriteText (s ++ 0 :: t)) (cborText s) := by
  have hf : cborWriteText (s ++ 0 :: t) = fun w => andThen (putHead 3 s.length w) (putBytes s) := by
    funext w
    rw [cborWriteText, strlen_append hs, List.take_left]
  rw [hf]
  exact ((appends_putHead (by decide) s.length).congr putHead_eq_encode.symm).andThen
    (Appends.putBytes s)

theorem appends_writeArrayHeader (n : ℕ) : Appends (cborWriteArrayHeader n) (cborArrayHeader n) :=
  (appends_putHead (by decide) n).congr putHead_eq_encode.symm

theorem appends_writeMapHeader (n : ℕ) : Appends (cborWriteMapHeader n) (cborMapHeader n) :=
  (appends_putHead (by decide) n).congr putHead_eq_encode.symm

theorem appends_writeBool (b : Bool) : Appends (cborWriteBool b) (cborBool b) := by
  have hf : cborWriteBool b = putByte (UInt8.ofNat (7 * 32 + if b then 21 else 20)) := by
    funext w
    cases b <;> rfl
  rw [hf]
  exact Appends.putByte _

theorem appends_writeNull : Appends cborWriteNull [0xf6] := Appends.putByte _

end Writer

end Nixtropic.Fido
