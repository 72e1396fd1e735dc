import Mathlib.Data.Nat.Notation
import Mathlib.Tactic.Ring

/-!
The head of a data item of RFC 8949: three bits of major type and an argument.

The argument is in the initial byte itself, or in the 1, 2, 4 or 8 bytes after
it. Nothing here asks for the shortest of these, and nothing says yet what the
major types mean.
-/

namespace Cbor

abbrev Bytes := List UInt8

/-! ### Big-endian numbers -/

/-- The `k` bytes of `v`, most significant first. -/
def beBytes : ℕ → ℕ → Bytes
  | 0, _ => []
  | k + 1, v => UInt8.ofNat (v / 256 ^ k) :: beBytes k v

/-- The bytes `s` read after the number `v` was. -/
def beFrom (v : ℕ) : Bytes → ℕ
  | [] => v
  | b :: s => beFrom (v * 256 + b.toNat) s

def beVal (s : Bytes) : ℕ := beFrom 0 s

@[simp] theorem beBytes_length (k v : ℕ) : (beBytes k v).length = k := by
  induction k with
  | zero => rfl
  | succ k ih => rw [beBytes, List.length_cons, ih]

theorem beFrom_eq (v : ℕ) (s : Bytes) : beFrom v s = v * 256 ^ s.length + beVal s := by
  induction s generalizing v with
  | nil => simp [beFrom, beVal]
  | cons b s ih =>
      show beFrom (v * 256 + b.toNat) s = _ + beFrom (0 * 256 + b.toNat) s
      rw [ih, ih (0 * 256 + b.toNat), List.length_cons, Nat.pow_succ]
      ring

theorem beVal_cons (b : UInt8) (s : Bytes) :
    beVal (b :: s) = b.toNat * 256 ^ s.length + beVal s := by
  show beFrom (0 * 256 + b.toNat) s = _
  rw [beFrom_eq, Nat.zero_mul, Nat.zero_add]

theorem beVal_lt (s : Bytes) : beVal s < 256 ^ s.length := by
  induction s with
  | nil => simp [beVal, beFrom]
  | cons b s ih =>
      have hb : b.toNat + 1 ≤ 256 := b.toNat_lt
      have hm := Nat.mul_le_mul_right (256 ^ s.length) hb
      rw [Nat.add_mul] at hm
      rw [beVal_cons, List.length_cons, Nat.pow_succ]
      omega

theorem beVal_beBytes (k v : ℕ) : beVal (beBytes k v) = v % 256 ^ k := by
  induction k with
  | zero => simp [beBytes, beVal, beFrom, Nat.mod_one]
  | succ k ih =>
      rw [beBytes, beVal_cons, beBytes_length, ih, Nat.pow_succ, Nat.mod_mul]
      have h : (UInt8.ofNat (v / 256 ^ k)).toNat = v / 256 ^ k % 256 := by simp
      rw [h]
      ring

theorem beVal_beBytes_of_lt {k v : ℕ} (h : v < 256 ^ k) : beVal (beBytes k v) = v := by
  rw [beVal_beBytes, Nat.mod_eq_of_lt h]

theorem beBytes_beVal (s : Bytes) : beBytes s.length (beVal s) = s := by
  -- the leading bytes of a longer number do not reach the bytes of a shorter one
  have hmod (k a b : ℕ) (h : a % 256 ^ k = b % 256 ^ k) : beBytes k a = beBytes k b := by
    induction k with
    | zero => rfl
    | succ k ih =>
        have hdiv : a / 256 ^ k % 256 = b / 256 ^ k % 256 := by
          rw [← Nat.mod_mul_right_div_self, ← Nat.mod_mul_right_div_self, ← Nat.pow_succ, h]
        have hb : UInt8.ofNat (a / 256 ^ k) = UInt8.ofNat (b / 256 ^ k) := by
          apply UInt8.toNat_inj.mp
          simpa using hdiv
        have hk : a % 256 ^ k = b % 256 ^ k := by
          have := congrArg (· % 256 ^ k) h
          simpa [Nat.pow_succ, Nat.mod_mul_right_mod] using this
        rw [beBytes, beBytes, hb, ih hk]
  induction s with
  | nil => rfl
  | cons b s ih =>
      have hlt := beVal_lt s
      have hdiv : beVal (b :: s) / 256 ^ s.length = b.toNat := by
        rw [beVal_cons, Nat.add_comm, Nat.add_mul_div_right _ _ (Nat.pow_pos (by decide)),
          Nat.div_eq_of_lt hlt, Nat.zero_add]
      have hrest : beVal (b :: s) % 256 ^ s.length = beVal s % 256 ^ s.length := by
        rw [beVal_cons, Nat.add_comm, Nat.add_mul_mod_self_right]
      rw [List.length_cons, beBytes, hdiv, hmod _ _ _ hrest, ih]
      simp

/-! ### Heads -/

/-- Where the argument of a head is. -/
inductive Width where
  | zero
  | one
  | two
  | four
  | eight
  deriving DecidableEq, Repr

namespace Width

/-- The bytes after the initial one. -/
def bytes : Width → ℕ
  | zero => 0
  | one => 1
  | two => 2
  | four => 4
  | eight => 8

/-- The arguments of this width are below this. -/
def bound : Width → ℕ
  | zero => 24
  | w => 256 ^ w.bytes

/-- The additional information: the low five bits of the initial byte. -/
def info (v : ℕ) : Width → ℕ
  | zero => v
  | one => 24
  | two => 25
  | four => 26
  | eight => 27

/-- The width that an additional information says; 28 to 30 say none, and 31 is
kept for what has no length. -/
def ofInfo (ai : ℕ) : Option Width :=
  if ai < 24 then some zero
  else if ai = 24 then some one
  else if ai = 25 then some two
  else if ai = 26 then some four
  else if ai = 27 then some eight
  else none

/-- The argument of a head of this width: its additional information, or the bytes `s` after
it. -/
def arg (w : Width) (ai : ℕ) (s : Bytes) : ℕ :=
  if w = zero then ai else beVal (s.take w.bytes)

/-- The shortest width of an argument. -/
def shortest (v : ℕ) : Width :=
  if v < 24 then zero
  else if v < 2 ^ 8 then one
  else if v < 2 ^ 16 then two
  else if v < 2 ^ 32 then four
  else eight

theorem info_lt {w : Width} {v : ℕ} (h : v < w.bound) : w.info v < 32 := by
  cases w with
  | zero => exact Nat.lt_trans h (by decide)
  | _ => exact of_decide_eq_true rfl

theorem ofInfo_info {w : Width} {v : ℕ} (h : v < w.bound) : ofInfo (w.info v) = some w := by
  cases w with
  | zero => exact if_pos h
  | _ => rfl

/-- The additional information says the width, and the argument when it holds it. -/
theorem info_of_ofInfo {ai v : ℕ} {w : Width} (h : ofInfo ai = some w) (hz : w = zero → v = ai) :
    w.info v = ai := by
  unfold ofInfo at h
  split at h
  · obtain rfl := Option.some.inj h
    exact hz rfl
  · repeat' split at h
    all_goals first
      | (obtain rfl := Option.some.inj h; simp [info]; omega)
      | cases h

theorem lt_of_ofInfo_none {ai : ℕ} (h : ofInfo ai = none) : 27 < ai := by
  unfold ofInfo at h
  repeat' split at h
  all_goals first
    | omega
    | cases h

theorem bound_of_ne {w : Width} (h : w ≠ zero) : w.bound = 256 ^ w.bytes := by
  cases w with
  | zero => exact absurd rfl h
  | _ => rfl

/-- Only a head of eight bytes has an argument that is not below `2 ^ 32`. -/
theorem bound_le {w : Width} (h : w ≠ eight) : w.bound ≤ 2 ^ 32 := by
  cases w with
  | eight => exact absurd rfl h
  | _ => decide

theorem shortest_fits {v : ℕ} (h : v < 2 ^ 64) : v < (shortest v).bound := by
  unfold shortest
  split
  · assumption
  · split
    · assumption
    · split
      · assumption
      · split
        · assumption
        · exact h

/-- No width that an argument fits has fewer bytes. -/
theorem shortest_least {w : Width} {v : ℕ} (h : v < w.bound) : (shortest v).bytes ≤ w.bytes := by
  have h : v < 24 ∨ 1 ≤ w.bytes ∧ v < 256 ^ w.bytes := by
    cases w with
    | zero => exact .inl h
    | _ => exact .inr ⟨by decide, h⟩
  unfold shortest
  split
  · exact Nat.zero_le _
  · have hw := h.resolve_left ‹_›
    split
    · exact hw.1
    · split
      · show 2 ≤ w.bytes
        by_contra hlt
        have : w.bytes = 1 := by omega
        rw [this] at hw
        omega
      · split
        · show 4 ≤ w.bytes
          cases w with
          | zero | one | two => have := hw.2; simp only [bytes] at this; omega
          | four | eight => decide
        · show 8 ≤ w.bytes
          cases w with
          | zero | one | two | four => have := hw.2; simp only [bytes] at this; omega
          | eight => decide

end Width

/-- A major type and its argument. -/
structure Head where
  major : ℕ
  width : Width
  val : ℕ
  deriving DecidableEq, Repr

namespace Head

/-- The major type has three bits, and the argument fits its width. -/
structure Fits (h : Head) : Prop where
  major : h.major < 8
  val : h.val < h.width.bound

def encode (h : Head) : Bytes :=
  UInt8.ofNat (h.major * 32 + h.width.info h.val) :: beBytes h.width.bytes h.val

@[simp] theorem encode_length (h : Head) : h.encode.length = h.width.bytes + 1 := by
  simp [encode]

end Head

/-- The head at the front, and what comes after it. -/
def decodeHead : Bytes → Option (Head × Bytes)
  | [] => none
  | b :: s =>
      match Width.ofInfo (b.toNat % 32) with
      | none => none
      | some w =>
          if s.length < w.bytes then none
          else some (⟨b.toNat / 32, w, w.arg (b.toNat % 32) s⟩, s.drop w.bytes)

/-- What a head was encoded to is read back. -/
theorem decodeHead_encode {h : Head} (hf : h.Fits) (s : Bytes) :
    decodeHead (h.encode ++ s) = some (h, s) := by
  obtain ⟨m, w, v⟩ := h
  have hi : w.info v < 32 := Width.info_lt hf.val
  have hm : m < 8 := hf.major
  have hb : (UInt8.ofNat (m * 32 + w.info v)).toNat = m * 32 + w.info v := by
    simp
    omega
  have hmod : (m * 32 + w.info v) % 32 = w.info v := by omega
  have hdiv : (m * 32 + w.info v) / 32 = m := by omega
  have hlen : ¬(beBytes w.bytes v ++ s).length < w.bytes := by simp
  have harg : w.arg (w.info v) (beBytes w.bytes v ++ s) = v := by
    unfold Width.arg
    split
    · rename_i hz
      rw [hz]
      rfl
    · rename_i hz
      rw [List.take_left' (beBytes_length _ _), beVal_beBytes_of_lt]
      exact Width.bound_of_ne hz ▸ hf.val
  show decodeHead (UInt8.ofNat (m * 32 + w.info v) :: (beBytes w.bytes v ++ s)) = _
  simp only [decodeHead, hb, hmod, hdiv, Width.ofInfo_info hf.val, if_neg hlen, harg,
    List.drop_left' (beBytes_length _ _)]

namespace Width

/-- An argument that is read fits its width. -/
theorem arg_lt {w : Width} {ai : ℕ} {s : Bytes} (hw : ofInfo ai = some w)
    (hs : w.bytes ≤ s.length) : w.arg ai s < w.bound := by
  unfold arg
  split
  · rename_i hz
    rw [hz] at hw ⊢
    -- the argument is in the byte itself only below 24
    unfold ofInfo at hw
    split at hw
    · assumption
    · repeat' split at hw
      all_goals cases hw
  · rename_i hz
    have h := beVal_lt (s.take w.bytes)
    rw [List.length_take, Nat.min_eq_left hs] at h
    rwa [bound_of_ne hz]

/-- The bytes it was read from are its bytes. -/
theorem beBytes_arg {w : Width} {ai : ℕ} {s : Bytes} (hs : w.bytes ≤ s.length) :
    beBytes w.bytes (w.arg ai s) = s.take w.bytes := by
  unfold arg
  split
  · rename_i hz
    rw [hz]
    rfl
  · have h := beBytes_beVal (s.take w.bytes)
    rwa [List.length_take, Nat.min_eq_left hs] at h

end Width

/-- A head that is read was encoded there. -/
theorem encode_of_decodeHead {b s : Bytes} {h : Head} (hd : decodeHead b = some (h, s)) :
    h.Fits ∧ b = h.encode ++ s := by
  cases b with
  | nil => cases hd
  | cons b t =>
      simp only [decodeHead] at hd
      split at hd
      · cases hd
      · rename_i w hw
        split at hd
        · cases hd
        · rename_i hlen
          obtain ⟨rfl, rfl⟩ := Prod.mk.inj (Option.some.inj hd)
          have hlen := Nat.not_lt.mp hlen
          have hb : b.toNat < 256 := b.toNat_lt
          have hdm : b.toNat / 32 * 32 + b.toNat % 32 = b.toNat := by omega
          have hinfo : w.info (w.arg (b.toNat % 32) t) = b.toNat % 32 :=
            Width.info_of_ofInfo hw fun hz => if_pos hz
          refine ⟨⟨?_, Width.arg_lt hw hlen⟩, ?_⟩
          · show b.toNat / 32 < 8
            omega
          · simp only [Head.encode, hinfo, Width.beBytes_arg hlen, hdm]
            simp

end Cbor
