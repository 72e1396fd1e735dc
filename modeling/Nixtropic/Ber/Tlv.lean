import Nixtropic.Ber.Length

/-!
Trees of BER objects with definite lengths.

An object is a tag of one or two bytes, a length and that many bytes of value.
Bit 6 of the tag says whether the value is objects again. Trees are written with
the shortest lengths.
-/

namespace Ber

inductive Tlv where
  | primitive (tag : Bytes) (value : Bytes)
  | constructed (tag : Bytes) (items : List Tlv)

/-- The five low bits of the first byte are the tag number, or say that the
number is in the second byte. -/
def IsTag : Bytes → Prop
  | [b] => b &&& 0x1f ≠ 0x1f
  | [b, c] => b &&& 0x1f = 0x1f ∧ c.toNat < 0x80
  | _ => False

instance : DecidablePred IsTag
  | [] => inferInstanceAs (Decidable False)
  | [b] => inferInstanceAs (Decidable (b &&& 0x1f ≠ 0x1f))
  | [b, c] => inferInstanceAs (Decidable (b &&& 0x1f = 0x1f ∧ c.toNat < 0x80))
  | _ :: _ :: _ :: _ => inferInstanceAs (Decidable False)

def isConstructed (tag : Bytes) : Bool := tag.headD 0 &&& 0x20 ≠ 0

/-- The tag in front, and what is behind it. -/
def readTag : Bytes → Option (Bytes × Bytes)
  | [] => none
  | b :: s =>
      if b &&& 0x1f = 0x1f then
        match s with
        | c :: s => if c.toNat < 0x80 then some ([b, c], s) else none
        | [] => none
      else some ([b], s)

theorem IsTag.read {tag : Bytes} (h : IsTag tag) (rest : Bytes) :
    readTag (tag ++ rest) = some (tag, rest) := by
  match tag with
  | [] => exact h.elim
  | [b] => simp [readTag, show b &&& 0x1f ≠ 0x1f from h]
  | [b, c] => simp [readTag, show b &&& 0x1f = 0x1f from h.1, show c.toNat < 0x80 from h.2]
  | _ :: _ :: _ :: _ => exact h.elim

theorem IsTag.ne_nil {tag : Bytes} (h : IsTag tag) : tag ≠ [] := by
  rintro rfl
  exact h

/-! ### Writing -/

/-- Tag, shortest length, value. -/
def object (tag value : Bytes) : Bytes := tag ++ lengthBytes value.length ++ value

mutual

def Tlv.encode : Tlv → Bytes
  | .primitive tag value => object tag value
  | .constructed tag items => object tag (encodeAll items)

def encodeAll : List Tlv → Bytes
  | [] => []
  | t :: ts => t.encode ++ encodeAll ts

end

mutual

/-- The tags say what the values are, and the lengths can be written. -/
def Tlv.WellFormed : Tlv → Prop
  | .primitive tag value => IsTag tag ∧ isConstructed tag = false ∧ value.length < 2 ^ 16
  | .constructed tag items =>
      IsTag tag ∧ isConstructed tag = true ∧ (encodeAll items).length < 2 ^ 16 ∧
        AllWellFormed items

def AllWellFormed : List Tlv → Prop
  | [] => True
  | t :: ts => t.WellFormed ∧ AllWellFormed ts

end

/-! ### Reading -/

/-- The objects one after another, `fuel` of them at most on every path down. -/
def readAll : ℕ → Bytes → Option (List Tlv)
  | _, [] => some []
  | 0, _ :: _ => none
  | fuel + 1, b :: s => do
      let (tag, s) ← readTag (b :: s)
      let (n, s) ← readLength s
      if s.length < n then none
      else
        let rest ← readAll fuel (s.drop n)
        if isConstructed tag then
          let items ← readAll fuel (s.take n)
          some (.constructed tag items :: rest)
        else some (.primitive tag (s.take n) :: rest)

/-- One object and nothing behind it. Every object has two bytes at least. -/
def parse (s : Bytes) : Option Tlv :=
  match readAll s.length s with
  | some [t] => some t
  | _ => none

theorem object_length {tag : Bytes} (value : Bytes) (h : IsTag tag) :
    value.length + 2 ≤ (object tag value).length := by
  have htag := List.length_pos_iff.mpr h.ne_nil
  have hlen := lengthBytes_pos value.length
  simp only [object, List.length_append]
  omega

/-- One step of reading, from an object that was written. -/
theorem readAll_object {fuel : ℕ} {tag value rest : Bytes} (htag : IsTag tag)
    (hlen : value.length < 2 ^ 16) :
    readAll (fuel + 1) (object tag value ++ rest) =
      (readAll fuel rest).bind fun ts =>
        if isConstructed tag then
          (readAll fuel value).bind fun items => some (.constructed tag items :: ts)
        else some (.primitive tag value :: ts) := by
  obtain ⟨b, s, hs⟩ : ∃ b s, object tag value ++ rest = b :: s := by
    cases hc : object tag value ++ rest with
    | nil =>
        have hpos := object_length value htag
        rw [(List.append_eq_nil_iff.mp hc).1] at hpos
        simp at hpos
    | cons b s => exact ⟨b, s, rfl⟩
  have hread : readTag (b :: s) = some (tag, lengthBytes value.length ++ (value ++ rest)) := by
    rw [← hs, object, List.append_assoc, List.append_assoc]
    exact htag.read _
  have hlength : readLength (lengthBytes value.length ++ (value ++ rest)) =
      some (value.length, value ++ rest) := (isLength_lengthBytes hlen).read _
  rw [hs, readAll]
  simp only [hread, hlength, Option.bind_eq_bind, Option.bind_some, List.drop_left, List.take_left]
  rw [if_neg]
  simp

theorem object_pos {tag value : Bytes} (h : IsTag tag) : 0 < (object tag value).length :=
  Nat.lt_of_lt_of_le (Nat.succ_pos _) (object_length value h)

/-- What was written is read back. -/
theorem readAll_encodeAll {fuel : ℕ} {ts : List Tlv} (h : AllWellFormed ts)
    (hfuel : (encodeAll ts).length ≤ fuel) : readAll fuel (encodeAll ts) = some ts := by
  induction fuel generalizing ts with
  | zero =>
      cases ts with
      | nil => rfl
      | cons t ts =>
          have hpos : 0 < (Tlv.encode t).length := by
            cases t with
            | primitive tag value => exact object_pos h.1.1
            | constructed tag items => exact object_pos h.1.1
          simp only [encodeAll, List.length_append] at hfuel
          omega
  | succ fuel ih =>
      cases ts with
      | nil => rfl
      | cons t ts =>
          rw [encodeAll, List.length_append] at hfuel
          rw [encodeAll]
          cases t with
          | primitive tag value =>
              obtain ⟨⟨htag, hprim, hlen⟩, hrest⟩ := h
              have hsize := object_length value htag
              simp only [Tlv.encode] at hfuel ⊢
              rw [readAll_object htag hlen, ih hrest (by omega)]
              simp [hprim]
          | constructed tag items =>
              obtain ⟨⟨htag, hcons, hlen, hitems⟩, hrest⟩ := h
              have hsize := object_length (encodeAll items) htag
              simp only [Tlv.encode] at hfuel ⊢
              rw [readAll_object htag hlen, ih hrest (by omega), ih hitems (by omega)]
              simp [hcons]

theorem parse_encode {t : Tlv} (h : t.WellFormed) : parse t.encode = some t := by
  have hall : AllWellFormed [t] := ⟨h, trivial⟩
  have henc : encodeAll [t] = t.encode := by simp [encodeAll]
  have hread := readAll_encodeAll hall (Nat.le_refl _)
  rw [henc] at hread
  rw [parse, hread]

end Ber
