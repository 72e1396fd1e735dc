import Nixtropic.Pgp.Memory
import Nixtropic.Ber.Length

/-!
`parse_pso_dec_body`: the peer key in the body of PSO:DECIPHER.

Every read is checked against the body. What the function accepts is compared
with the nested objects it is meant to accept.
-/

namespace Nixtropic.Pgp

/-- The length field at `off`, which the function reads twice in the same way,
and the offset behind it. -/
def lenAt (body : Bytes) (off : ℕ) : Except Fault (ℕ × ℕ) := do
  let b ← byteOf body off
  if b.toNat < 0x80 then .ok (b.toNat, off + 1)
  else if b = 0x81 then do
    require (off + 2 ≤ body.length)
    let l ← byteOf body (off + 1)
    .ok (l.toNat, off + 2)
  else if b = 0x82 then do
    require (off + 3 ≤ body.length)
    let hi ← byteOf body (off + 1)
    let lo ← byteOf body (off + 2)
    .ok (hi.toNat * 256 + lo.toNat, off + 3)
  else .error .refused

def parsePsoDecBody (body : Bytes) : Except Fault Bytes := do
  require (5 ≤ body.length)
  -- outer tag and length
  let a6 ← byteOf body 0
  require (a6 = 0xA6)
  let (a6Len, off) ← lenAt body 1
  require (off + a6Len ≤ body.length)
  -- inner tag and length
  require (off + 2 ≤ body.length)
  let t ← byteOf body off
  require (t = 0x7F)
  let t' ← byteOf body (off + 1)
  require (t' = 0x49)
  require (off + 2 < body.length)
  let (innerLen, off) ← lenAt body (off + 2)
  require (off + innerLen ≤ body.length)
  -- the key, 32 bytes
  require (off + 2 ≤ body.length)
  let k ← byteOf body off
  require (k = 0x86)
  let l ← byteOf body (off + 1)
  require (l = 0x20)
  require (off + 2 + 32 ≤ body.length)
  .ok ((body.drop (off + 2)).take 32)

/-! ### The bytes in front of the key -/

/-- What the function has seen of a body it accepts: the fields one behind
another, and both lengths inside the body. -/
structure Shape (body l₁ l₂ key rest : Bytes) (a b : ℕ) : Prop where
  outer : Ber.IsLength l₁ a
  inner : Ber.IsLength l₂ b
  key_length : key.length = 32
  eq : body = 0xA6 :: l₁ ++ (0x7F :: 0x49 :: l₂ ++ (0x86 :: 0x20 :: key ++ rest))
  outer_le : a ≤ (0x7F :: 0x49 :: l₂ ++ (0x86 :: 0x20 :: key ++ rest)).length
  inner_le : b ≤ (0x86 :: 0x20 :: key ++ rest).length

/-- Body, with the objects in it: `A6 { 7F49 { 86 20 key … } … }`, each length
that of its own contents, and `rest` behind the outer object. -/
structure WellNested (body key rest : Bytes) : Prop where
  nested : ∃ l₁ l₂ outer inner more₁ more₂, body = 0xA6 :: l₁ ++ outer ++ rest ∧
    Ber.IsLength l₁ outer.length ∧ outer = 0x7F :: 0x49 :: l₂ ++ inner ++ more₁ ∧
    Ber.IsLength l₂ inner.length ∧ inner = 0x86 :: 0x20 :: key ++ more₂ ∧ key.length = 32

section Reads

variable {body s : Bytes} {off : ℕ}

/-- A length field at an offset inside the body. -/
structure LengthAt (body : Bytes) (off : ℕ) (n off' : ℕ) (l : Bytes) : Prop where
  isLength : Ber.IsLength l n
  eq : body.drop off = l ++ body.drop off'
  next : off' = off + l.length

theorem safe_lenAt (h : off < body.length) :
    Safe (lenAt body off) fun x => ∃ l, LengthAt body off x.1 x.2 l := by
  apply safe_bind (safe_byteOf h)
  intro b hb
  split
  · next hshort => exact ⟨[b], .short b hshort, hb, rfl⟩
  · split
    · next hone =>
        subst hone
        apply safe_bind safe_require
        intro _ hroom
        apply safe_bind (safe_byteOf (by omega))
        intro l hl
        exact ⟨[0x81, l], .one l, by rw [hb, hl]; rfl, rfl⟩
    · split
      · next htwo =>
          subst htwo
          apply safe_bind safe_require
          intro _ hroom
          apply safe_bind (safe_byteOf (by omega))
          intro hi hhi
          apply safe_bind (safe_byteOf (by omega))
          intro lo hlo
          exact ⟨[0x82, hi, lo], .two hi lo, by rw [hb, hhi, hlo]; rfl, rfl⟩
      · rfl

theorem lenAt_drop {l : Bytes} {n : ℕ} (hl : Ber.IsLength l n) (h : body.drop off = l ++ s) :
    lenAt body off = .ok (n, off + l.length) := by
  have hlen : body.length - off = l.length + s.length := by
    rw [← List.length_drop, h, List.length_append]
  unfold lenAt
  cases hl with
  | short b hb =>
      rw [byteOf_drop h, ok_bind, if_pos hb]
      rfl
  | one b =>
      simp only [List.length_cons, List.length_nil] at hlen
      rw [byteOf_drop h, ok_bind, if_neg (by decide), if_pos rfl, require_pos (by omega), ok_bind,
        byteOf_drop (drop_succ_of_drop h), ok_bind]
      rfl
  | two hi lo =>
      simp only [List.length_cons, List.length_nil] at hlen
      have h1 := drop_succ_of_drop h
      rw [byteOf_drop h, ok_bind, if_neg (by decide), if_neg (by decide), if_pos rfl,
        require_pos (by omega), ok_bind, byteOf_drop h1, ok_bind,
        byteOf_drop (drop_succ_of_drop h1), ok_bind]
      rfl

/-! ### What the function accepts -/

/-- No byte outside the body is read, and a key comes with the fields in front of
it. -/
theorem safe_parse (body : Bytes) :
    Safe (parsePsoDecBody body) fun key => ∃ l₁ l₂ rest a b, Shape body l₁ l₂ key rest a b := by
  apply safe_bind safe_require
  intro _ hfive
  apply safe_bind (safe_byteOf (by omega))
  intro a6 ha6
  apply safe_bind safe_require
  rintro _ rfl
  apply safe_bind (safe_lenAt (by omega))
  rintro ⟨a, off⟩ ⟨l₁, h₁⟩
  apply safe_bind safe_require
  intro _ hle₁
  apply safe_bind safe_require
  intro _ htwo
  apply safe_bind (safe_byteOf (by omega))
  intro t ht
  apply safe_bind safe_require
  rintro _ rfl
  apply safe_bind (safe_byteOf (by omega))
  intro t' ht'
  apply safe_bind safe_require
  rintro _ rfl
  apply safe_bind safe_require
  intro _ hmore
  apply safe_bind (safe_lenAt hmore)
  rintro ⟨b, off'⟩ ⟨l₂, h₂⟩
  apply safe_bind safe_require
  intro _ hle₂
  apply safe_bind safe_require
  intro _ htwo'
  apply safe_bind (safe_byteOf (by omega))
  intro k hk
  apply safe_bind safe_require
  rintro _ rfl
  apply safe_bind (safe_byteOf (by omega))
  intro l hl
  apply safe_bind safe_require
  rintro _ rfl
  apply safe_bind safe_require
  intro _ hkey
  have hkeys : body.drop (off' + 2) =
      (body.drop (off' + 2)).take 32 ++ (body.drop (off' + 2)).drop 32 :=
    (List.take_append_drop 32 _).symm
  have hinner : body.drop off' = 0x86 :: 0x20 :: (body.drop (off' + 2)).take 32 ++
      (body.drop (off' + 2)).drop 32 := by
    rw [hk, hl, List.cons_append, List.cons_append, ← hkeys]
  have houter : body.drop off = 0x7F :: 0x49 :: l₂ ++ (0x86 :: 0x20 ::
      (body.drop (off' + 2)).take 32 ++ (body.drop (off' + 2)).drop 32) := by
    rw [← hinner, ht, ht', List.cons_append, List.cons_append, ← h₂.eq]
  refine ⟨l₁, l₂, (body.drop (off' + 2)).drop 32, a, b, h₁.isLength, h₂.isLength, ?_, ?_, ?_, ?_⟩
  · rw [List.length_take, List.length_drop]
    omega
  · rw [← houter, List.cons_append, ← h₁.eq]
    exact ha6
  · rw [← houter, List.length_drop]
    omega
  · rw [← hinner, List.length_drop]
    omega

theorem Shape.parse {l₁ l₂ key rest : Bytes} {a b : ℕ} (h : Shape body l₁ l₂ key rest a b) :
    parsePsoDecBody body = .ok key := by
  obtain ⟨h₁, h₂, hkey, heq, hle₁, hle₂⟩ := h
  have hlen := congrArg List.length heq
  simp only [List.length_append, List.length_cons, hkey] at hlen hle₁ hle₂
  have hfront : body.drop 0 = 0xA6 ::
      (l₁ ++ (0x7F :: 0x49 :: l₂ ++ (0x86 :: 0x20 :: key ++ rest))) :=
    heq
  have hd₁ := drop_succ_of_drop hfront
  have hd₂ : body.drop (1 + l₁.length) = 0x7F :: 0x49 :: l₂ ++ (0x86 :: 0x20 :: key ++ rest) := by
    rw [← List.drop_drop, hd₁, List.drop_left]
  have hd₃ : body.drop (1 + l₁.length + 1) = 0x49 :: l₂ ++ (0x86 :: 0x20 :: key ++ rest) :=
    drop_succ_of_drop hd₂
  have hd₄ : body.drop (1 + l₁.length + 2) = l₂ ++ (0x86 :: 0x20 :: key ++ rest) :=
    drop_succ_of_drop hd₃
  have hd₅ : body.drop (1 + l₁.length + 2 + l₂.length) = 0x86 :: 0x20 :: key ++ rest := by
    rw [← List.drop_drop, hd₄, List.drop_left]
  have hd₆ : body.drop (1 + l₁.length + 2 + l₂.length + 1) = 0x20 :: key ++ rest :=
    drop_succ_of_drop hd₅
  have hd₇ : body.drop (1 + l₁.length + 2 + l₂.length + 2) = key ++ rest :=
    drop_succ_of_drop hd₆
  have hl₁ := h₁.size
  have hl₂ := h₂.size
  unfold parsePsoDecBody
  rw [require_pos (by omega), ok_bind, byteOf_drop hfront, ok_bind, require_pos rfl, ok_bind,
    lenAt_drop h₁ hd₁, ok_bind]
  simp only
  rw [require_pos (by omega), ok_bind, require_pos (by omega), ok_bind, byteOf_drop hd₂, ok_bind,
    require_pos rfl, ok_bind, byteOf_drop hd₃, ok_bind, require_pos rfl, ok_bind,
    require_pos (by omega), ok_bind, lenAt_drop h₂ hd₄, ok_bind]
  simp only
  rw [require_pos (by omega), ok_bind, require_pos (by omega), ok_bind, byteOf_drop hd₅, ok_bind,
    require_pos rfl, ok_bind, byteOf_drop hd₆, ok_bind, require_pos rfl, ok_bind,
    require_pos (by omega), ok_bind, hd₇, ← hkey, List.take_left]

theorem parse_ok_iff {key : Bytes} :
    parsePsoDecBody body = .ok key ↔ ∃ l₁ l₂ rest a b, Shape body l₁ l₂ key rest a b := by
  constructor
  · intro h
    have hs := safe_parse body
    rw [h] at hs
    exact hs
  · rintro ⟨l₁, l₂, rest, a, b, h⟩
    exact h.parse

theorem parse_inside (body : Bytes) : parsePsoDecBody body ≠ .error .outside := by
  intro h
  have hs := safe_parse body
  rw [h] at hs
  cases hs

end Reads

/-! ### What it should accept -/

section Grammar

variable {body key rest : Bytes}

/-- An object in the body sticks out of the one around it: the key object out of
`7F49`, or `7F49` out of `A6`. -/
def Overhangs (body : Bytes) : Prop :=
  ∃ l₁ l₂ key rest a b, Shape body l₁ l₂ key rest a b ∧ (a < 2 + l₂.length + b ∨ b < 34)

/-- Bytes are left behind the `A6` object. -/
def Trails (body : Bytes) : Prop :=
  ∃ l₁ l₂ key rest a b, Shape body l₁ l₂ key rest a b ∧
    a < (0x7F :: 0x49 :: l₂ ++ (0x86 :: 0x20 :: key ++ rest)).length

/-- The fields of a body are what they are. -/
theorem Shape.unique {l₁ l₂ key rest l₁' l₂' key' rest' : Bytes} {a b a' b' : ℕ}
    (h : Shape body l₁ l₂ key rest a b) (h' : Shape body l₁' l₂' key' rest' a' b') :
    l₁ = l₁' ∧ l₂ = l₂' ∧ key = key' ∧ rest = rest' ∧ a = a' ∧ b = b' := by
  have heq := h.eq.symm.trans h'.eq
  simp only [List.cons_append, List.cons.injEq, true_and] at heq
  obtain ⟨ha, hl₁, heq⟩ := h.outer.unique h'.outer heq
  simp only [List.cons.injEq, true_and] at heq
  obtain ⟨hb, hl₂, heq⟩ := h.inner.unique h'.inner heq
  simp only [List.cons.injEq, true_and] at heq
  have hkey := List.append_inj heq (h.key_length.trans h'.key_length.symm)
  exact ⟨hl₁, hl₂, hkey.1, hkey.2, ha, hb⟩

/-- Nested objects are a shape in which nothing sticks out. -/
theorem wellNested_iff : WellNested body key rest ↔ ∃ l₁ l₂ more a b,
    Shape body l₁ l₂ key more a b ∧ 2 + l₂.length + b ≤ a ∧ 34 ≤ b ∧
      rest = (0x7F :: 0x49 :: l₂ ++ (0x86 :: 0x20 :: key ++ more)).drop a := by
  constructor
  · rintro ⟨l₁, l₂, outer, inner, more₁, more₂, heq, h₁, houter, h₂, hinner, hkey⟩
    subst houter hinner
    refine ⟨l₁, l₂, more₂ ++ more₁ ++ rest, _, _, ⟨h₁, h₂, hkey, ?_, ?_, ?_⟩, ?_, ?_, ?_⟩
    · rw [heq]
      simp
    · simp
    · simp
    · simp
      omega
    · simp [hkey]
    · have hfront : (0x7F :: 0x49 :: l₂ ++ (0x86 :: 0x20 :: key ++ more₂) ++ more₁) ++ rest =
          0x7F :: 0x49 :: l₂ ++ (0x86 :: 0x20 :: key ++ (more₂ ++ more₁ ++ rest)) := by
        simp
      rw [← hfront, List.drop_left]
  · rintro ⟨l₁, l₂, more, a, b, ⟨h₁, h₂, hkey, heq, hle₁, hle₂⟩, hle, hb, rfl⟩
    generalize hx : 0x86 :: 0x20 :: key ++ more = x at *
    have hinner : x.take b = 0x86 :: 0x20 :: key ++ more.take (b - 34) := by
      have hfront : (0x86 :: 0x20 :: key).length = 34 := by simp [hkey]
      rw [← hx, List.take_append, hfront, List.take_of_length_le (by omega)]
    have houter : (0x7F :: 0x49 :: l₂ ++ x).take a =
        0x7F :: 0x49 :: l₂ ++ x.take b ++ (x.drop b).take (a - (2 + l₂.length + b)) := by
      have hfront : (0x7F :: 0x49 :: l₂).length = 2 + l₂.length := by
        simp only [List.length_cons]
        omega
      have hsplit : a - (2 + l₂.length) = b + (a - (2 + l₂.length + b)) := by omega
      rw [List.take_append, hfront, List.take_of_length_le (by omega), hsplit, List.take_add,
        List.append_assoc]
    refine ⟨l₁, l₂, _, _, (x.drop b).take (a - (2 + l₂.length + b)), more.take (b - 34), ?_, ?_,
      houter, ?_, hinner, hkey⟩
    · rw [List.append_assoc, List.take_append_drop]
      exact heq
    · rwa [List.length_take, Nat.min_eq_left hle₁]
    · rwa [List.length_take, Nat.min_eq_left hle₂]

theorem WellNested.parse (h : WellNested body key rest) : parsePsoDecBody body = .ok key := by
  obtain ⟨l₁, l₂, more, a, b, hshape, -⟩ := wellNested_iff.mp h
  exact hshape.parse

end Grammar

/-- The body is read as it is meant to be exactly when no object sticks out of the
one around it: a key comes out if and only if it is the key of nested objects, and
no byte outside the body is read. With nothing to be behind the outer object,
nothing must be behind it either. -/
theorem parsePsoDecBody_nested_iff (body : Bytes) :
    (((∀ key, parsePsoDecBody body = .ok key ↔ ∃ rest, WellNested body key rest) ∧
        parsePsoDecBody body ≠ .error .outside) ↔ ¬Overhangs body) ∧
      (((∀ key, parsePsoDecBody body = .ok key ↔ WellNested body key []) ∧
        parsePsoDecBody body ≠ .error .outside) ↔ ¬Overhangs body ∧ ¬Trails body) := by
  have hover : ∀ key rest, WellNested body key rest → ¬Overhangs body := by
    rintro key rest h ⟨l₁, l₂, key', rest', a, b, hshape, hout⟩
    obtain ⟨l₁', l₂', more, a', b', hshape', hle, hb, -⟩ := wellNested_iff.mp h
    obtain ⟨-, rfl, -, -, rfl, rfl⟩ := hshape.unique hshape'
    omega
  have htrail : ∀ key, WellNested body key [] → ¬Trails body := by
    rintro key h ⟨l₁, l₂, key', rest', a, b, hshape, hout⟩
    obtain ⟨l₁', l₂', more, a', b', hshape', hle, hb, hrest⟩ := wellNested_iff.mp h
    obtain ⟨-, rfl, rfl, rfl, rfl, rfl⟩ := hshape.unique hshape'
    have hlen := congrArg List.length hrest
    simp only [List.length_nil, List.length_drop] at hlen
    omega
  refine ⟨⟨?_, ?_⟩, ⟨?_, ?_⟩⟩
  · rintro ⟨h, -⟩ hout
    obtain ⟨l₁, l₂, key, rest, a, b, hshape, -⟩ := id hout
    obtain ⟨rest', hnested⟩ := (h key).mp hshape.parse
    exact hover key rest' hnested hout
  · intro hnot
    refine ⟨fun key => ⟨fun hkey => ?_, fun ⟨rest, h⟩ => h.parse⟩, parse_inside body⟩
    obtain ⟨l₁, l₂, rest, a, b, hshape⟩ := parse_ok_iff.mp hkey
    have hin : ¬(a < 2 + l₂.length + b ∨ b < 34) := fun hout =>
      hnot ⟨l₁, l₂, key, rest, a, b, hshape, hout⟩
    exact ⟨_, wellNested_iff.mpr ⟨l₁, l₂, rest, a, b, hshape, by omega, by omega, rfl⟩⟩
  · rintro ⟨h, -⟩
    refine ⟨fun hout => ?_, fun hout => ?_⟩
    · obtain ⟨l₁, l₂, key, rest, a, b, hshape, -⟩ := id hout
      exact hover key [] ((h key).mp hshape.parse) hout
    · obtain ⟨l₁, l₂, key, rest, a, b, hshape, -⟩ := id hout
      exact htrail key ((h key).mp hshape.parse) hout
  · rintro ⟨hnot, hnotrail⟩
    refine ⟨fun key => ⟨fun hkey => ?_, fun h => h.parse⟩, parse_inside body⟩
    obtain ⟨l₁, l₂, rest, a, b, hshape⟩ := parse_ok_iff.mp hkey
    have hin : ¬(a < 2 + l₂.length + b ∨ b < 34) := fun hout =>
      hnot ⟨l₁, l₂, key, rest, a, b, hshape, hout⟩
    have hend : ¬a < (0x7F :: 0x49 :: l₂ ++ (0x86 :: 0x20 :: key ++ rest)).length := fun hout =>
      hnotrail ⟨l₁, l₂, key, rest, a, b, hshape, hout⟩
    refine wellNested_iff.mpr ⟨l₁, l₂, rest, a, b, hshape, by omega, by omega, ?_⟩
    rw [List.drop_eq_nil_of_le (by omega)]

/-- `A6 00 7F49 00 86 20` and 32 bytes: both lengths are zero, and the key is taken
all the same. -/
theorem parsePsoDecBody_overhang :
    parsePsoDecBody ([0xA6, 0, 0x7F, 0x49, 0, 0x86, 0x20] ++ List.replicate 32 7) =
        .ok (List.replicate 32 7) ∧
      ¬((∀ key, parsePsoDecBody ([0xA6, 0, 0x7F, 0x49, 0, 0x86, 0x20] ++ List.replicate 32 7) =
          .ok key ↔ ∃ rest, WellNested
            ([0xA6, 0, 0x7F, 0x49, 0, 0x86, 0x20] ++ List.replicate 32 7) key rest) ∧
        parsePsoDecBody ([0xA6, 0, 0x7F, 0x49, 0, 0x86, 0x20] ++ List.replicate 32 7) ≠
          .error .outside) := by
  have hshape : Shape ([0xA6, 0, 0x7F, 0x49, 0, 0x86, 0x20] ++ List.replicate 32 7) [0] [0]
      (List.replicate 32 7) [] 0 0 :=
    ⟨.short 0 (by decide), .short 0 (by decide), rfl, rfl, Nat.zero_le _, Nat.zero_le _⟩
  refine ⟨hshape.parse, fun h => ?_⟩
  obtain ⟨rest, hnested⟩ := (h.1 _).mp hshape.parse
  obtain ⟨l₁, l₂, more, a, b, hshape', hle, hb, -⟩ := wellNested_iff.mp hnested
  obtain ⟨-, -, -, -, rfl, rfl⟩ := hshape.unique hshape'
  omega

end Nixtropic.Pgp
