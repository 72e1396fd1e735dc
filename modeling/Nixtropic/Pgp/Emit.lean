import Nixtropic.Pgp.Response
import Nixtropic.Ber.Tlv

/-!
What the emitters write.

An emitter either is refused, and then the room was too small, or has appended its
bytes and touched nothing in front of them. A composite object appends the object
of exactly the bytes that its builder appended, whatever the builder is, so that
composite objects can be builders again.
-/

namespace Nixtropic.Pgp

open Crash

/-! ### Patches -/

section Patches

variable {out v : Bytes} {off k n : ℕ}

/-- Bytes behind a patch are as they were. -/
theorem slice_patch_behind (h : off + v.length ≤ out.length) (hk : off + v.length ≤ k) :
    slice (patch out off v) k n = slice out k n := by
  have hlen : (out.take off ++ v).length = off + v.length := by
    rw [List.length_append, List.length_take]
    omega
  rw [slice, slice, patch, List.drop_append, hlen, List.drop_eq_nil_of_le (by omega),
    List.nil_append, List.drop_drop]
  congr 2
  omega

theorem storeAt_ok (h : off + v.length ≤ out.length) : storeAt out off v = .ok (patch out off v) :=
  if_pos h

theorem slice_length (h : off + n ≤ out.length) : (slice out off n).length = n := by
  rw [slice, List.length_take, List.length_drop]
  omega

theorem moveIn_ok {dst src : ℕ} (hsrc : src + n ≤ out.length) (hdst : dst + n ≤ out.length) :
    moveIn out dst src n = .ok (patch out dst (slice out src n)) := by
  rw [moveIn, if_pos hsrc, storeAt_ok]
  rw [slice_length hsrc]
  exact hdst

end Patches

/-! ### Emitters -/

/-- The bytes of a tag. -/
def tagBytes (tag : ℕ) : Bytes :=
  if tag < 0x100 then [UInt8.ofNat tag] else [UInt8.ofNat (tag / 256), UInt8.ofNat tag]

/-- `v` was appended, inside the room of `max` bytes, and nothing in front of it
changed. -/
structure Appended (max : ℕ) (b b' : Buf) (v : Bytes) : Prop where
  length : b'.out.length = b.out.length
  off : b'.off = b.off + v.length
  front : b'.out.take b'.off = b.out.take b.off ++ v
  le : b'.off ≤ max

/-- `v` was appended, or refused for want of `room` bytes. -/
def Emitted (max room : ℕ) (b : Buf) (v : Bytes) (r : Except Fault Buf) : Prop :=
  match r with
  | .ok b' => Appended max b b' v
  | .error f => f = .refused ∧ max < b.off + room

section Emitters

variable {max room : ℕ} {b : Buf} {v : Bytes}

theorem Appended.trans {b' b'' : Buf} {v' : Bytes} (h : Appended max b b' v)
    (h' : Appended max b' b'' v') : Appended max b b'' (v ++ v') where
  length := h'.length.trans h.length
  off := by
    rw [h'.off, h.off, List.length_append]
    omega
  front := by
    rw [h'.front, h.front, List.append_assoc]
  le := h'.le

theorem put_appended (hout : max ≤ b.out.length) (h : b.off + v.length ≤ max) :
    ∃ b', b.put v = .ok b' ∧ Appended max b b' v := by
  refine ⟨⟨patch b.out b.off v, b.off + v.length⟩, ?_, length_patch (by omega), rfl,
    take_patch (by omega), h⟩
  rw [Buf.put, storeAt_ok (by omega)]
  rfl

/-- A check for room and a store. -/
theorem emitted_put (hout : max ≤ b.out.length) :
    Emitted max v.length b v (require (b.off + v.length ≤ max) >>= fun _ => b.put v) := by
  by_cases h : b.off + v.length ≤ max
  · obtain ⟨b', hb', happ⟩ := put_appended hout h
    rw [require_pos h, ok_bind, hb']
    exact happ
  · rw [require, if_neg h]
    exact ⟨rfl, by omega⟩

theorem Emitted.bind {r : Except Fault Buf} {f : Buf → Except Fault Buf} {v' : Bytes} {room' : ℕ}
    (h : Emitted max room b v r)
    (hf : ∀ b', Appended max b b' v → Emitted max room' b' v' (f b')) {n : ℕ}
    (hroom : room ≤ n) (hroom' : v.length + room' ≤ n) :
    Emitted max n b (v ++ v') (r >>= f) := by
  cases r with
  | error e => exact ⟨h.1, Nat.lt_of_lt_of_le h.2 (by omega)⟩
  | ok b' =>
      have happ : Appended max b b' v := h
      have hnext := hf b' happ
      show Emitted max n b (v ++ v') (f b')
      cases hr : f b' with
      | ok b'' =>
          rw [hr] at hnext
          exact happ.trans hnext
      | error e =>
          rw [hr] at hnext
          have hoff := happ.off
          exact ⟨hnext.1, Nat.lt_of_lt_of_le hnext.2 (by omega)⟩

/-- With the room there, the bytes are appended. -/
theorem Emitted.ok {r : Except Fault Buf} (h : Emitted max room b v r)
    (hroom : b.off + room ≤ max) :
    ∃ b', r = .ok b' ∧ Appended max b b' v := by
  cases r with
  | ok b' => exact ⟨b', rfl, h⟩
  | error e =>
      have hlt := h.2
      omega

theorem emitTag_emitted (hout : max ≤ b.out.length) (tag : ℕ) :
    Emitted max (tagBytes tag).length b (tagBytes tag) (emitTag max tag b) := by
  unfold emitTag tagBytes
  split
  · exact emitted_put (v := [_]) hout
  · exact emitted_put (v := [_, _]) hout

/-- The objects of a list, one behind another. -/
def objects : List (ℕ × Bytes) → Bytes
  | [] => []
  | (tag, value) :: rest => Ber.object (tagBytes tag) value ++ objects rest

/-- Three bytes are kept free behind the tag. -/
theorem openConstructed_cases (hout : max ≤ b.out.length) (tag : ℕ) :
    (openConstructed max tag b = .error .refused ∧ max < b.off + ((tagBytes tag).length + 3)) ∨
      ∃ b₁, openConstructed max tag b = .ok b₁ ∧ b₁.out.length = b.out.length ∧
        b₁.off = b.off + (tagBytes tag).length + 3 ∧ b₁.off ≤ max ∧
        b₁.out.take (b₁.off - 3) = b.out.take b.off ++ tagBytes tag := by
  have htag := emitTag_emitted hout tag
  unfold openConstructed
  cases hr : emitTag max tag b with
  | error e =>
      rw [hr] at htag
      obtain ⟨rfl, hlt⟩ := htag
      exact .inl ⟨rfl, by omega⟩
  | ok b' =>
      rw [hr] at htag
      have happ : Appended max b b' (tagBytes tag) := htag
      have hoff := happ.off
      rw [ok_bind]
      by_cases hroom : b'.off + 3 ≤ max
      · rw [require_pos hroom, ok_bind]
        exact .inr ⟨⟨b'.out, b'.off + 3⟩, rfl, happ.length, by simp only [hoff], hroom, happ.front⟩
      · rw [require, if_neg hroom]
        exact .inl ⟨rfl, by omega⟩

/-- What was appended is behind the old offset. -/
theorem Appended.slice {b' : Buf} (h : Appended max b b' v) (hb : b.off ≤ b.out.length) :
    slice b'.out b.off v.length = v := by
  have hlen : (b.out.take b.off).length = b.off := by
    rw [List.length_take, Nat.min_eq_left hb]
  have hfront := congrArg (List.drop b.off) h.front
  have hdrop : (b.out.take b.off ++ v).drop b.off = v := by
    rw [List.drop_append, hlen, Nat.sub_self, List.drop_zero, List.drop_eq_nil_of_le (by omega),
      List.nil_append]
  rw [h.off, List.drop_take, hdrop, Nat.add_sub_cancel_left] at hfront
  exact hfront

theorem Appended.take_front {b' : Buf} (h : Appended max b b' v) (hb : b.off ≤ b.out.length) {k : ℕ}
    (hk : k ≤ b.off) : b'.out.take k = b.out.take k := by
  have hfront := congrArg (List.take k) h.front
  have hoff := h.off
  rw [List.take_take, Nat.min_eq_left (by omega), List.take_append_of_le_length, List.take_take,
    Nat.min_eq_left hk] at hfront
  · exact hfront
  · rw [List.length_take]
    omega

/-- A length of `L` in the three bytes in front of the contents, and the contents
shifted to it. -/
theorem shift_contents {out P L : Bytes} {lenOff : ℕ} (hout : lenOff + 3 + v.length ≤ out.length)
    (hfront : out.take lenOff = P) (hL : L.length ≤ 3) :
    (patch (patch out lenOff L) (lenOff + L.length) v).length = out.length ∧
      (patch (patch out lenOff L) (lenOff + L.length) v).take (lenOff + L.length + v.length) =
        P ++ (L ++ v) := by
  have hp : (patch out lenOff L).length = out.length := length_patch (by omega)
  refine ⟨?_, ?_⟩
  · rw [length_patch (by omega), hp]
  · rw [take_patch (by omega), take_patch (by omega), hfront, List.append_assoc]

/-- The length goes in front of the contents, and the contents behind it. -/
theorem closeConstructed_ok {start lenOff : ℕ} {P : Bytes} (hstart : start = lenOff + 3)
    (hoff : b.off = start + v.length) (hout : b.off ≤ b.out.length) (hfront : b.out.take lenOff = P)
    (hval : slice b.out start v.length = v) :
    ∃ b', closeConstructed start b = .ok b' ∧ b'.out.length = b.out.length ∧
      b'.off = lenOff + (Ber.lengthBytes v.length).length + v.length ∧
      b'.out.take b'.off = P ++ (Ber.lengthBytes v.length ++ v) := by
  have hl : start - 3 = lenOff := by omega
  have hn : b.off - start = v.length := by omega
  have hroom : lenOff + 3 + v.length ≤ b.out.length := by omega
  have hlong := Ber.lengthBytes_le v.length
  have hshift := shift_contents hroom hfront hlong
  have hmoved : ∀ L : Bytes, L.length ≤ 3 → slice (patch b.out lenOff L) start v.length = v := by
    intro L hL
    rw [slice_patch_behind (by omega) (by omega), hval]
  have hlen : ∀ L : Bytes, L.length ≤ 3 → (patch b.out lenOff L).length = b.out.length := by
    intro L hL
    exact length_patch (by omega)
  unfold closeConstructed
  simp only [hl, hn]
  revert hshift
  unfold Ber.lengthBytes
  split
  · intro hshift
    have h₁ := hlen [UInt8.ofNat v.length] (by simp)
    rw [storeAt_ok (by simp only [List.length_cons, List.length_nil]; omega), ok_bind,
      moveIn_ok (by omega) (by omega), ok_bind, hmoved _ (by simp)]
    have hend : b.off - 2 = lenOff + 1 + v.length := by omega
    rw [hend]
    exact ⟨_, rfl, hshift.1, rfl, hshift.2⟩
  · split
    · intro hshift
      have h₁ := hlen [0x81] (by simp)
      have h₂ := hlen [0x81, UInt8.ofNat v.length] (by simp)
      have hboth : patch (patch b.out lenOff [0x81]) (lenOff + 1) [UInt8.ofNat v.length] =
          patch b.out lenOff [0x81, UInt8.ofNat v.length] :=
        patch_patch (a := [0x81]) (by simp only [List.length_cons, List.length_nil]; omega)
      rw [storeAt_ok (by simp only [List.length_cons, List.length_nil]; omega), ok_bind,
        storeAt_ok (by simp only [List.length_cons, List.length_nil]; omega), ok_bind, hboth,
        moveIn_ok (by omega) (by omega), ok_bind, hmoved _ (by simp)]
      have hend : b.off - 1 = lenOff + 2 + v.length := by omega
      rw [hend]
      exact ⟨_, rfl, hshift.1, rfl, hshift.2⟩
    · intro hshift
      have h₁ := hlen [0x82] (by simp)
      have h₂ := hlen [0x82, UInt8.ofNat (v.length / 256)] (by simp)
      have h₃ := hlen [0x82, UInt8.ofNat (v.length / 256), UInt8.ofNat v.length] (by simp)
      have hboth : patch (patch b.out lenOff [0x82]) (lenOff + 1) [UInt8.ofNat (v.length / 256)] =
          patch b.out lenOff [0x82, UInt8.ofNat (v.length / 256)] :=
        patch_patch (a := [0x82]) (by simp only [List.length_cons, List.length_nil]; omega)
      have hall : patch (patch b.out lenOff [0x82, UInt8.ofNat (v.length / 256)]) (lenOff + 2)
          [UInt8.ofNat v.length] =
          patch b.out lenOff [0x82, UInt8.ofNat (v.length / 256), UInt8.ofNat v.length] :=
        patch_patch (a := [0x82, UInt8.ofNat (v.length / 256)])
          (by simp only [List.length_cons, List.length_nil]; omega)
      rw [storeAt_ok (by simp only [List.length_cons, List.length_nil]; omega), ok_bind,
        storeAt_ok (by simp only [List.length_cons, List.length_nil]; omega), ok_bind, hboth,
        storeAt_ok (by simp only [List.length_cons, List.length_nil]; omega), ok_bind, hall]
      refine ⟨_, rfl, h₃, ?_, ?_⟩
      · simp only [List.length_cons, List.length_nil]
        omega
      · -- the contents are where they were
        have hstay : slice (patch b.out lenOff [0x82, UInt8.ofNat (v.length / 256),
            UInt8.ofNat v.length]) start v.length = v := hmoved _ (by simp)
        have hfront₃ : (patch b.out lenOff [0x82, UInt8.ofNat (v.length / 256),
            UInt8.ofNat v.length]).take start =
            b.out.take lenOff ++ [0x82, UInt8.ofNat (v.length / 256), UInt8.ofNat v.length] := by
          rw [hstart]
          exact take_patch (v := [0x82, _, _]) (by omega)
        simp only [hoff]
        rw [List.take_add, hfront₃, ← slice, hstay, hfront, List.append_assoc]

/-- A composite object around what was appended to the kept bytes. -/
theorem closeConstructed_appended {b₁ b₂ : Buf} {tag : ℕ} (hout : max ≤ b.out.length)
    (hlen : b₁.out.length = b.out.length) (hoff : b₁.off = b.off + (tagBytes tag).length + 3)
    (hle : b₁.off ≤ max) (hfront : b₁.out.take (b₁.off - 3) = b.out.take b.off ++ tagBytes tag)
    (h : Appended max b₁ b₂ v) :
    ∃ b₃, closeConstructed b₁.off b₂ = .ok b₃ ∧
      Appended max b b₃ (Ber.object (tagBytes tag) v) := by
  have hlong := Ber.lengthBytes_le v.length
  have hlen₂ := h.length
  have hoff₂ := h.off
  have hle₂ := h.le
  have hP : b₂.out.take (b₁.off - 3) = b.out.take b.off ++ tagBytes tag := by
    rw [h.take_front (by omega) (by omega), hfront]
  obtain ⟨b₃, hclose, hl, ho, hf⟩ := closeConstructed_ok (b := b₂)
    (by omega) hoff₂ (by omega) hP (h.slice (by omega))
  refine ⟨b₃, hclose, by omega, ?_, ?_, by omega⟩
  · simp only [ho, Ber.object, List.length_append]
    omega
  · rw [hf, Ber.object]
    simp only [List.append_assoc]

end Emitters

/-! ### Builders -/

section Builders

variable {F : PgpPrims} {A : BoardFate → Prop} {C : Board Note → Prop} {max room : ℕ}
  {I : PgpRam → Board Note → Prop} {K : Bytes → PgpRam → Board Note → Prop} {builder : Builder}

/-- From any buffer, and from any state in `I`, the builder appends bytes in `K`, or
is refused for want of `room` bytes. -/
def Builds (F : PgpPrims) (A : BoardFate → Prop) (C : Board Note → Prop) (max room : ℕ)
    (I : PgpRam → Board Note → Prop) (K : Bytes → PgpRam → Board Note → Prop)
    (builder : Builder) : Prop :=
  ∀ b : Buf, max ≤ b.out.length → b.off ≤ max → ∀ u w, I u w →
    swp (pgpBoard F) A (builder b) (fun r u' w' => match r with
      | .ok b' => ∃ v, K v u' w' ∧ Appended max b b' v
      | .error f => f = .refused ∧ max < b.off + room) C u w

/-- A composite object is the object of exactly the bytes its builder appended. -/
theorem Builds.constructed (h : Builds F A C max room I K builder) (tag : ℕ) :
    Builds F A C max ((tagBytes tag).length + 3 + room) I
      (fun s u w => ∃ v, K v u w ∧ s = Ber.object (tagBytes tag) v)
      (emitConstructed max tag builder) := by
  intro b hout hb u w hI
  unfold emitConstructed
  rcases openConstructed_cases hout tag with ⟨hopen, hlt⟩ | ⟨b₁, hopen, hlen, hoff, hle, hfront⟩
  · rw [hopen]
    exact ⟨rfl, by omega⟩
  · rw [hopen]
    simp only
    rw [swp_bind]
    refine swp_mono (h b₁ (by omega) hle u w hI) ?_ fun _ hc => hc
    intro r u' w' hr
    cases r with
    | error e => exact ⟨hr.1, by omega⟩
    | ok b₂ =>
        obtain ⟨v, hK, happ⟩ := hr
        obtain ⟨b₃, hclose, happ₃⟩ := closeConstructed_appended hout hlen hoff hle hfront happ
        simp only [hclose]
        exact ⟨_, ⟨v, hK, rfl⟩, happ₃⟩

end Builders

end Nixtropic.Pgp
