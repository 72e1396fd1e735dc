import Nixtropic.Pgp.Applet

/-!
Which byte strings are commands.

A short APDU is four bytes, then nothing, Le, Lc and the data, or these and Le. The
dispatcher is compared with that: what it takes for a command, with which data, and
what it does with every other string.
-/

namespace Nixtropic.Pgp

open Crash

/-- The string is a short APDU with this header and data field. -/
inductive IsApdu : Bytes → UInt8 → Apdu → Prop where
  | case1 (cla ins p1 p2 : UInt8) : IsApdu [cla, ins, p1, p2] cla ⟨ins, p1, p2, []⟩
  | case2 (cla ins p1 p2 le : UInt8) : IsApdu [cla, ins, p1, p2, le] cla ⟨ins, p1, p2, []⟩
  | case3 (cla ins p1 p2 lc : UInt8) (b : Bytes) : b ≠ [] → lc.toNat = b.length →
      IsApdu (cla :: ins :: p1 :: p2 :: lc :: b) cla ⟨ins, p1, p2, b⟩
  | case4 (cla ins p1 p2 lc le : UInt8) (b : Bytes) : b ≠ [] → lc.toNat = b.length →
      IsApdu (cla :: ins :: p1 :: p2 :: lc :: b ++ [le]) cla ⟨ins, p1, p2, b⟩

/-- Both dispatchers' checks of the bytes. -/
def framed (inp : Bytes) : Except ℕ Apdu :=
  if inp.length < 4 ∨ apduMaxLen < inp.length then .error swWrongLength else frame inp

section Framing

variable {F : PgpPrims} {inp out : Bytes}

/-- A string that is no command is answered at once. -/
theorem apduDispatchProcess_refused {sw : ℕ} (h : framed inp = .error sw) :
    apduDispatchProcess F inp out = pure (emitSw out.length (.bare sw)) := by
  unfold framed at h
  rw [apduDispatchProcess]
  split at h
  · next hsize =>
      cases h
      rw [if_pos hsize]
  · next hsize => rw [if_neg hsize, openpgpAppletDispatch, h]

/-- A command is served with the data that were read. -/
theorem apduDispatchProcess_served {a : Apdu} (h : framed inp = .ok a) :
    apduDispatchProcess F inp out =
      serve F a out >>= fun r => pure (emitSw out.length r) := by
  unfold framed at h
  rw [apduDispatchProcess]
  split at h
  · cases h
  · next hsize => rw [if_neg hsize, openpgpAppletDispatch, h]

theorem emitSw_bare {max sw : ℕ} (h : 2 ≤ max) : emitSw max (.bare sw) = some (be16 sw) := by
  rw [emitSw, if_neg (by omega)]
  simp [Resp.bare]

/-- A refused string is answered with one of two status words. -/
theorem framed_error {sw : ℕ} (h : framed inp = .error sw) :
    sw = swWrongLength ∨ sw = swClaNotSupported := by
  unfold framed frame at h
  split at h
  · cases h
    exact .inl rfl
  · split at h
    · cases h
      exact .inl rfl
    · split at h
      · cases h
        exact .inr rfl
      · split at h
        · cases h
          exact .inl rfl
        · cases h

/-- The data field and more than one byte behind it. -/
structure Overlong (inp : Bytes) : Prop where
  cla : inp.getD 0 0 = 0x00 ∨ inp.getD 0 0 = 0x10
  data : 1 ≤ byteAt inp 4
  long : 6 + byteAt inp 4 < inp.length
  fits : inp.length ≤ apduMaxLen

theorem apduBody_cons (cla ins p1 p2 lc : UInt8) (b : Bytes) :
    apduBody (cla :: ins :: p1 :: p2 :: lc :: b) =
      if b.length < lc.toNat then (if b = [] then some [] else none)
      else if lc.toNat = 0 ∧ b ≠ [] then none
      else some (b.take lc.toNat) := by
  have hlc : byteAt (cla :: ins :: p1 :: p2 :: lc :: b) 4 = lc.toNat := rfl
  have hlen : (cla :: ins :: p1 :: p2 :: lc :: b).length = b.length + 5 := rfl
  rw [apduBody, if_pos (by omega), hlc, hlen]
  simp only [List.drop_succ_cons, List.drop_zero]
  cases b with
  | nil =>
      by_cases hz : lc.toNat = 0
      · simp [hz]
      · simp [Nat.pos_of_ne_zero hz]
  | cons x b =>
      simp only [List.length_cons, ne_eq, reduceCtorEq, not_false_eq_true, and_true, if_false]
      by_cases hshort : b.length + 1 < lc.toNat
      · rw [if_pos (by omega), if_neg (by omega), if_pos hshort]
      · rw [if_neg (by omega), if_neg hshort]
        by_cases hz : lc.toNat = 0
        · rw [if_pos ⟨hz, by omega⟩, if_pos hz]
        · rw [if_neg (fun h => hz h.1), if_neg hz]

theorem isApdu_cons {cla ins p1 p2 lc : UInt8} {b body : Bytes}
    (h : (if b.length < lc.toNat then (if b = [] then some [] else none)
      else if lc.toNat = 0 ∧ b ≠ [] then none else some (b.take lc.toNat)) = some body)
    (hlong : 1 ≤ lc.toNat → ¬1 + lc.toNat < b.length) :
    IsApdu (cla :: ins :: p1 :: p2 :: lc :: b) cla ⟨ins, p1, p2, body⟩ := by
  split at h
  · split at h
    · next hb =>
        cases h
        subst hb
        exact .case2 cla ins p1 p2 lc
    · cases h
  · next hroom =>
      split at h
      · cases h
      · next hzero =>
          cases h
          by_cases hlc : lc.toNat = 0
          · have hb : b = [] := by
              by_contra hb
              exact hzero ⟨hlc, hb⟩
            subst hb
            rw [List.take_nil]
            exact .case2 cla ins p1 p2 lc
          · have hlast := hlong (by omega)
            have hne : b.take lc.toNat ≠ [] := by
              apply List.ne_nil_of_length_pos
              rw [List.length_take]
              omega
            have hlen : lc.toNat = (b.take lc.toNat).length := by
              rw [List.length_take]
              omega
            by_cases hall : b.length = lc.toNat
            · have hb : b.take lc.toNat = b := List.take_of_length_le (by omega)
              rw [hb] at hne hlen ⊢
              exact .case3 cla ins p1 p2 lc b hne hlen
            · obtain ⟨le, hle⟩ : ∃ le, b.drop lc.toNat = [le] := by
                apply List.length_eq_one_iff.mp
                rw [List.length_drop]
                omega
              have hb : b = b.take lc.toNat ++ [le] := by
                rw [← hle, List.take_append_drop]
              have happ := IsApdu.case4 cla ins p1 p2 lc le (b.take lc.toNat) hne hlen
              rwa [List.cons_append, List.cons_append, List.cons_append, List.cons_append,
                List.cons_append, ← hb] at happ

/-- What is taken for a command, with at most one byte behind its data, is a short
APDU with these data. -/
theorem isApdu_of_framed {a : Apdu} (h : framed inp = .ok a) (hlong : ¬Overlong inp) :
    IsApdu inp (inp.getD 0 0) a := by
  unfold framed frame at h
  split at h
  · cases h
  · next hsize =>
      split at h
      · cases h
      · split at h
        · cases h
        · next hcla =>
            split at h
            · cases h
            · next body hbody =>
                cases h
                match inp with
                | [] | [_] | [_, _] | [_, _, _] => simp at hsize
                | [cla, ins, p1, p2] =>
                    have hnil : body = [] := by
                      simpa [apduBody] using hbody.symm
                    subst hnil
                    exact .case1 cla ins p1 p2
                | cla :: ins :: p1 :: p2 :: lc :: b =>
                    rw [apduBody_cons] at hbody
                    have hcla' : cla = 0x00 ∨ cla = 0x10 := by
                      by_contra hcon
                      exact hcla ⟨fun h0 => hcon (.inl h0), fun h1 => hcon (.inr h1)⟩
                    refine isApdu_cons hbody fun hlc hmore => hlong ⟨hcla', hlc, ?_, by omega⟩
                    show 6 + lc.toNat < b.length + 5
                    omega

end Framing

/-- The data of short APDUs. -/
theorem isApdu_data {s : Bytes} {cla : UInt8} {a : Apdu} (h : IsApdu s cla a) :
    s.length = 4 ∨ s.length = 5 ∨
      1 ≤ byteAt s 4 ∧ (s.length = 5 + byteAt s 4 ∨ s.length = 6 + byteAt s 4) := by
  cases h with
  | case1 cla ins p1 p2 => exact .inl rfl
  | case2 cla ins p1 p2 le => exact .inr (.inl rfl)
  | case3 cla ins p1 p2 lc b hb hlc =>
      have hpos := List.length_pos_iff.mpr hb
      have h4 : byteAt (cla :: ins :: p1 :: p2 :: lc :: b) 4 = lc.toNat := rfl
      simp only [List.length_cons, h4]
      omega
  | case4 cla ins p1 p2 lc le b hb hlc =>
      have hpos := List.length_pos_iff.mpr hb
      have h4 : byteAt (cla :: ins :: p1 :: p2 :: lc :: b ++ [le]) 4 = lc.toNat := rfl
      simp only [h4, List.length_append, List.length_cons, List.length_nil]
      omega

theorem Overlong.framed {inp : Bytes} (h : Overlong inp) : ∃ a, framed inp = .ok a := by
  have hdata := h.data
  have hlong := h.long
  have hfits := h.fits
  have hbody : apduBody inp = some ((inp.drop 5).take (byteAt inp 4)) := by
    rw [apduBody, if_pos (by omega), if_neg (by omega), if_neg (by omega)]
  refine ⟨⟨inp.getD 1 0, inp.getD 2 0, inp.getD 3 0, (inp.drop 5).take (byteAt inp 4)⟩, ?_⟩
  rw [Pgp.framed, if_neg (by omega), frame, if_neg (by omega), if_neg, hbody]
  rintro ⟨h0, h1⟩
  rcases h.cla with hc | hc
  · exact h0 hc
  · exact h1 hc

/-- The framing that is meant: a handler runs only for a short APDU, with its data,
and any other string is answered with 6700 or 6E00 by a program that calls nothing
and changes nothing. -/
def FramedWell (F : PgpPrims) (inp : Bytes) : Prop :=
  (∀ a, framed inp = .ok a → IsApdu inp (inp.getD 0 0) a) ∧
    ((∀ cla a, ¬IsApdu inp cla a) → ∀ out : Bytes, 2 ≤ out.length →
      apduDispatchProcess F inp out = pure (some (be16 swWrongLength)) ∨
        apduDispatchProcess F inp out = pure (some (be16 swClaNotSupported)))

/-- The dispatchers read a string as they are meant to exactly when it does not go
on for more than one byte behind its data field. What they take for a command is
served with the data that were read, and nothing else is served. -/
theorem apduDispatchProcess_framed_iff (F : PgpPrims) (inp : Bytes) :
    (FramedWell F inp ↔ ¬Overlong inp) ∧
      ∀ out : Bytes, (∀ a, framed inp = .ok a → apduDispatchProcess F inp out =
          serve F a out >>= fun r => pure (emitSw out.length r)) ∧
        ∀ sw, framed inp = .error sw →
          apduDispatchProcess F inp out = pure (emitSw out.length (.bare sw)) := by
  refine ⟨⟨?_, ?_⟩, fun out => ⟨fun a => apduDispatchProcess_served,
    fun sw => apduDispatchProcess_refused⟩⟩
  · rintro ⟨hrun, -⟩ hover
    obtain ⟨a, ha⟩ := hover.framed
    have hdata := isApdu_data (hrun a ha)
    have hlong := hover.long
    have hlc := hover.data
    omega
  · intro hover
    refine ⟨fun a ha => isApdu_of_framed ha hover, ?_⟩
    intro hnone out hout
    cases hf : framed inp with
    | ok a => exact absurd (isApdu_of_framed hf hover) (hnone _ a)
    | error sw =>
        rw [apduDispatchProcess_refused hf, emitSw_bare hout]
        rcases framed_error hf with rfl | rfl
        · exact .inl rfl
        · exact .inr rfl

/-- VERIFY with the factory PIN and two bytes behind it. -/
def trailingVerify : Bytes :=
  [0x00, 0x20, 0x00, 0x81, 0x06, 0x31, 0x32, 0x33, 0x34, 0x35, 0x36, 0x00, 0x00]

theorem apduDispatchProcess_trailing :
    framed trailingVerify = .ok ⟨insVerify, 0x00, 0x81, factoryPw1⟩ ∧
      ¬FramedWell mixPgp trailingVerify := by
  refine ⟨rfl, fun h => ?_⟩
  have hdata := isApdu_data (h.1 ⟨insVerify, 0x00, 0x81, factoryPw1⟩ rfl)
  have hlen : trailingVerify.length = 13 := rfl
  have hlc : byteAt trailingVerify 4 = 6 := rfl
  omega

end Nixtropic.Pgp
