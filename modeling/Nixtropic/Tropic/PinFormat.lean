import Nixtropic.Tropic.PinKernel
import Nixtropic.Tropic.RecFormat

/-!
The payload of a binding record: what `store` writes, `load` reads back.
-/

namespace Nixtropic

/-- A layout that passed `valid_layout`. -/
structure Layout.Ok (L : Layout) : Prop where
  rounds_pos : 0 < L.rounds
  rounds_le : L.rounds ≤ roundsMax
  ranges : L.ranges = 1 ∨ L.ranges = 2
  fits : ∀ r, r < L.ranges → L.base r + L.rounds ≤ 128
  apart : L.ranges = 2 → L.base0 + L.rounds ≤ L.base1 ∨ L.base1 + L.rounds ≤ L.base0

theorem validLayout_ok {L : Layout} (h : validLayout L = true) : L.Ok := by
  rw [validLayout] at h
  by_cases hrounds : L.rounds = 0 ∨ roundsMax < L.rounds
  · rw [if_pos hrounds] at h
    cases h
  rw [if_neg hrounds] at h
  by_cases hranges : L.ranges ≠ 1 ∧ L.ranges ≠ 2
  · rw [if_pos hranges] at h
    cases h
  rw [if_neg hranges] at h
  by_cases hmat : L.matLen = 0 ∨ materialMax < L.matLen
  · rw [if_pos hmat] at h
    cases h
  rw [if_neg hmat] at h
  by_cases hfits : (List.range L.ranges).any fun r => decide (128 < L.base r + L.rounds)
  · rw [if_pos hfits] at h
    cases h
  rw [if_neg hfits] at h
  by_cases hover : L.ranges = 2 ∧ L.base0 < L.base1 + L.rounds ∧ L.base1 < L.base0 + L.rounds
  · rw [if_pos hover] at h
    cases h
  have hfits' : ∀ r, r < L.ranges → L.base r + L.rounds ≤ 128 := by
    simpa using hfits
  exact ⟨by omega, by omega, by omega, hfits', by omega⟩

/-- A binding that `load` accepts. -/
structure Binding.Wf (L : Layout) (b : Binding) : Prop where
  range : b.range < L.ranges
  pending : b.retirePending = true → L.ranges = 2
  next : b.next ≤ L.rounds
  tag : b.tag.length = tagLen
  ci : b.ci.length = L.rounds
  ci_length : ∀ c ∈ b.ci, c.length = slotSize

theorem flatten_length {ci : List Bytes} {n : ℕ} (h : ∀ c ∈ ci, c.length = n) :
    ci.flatten.length = ci.length * n := by
  induction ci with
  | nil => simp
  | cons c ci ih =>
      rw [List.flatten_cons, List.length_append, h c List.mem_cons_self,
        ih fun d hd => h d (List.mem_cons_of_mem c hd), List.length_cons]
      ring

/-- Equal pieces are found again at multiples of their length. -/
theorem flatten_piece {ci : List Bytes} {n : ℕ} (h : ∀ c ∈ ci, c.length = n) {i : ℕ}
    (hi : i < ci.length) : (ci.flatten.drop (i * n)).take n = ci[i] := by
  induction ci generalizing i with
  | nil => simp at hi
  | cons c ci ih =>
      have hc : c.length = n := h c List.mem_cons_self
      cases i with
      | zero => simp [← hc]
      | succ i =>
          have hdrop : (c :: ci).flatten.drop ((i + 1) * n) = ci.flatten.drop (i * n) := by
            rw [List.flatten_cons, show (i + 1) * n = c.length + i * n by rw [hc]; ring,
              List.drop_append]
            simp
          rw [hdrop, List.getElem_cons_succ]
          exact ih (fun d hd => h d (List.mem_cons_of_mem c hd)) (by simpa using hi)

theorem bindingBytes_length {L : Layout} {b : Binding} (hb : b.Wf L) :
    (bindingBytes b).length = bindLen L.rounds := by
  simp only [bindingBytes, List.length_append, hb.tag, flatten_length hb.ci_length, hb.ci]
  rfl

theorem bindLen_le {L : Layout} (hL : L.Ok) : bindLen L.rounds ≤ recPayloadMax := by
  have := hL.rounds_le
  simp only [roundsMax, bindLen, bindHdr, tagLen, slotSize, recPayloadMax] at this ⊢
  omega

/-- A binding written by `store` is the binding `load` reads. -/
theorem parseBinding_bytes {L : Layout} (hL : L.Ok) {b : Binding} (hb : b.Wf L) :
    parseBinding L (bindingBytes b) = some b := by
  have hlen := bindingBytes_length hb
  have hr : b.range < 256 := by
    have := hb.range
    rcases hL.ranges with h | h <;> omega
  have hn : b.next < 256 := by
    have := hb.next
    have := hL.rounds_le
    simp only [roundsMax] at this
    omega
  have h0 : byteAt (bindingBytes b) 0 = b.range := by
    simp only [bindingBytes, byteAt, List.cons_append, List.getD_cons_zero, uint8_ofNat_toNat]
    exact Nat.mod_eq_of_lt hr
  have h1 : byteAt (bindingBytes b) 1 = if b.retirePending then 1 else 0 := by
    simp only [bindingBytes, byteAt, List.cons_append, List.getD_cons_succ, List.getD_cons_zero]
    split <;> rfl
  have h2 : byteAt (bindingBytes b) 2 = b.next := by
    simp only [bindingBytes, byteAt, List.cons_append, List.getD_cons_succ, List.getD_cons_zero,
      uint8_ofNat_toNat]
    exact Nat.mod_eq_of_lt hn
  have h3 : (bindingBytes b).getD 3 0 = b.pinLen := rfl
  have htag : ((bindingBytes b).drop bindHdr).take tagLen = b.tag := by
    simp only [bindingBytes, bindHdr, List.cons_append, List.nil_append, List.drop_succ_cons,
      List.drop_zero]
    rw [List.take_left' hb.tag]
  have hci : (List.range L.rounds).map (fun i =>
      ((bindingBytes b).drop (bindHdr + tagLen + i * slotSize)).take slotSize) = b.ci := by
    refine List.ext_getElem (by simp [hb.ci]) fun i hi hi' => ?_
    have hdrop : (bindingBytes b).drop (bindHdr + tagLen + i * slotSize) =
        b.ci.flatten.drop (i * slotSize) := by
      have hhead : ([UInt8.ofNat b.range, if b.retirePending then 1 else 0, UInt8.ofNat b.next,
          b.pinLen] ++ b.tag).length = bindHdr + tagLen := by
        simp [hb.tag, bindHdr, tagLen]
      rw [bindingBytes, ← hhead, List.drop_append]
      simp
    rw [List.getElem_map, List.getElem_range, hdrop]
    exact flatten_piece hb.ci_length hi'
  rw [parseBinding, if_pos, h0, h1, h2, h3, htag, hci]
  · cases b with
    | mk range pending next pinLen tag ci => cases pending <;> rfl
  · rw [hlen, h0, h1, h2]
    refine ⟨rfl, hb.range, ?_, ?_, hb.next⟩
    · split <;> omega
    · cases hp : b.retirePending with
      | true => exact .inr (hb.pending hp)
      | false => exact .inl rfl

theorem parseBinding_wf {L : Layout} {buf : Bytes} {b : Binding}
    (h : parseBinding L buf = some b) : b.Wf L := by
  rw [parseBinding] at h
  split at h
  · rename_i hok
    obtain ⟨hlen, hr, h1, hp, hn⟩ := hok
    obtain rfl := Option.some.inj h
    refine ⟨hr, ?_, hn, ?_, by simp, ?_⟩
    · intro hpend
      have : byteAt buf 1 = 1 := of_decide_eq_true hpend
      omega
    · simp only [bindLen, bindHdr, tagLen, slotSize] at hlen
      simp only [List.length_take, List.length_drop, hlen, bindHdr, tagLen]
      omega
    · intro c hc
      obtain ⟨i, hi, rfl⟩ := List.mem_map.mp hc
      have hi' : i < L.rounds := List.mem_range.mp hi
      simp only [bindLen, bindHdr, tagLen, slotSize] at hlen
      simp only [List.length_take, List.length_drop, hlen, bindHdr, tagLen, slotSize]
      omega
  · cases h

end Nixtropic
