import Nixtropic.Fido.ReaderLogic

/-!
No reader of `cbor.c` indexes at or beyond `len`, whatever the bytes are and
whatever was called before: the position stays in the buffer, and every span
that is returned lies in it.
-/

namespace Nixtropic.Fido

open Cbor Rd

variable {ε α β : Type} {b : Buffer} {r : Reader}

/-- Nothing was read outside, the position is in the buffer, and a value that is returned
meets `Q`. -/
def Out.Stays (b : Buffer) (Q : α → Prop) : Out ε α → Prop
  | .ok a r => InBuffer b r ∧ Q a
  | .fail _ r => InBuffer b r
  | .fault => False

/-- The code stays in the buffer, from every position in it. -/
def Stays (b : Buffer) (f : Rd ε α) (Q : α → Prop) : Prop :=
  ∀ r, InBuffer b r → (f r).Stays b Q

namespace Stays

variable {f : Rd ε α} {g : α → Rd ε β} {Q R : α → Prop} {P : β → Prop}

theorem pure {a : α} (h : Q a) : Stays b (Pure.pure a : Rd ε α) Q := fun _ hr => ⟨hr, h⟩

theorem throw {e : ε} : Stays b (Rd.throw e : Rd ε α) Q := fun _ hr => hr

theorem refuse : Stays b (refuse : Rd Unit α) Q := fun _ hr => hr.refused

theorem bind (hf : Stays b f R) (hg : ∀ a, R a → Stays b (g a) P) : Stays b (f >>= g) P := by
  intro r hr
  have h := hf r hr
  rw [bind_run]
  split
  · rename_i heq
    rw [heq] at h
    exact hg _ h.2 _ h.1
  · rename_i heq
    rw [heq] at h
    exact h
  · rename_i heq
    rw [heq] at h
    exact h

theorem mono (hf : Stays b f R) (h : ∀ a, R a → Q a) : Stays b f Q := by
  intro r hr
  have hs := hf r hr
  cases hfr : f r with
  | ok a s =>
      rw [hfr] at hs
      exact ⟨hs.1, h a hs.2⟩
  | fail e s =>
      rw [hfr] at hs
      exact hs
  | fault =>
      rw [hfr] at hs
      exact hs

theorem ite {c : Prop} [Decidable c] {g : Rd ε α} (hf : c → Stays b f Q) (hg : ¬c → Stays b g Q) :
    Stays b (if c then f else g) Q := by
  split
  · exact hf ‹_›
  · exact hg ‹_›

/-- A loop stays in the buffer when its body does. -/
theorem times {f : Rd ε Unit} (hf : Stays b f fun _ => True) (n : ℕ) :
    Stays b (Rd.times f n) fun _ => True := by
  induction n with
  | zero => exact .pure trivial
  | succ n ih => exact .bind hf fun _ _ => ih

end Stays

/-! ### The readers -/

theorem stays_peekMajor : Stays b (cborReaderPeekMajor : Rd ε (Option ℕ)) fun _ => True := by
  intro r hr
  show Out.Stays b _ ((if r.len ≤ r.pos then Pure.pure none else _ : Rd ε (Option ℕ)) r)
  split
  · exact ⟨hr, trivial⟩
  · cases hs : r.rest with
    | nil =>
        have := r.rest_length
        rw [hs, List.length_nil] at this
        omega
    | cons c s =>
        rw [bind_ok (bufAt_rest hs)]
        exact ⟨hr, trivial⟩

theorem stays_readHead : Stays b cborReaderReadHead fun _ => True := by
  intro r hr
  cases he : r.err with
  | true =>
      have h : cborReaderReadHead r = .fail () r := by
        unfold cborReaderReadHead
        rw [reader_bind, he]
        rfl
      rw [h]
      exact hr
  | false =>
      rcases readHead_cases hr he with ⟨g, ⟨⟨s, hs⟩, -⟩, h⟩ | ⟨-, r', hr', h⟩
      · rw [h]
        exact ⟨hr.adv_of_append (encode_of_decodeHead hs).2, trivial⟩
      · rw [h]
        exact hr'

theorem stays_readTyped (want : ℕ) : Stays b (readTyped want) fun _ => True :=
  stays_readHead.bind fun _ _ => .ite (fun _ => .refuse) fun _ => .pure trivial

theorem stays_readCount (want : ℕ) : Stays b (readCount want) fun _ => True :=
  (stays_readTyped want).bind fun _ _ => .pure trivial

/-- The span lies in the buffer. -/
def Span.In (b : Buffer) (s : Span) : Prop := s.off + s.len ≤ b.bytes.length

theorem takeRun_run (hr : InBuffer b r) (v : ℕ) :
    takeRun v r = if r.rest.length < v then .fail () { r with err := true }
      else .ok ⟨r.pos, v⟩ (r.adv v) := by
  have hlt := hr.lt
  have hp := hr.pos
  have hl := r.rest_length
  unfold takeRun
  rw [bind_ok (bytesLeft_run hr)]
  by_cases hv : r.rest.length < v
  · rw [if_pos hv, if_pos hv]
    rfl
  · have hsv : sz v = v := sz_of_lt (by omega)
    have hsp : sz (r.pos + v) = r.pos + v := sz_of_lt (by omega)
    rw [if_neg hv, if_neg hv, reader_bind, setPos_bind, hsv, hsp]
    rfl

theorem stays_takeRun (v : ℕ) : Stays b (takeRun v) (Span.In b) := by
  intro r hr
  rw [takeRun_run hr]
  have hl := r.rest_length
  have hp := hr.pos
  split
  · exact hr.refused
  · refine ⟨hr.adv (by omega), ?_⟩
    show r.pos + v ≤ b.bytes.length
    rw [← hr.buf]
    show r.pos + v ≤ r.len
    omega

theorem stays_readByteRun (want : ℕ) : Stays b (readByteRun want) (Span.In b) :=
  (stays_readTyped want).bind fun v _ => stays_takeRun v

theorem stays_skipRun (v : ℕ) : Stays b (skipRun v) fun _ => True :=
  (stays_takeRun v).bind fun _ _ => .pure trivial

theorem stays_skipBody {item : Rd Unit Unit} (h : Stays b item fun _ => True) :
    Stays b (skipBody item) fun _ => True := by
  refine stays_readHead.bind fun mv _ => ?_
  dsimp only
  split
  · exact .pure trivial
  · exact .pure trivial
  · exact stays_skipRun _
  · exact stays_skipRun _
  · exact h.times _
  · exact (h.bind fun _ _ => h).times _
  · exact .pure trivial
  · exact .refuse

theorem stays_skipItem (left : ℕ) : Stays b (skipItem left) fun _ => True := by
  induction left with
  | zero => exact .refuse
  | succ left ih => exact stays_skipBody ih

theorem stays_bytesLeft : Stays b (bytesLeft : Rd ε ℕ) fun _ => True := by
  intro r hr
  rw [bytesLeft_run hr]
  exact ⟨hr, trivial⟩

theorem stays_validateBody {items : ℕ → ℕ → Rd Unit Unit}
    (h : ∀ v n, Stays b (items v n) fun _ => True) :
    Stays b (validateBody items) fun _ => True := by
  refine stays_readHead.bind fun mv _ => ?_
  dsimp only
  split
  · exact .pure trivial
  · exact .pure trivial
  · exact .pure trivial
  · exact stays_skipRun _
  · exact stays_skipRun _
  · exact h _ _
  · exact h _ _
  · exact .refuse

theorem stays_validateItem (left : ℕ) : Stays b (validateItem left) fun _ => True := by
  induction left with
  | zero => exact stays_validateBody fun _ _ => .refuse
  | succ left ih =>
      refine stays_validateBody fun v n => ?_
      exact stays_bytesLeft.bind fun _ _ => .ite (fun _ => .refuse) fun _ => ih.times n

theorem stays_validateWhole : Stays b validateWhole fun _ => True := by
  refine (stays_validateItem _).bind fun _ _ => ?_
  intro r hr
  rw [reader_bind]
  split
  · exact ⟨hr, trivial⟩
  · exact hr

/-! ### Any calls in any order -/

/-- The calls on a reader. -/
inductive ReaderCall where
  | peekMajor
  | readHead
  | readUint
  | readBytes
  | readText
  | readArrayHeader
  | readMapHeader
  | skip
  deriving DecidableEq, Repr

/-- What a call writes through its pointers. -/
inductive ReaderReply where
  | nothing
  | major (mt : Option ℕ)
  | head (mt v : ℕ)
  | num (v : ℕ)
  | span (s : Span)
  deriving DecidableEq, Repr

def ReaderCall.perform : ReaderCall → Rd Unit ReaderReply
  | .peekMajor => do pure (.major (← cborReaderPeekMajor))
  | .readHead => do
      let (mt, v) ← cborReaderReadHead
      pure (.head mt v)
  | .readUint => do pure (.num (← cborReaderReadUint))
  | .readBytes => do pure (.span (← cborReaderReadBytes))
  | .readText => do pure (.span (← cborReaderReadText))
  | .readArrayHeader => do pure (.num (← cborReaderReadArrayHeader))
  | .readMapHeader => do pure (.num (← cborReaderReadMapHeader))
  | .skip => do
      cborReaderSkip
      pure .nothing

/-- The calls one after the other, also after one that failed: what they returned and the
reader after them. There is no result when a call read outside the buffer. -/
def performAll : List ReaderCall → Reader → Option (List (Option ReaderReply) × Reader)
  | [], r => some ([], r)
  | c :: cs, r =>
      match c.perform r with
      | .ok a r => (performAll cs r).map fun p => (some a :: p.1, p.2)
      | .fail _ r => (performAll cs r).map fun p => (none :: p.1, p.2)
      | .fault => none

/-- A span that is returned lies in the buffer. -/
def ReaderReply.In (b : Buffer) : ReaderReply → Prop
  | .span s => s.In b
  | _ => True

theorem ReaderCall.stays (c : ReaderCall) : Stays b c.perform (ReaderReply.In b) := by
  cases c with
  | peekMajor => exact stays_peekMajor.bind fun _ _ => .pure trivial
  | readHead => exact stays_readHead.bind fun _ _ => .pure trivial
  | readUint => exact (stays_readTyped 0).bind fun _ _ => .pure trivial
  | readBytes => exact (stays_readByteRun 2).bind fun _ h => .pure h
  | readText => exact (stays_readByteRun 3).bind fun _ h => .pure h
  | readArrayHeader => exact (stays_readCount 4).bind fun _ _ => .pure trivial
  | readMapHeader => exact (stays_readCount 5).bind fun _ _ => .pure trivial
  | skip => exact (stays_skipItem _).bind fun _ _ => .pure trivial

theorem performAll_stays (cs : List ReaderCall) (hr : InBuffer b r) :
    ∃ replies r', performAll cs r = some (replies, r') ∧ InBuffer b r' ∧
      ∀ a, some a ∈ replies → a.In b := by
  induction cs generalizing r with
  | nil => exact ⟨[], r, rfl, hr, by simp⟩
  | cons c cs ih =>
      have h := c.stays r hr
      rw [performAll]
      cases hc : c.perform r with
      | ok a s =>
          rw [hc] at h
          obtain ⟨replies, r', hrun, hr', hin⟩ := ih h.1
          refine ⟨some a :: replies, r', by simp [hrun], hr', ?_⟩
          intro a' ha'
          rcases List.mem_cons.mp ha' with heq | ha'
          · obtain rfl := Option.some.inj heq
            exact h.2
          · exact hin a' ha'
      | fail e s =>
          rw [hc] at h
          obtain ⟨replies, r', hrun, hr', hin⟩ := ih h
          refine ⟨none :: replies, r', by simp [hrun], hr', ?_⟩
          intro a' ha'
          rcases List.mem_cons.mp ha' with heq | ha'
          · cases heq
          · exact hin a' ha'
      | fault =>
          rw [hc] at h
          exact h.elim

end Nixtropic.Fido
