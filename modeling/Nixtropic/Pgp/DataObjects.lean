import Nixtropic.Pgp.Emit
import Nixtropic.Pgp.Framing
import Nixtropic.Device.BoardLogic

/-!
The composite data objects 65, 6E and 7A.

A builder first reads what it needs and then appends bytes that depend on nothing
else, so that a GET DATA is a read and a computation. The answer is a tree of BER
objects, with the fields of the state as its leaves.
-/

namespace Nixtropic.Pgp

open Crash

/-! ### Builders that read first -/

/-- With `room` bytes free, the builder reads `m` and appends `value`; `P` is what
is known of the things read. -/
def Writes {α : Type} (max room : ℕ) (m : PgpM α) (P : α → Prop) (value : α → Bytes)
    (builder : Builder) : Prop :=
  ∀ b : Buf, max ≤ b.out.length → b.off + room ≤ max →
    ∃ r : α → Except Fault Buf, builder b = (m >>= fun a => pure (r a)) ∧
      ∀ a, P a → (value a).length ≤ room ∧ ∃ b', r a = .ok b' ∧ Appended max b b' (value a)

section Writes

variable {α : Type} {max room : ℕ} {m : PgpM α} {P : α → Prop} {value : α → Bytes}
  {builder : Builder}

theorem Writes.mono {room' : ℕ} (h : Writes max room m P value builder) (hroom : room ≤ room') :
    Writes max room' m P value builder := by
  intro b hout hb
  obtain ⟨r, hr, hval⟩ := h b hout (by omega)
  exact ⟨r, hr, fun a ha => ⟨Nat.le_trans (hval a ha).1 hroom, (hval a ha).2⟩⟩

/-- A composite object reads what its builder reads. -/
theorem Writes.constructed (h : Writes max room m P value builder) (tag : ℕ) :
    Writes max ((tagBytes tag).length + 3 + room) m P
      (fun a => Ber.object (tagBytes tag) (value a)) (emitConstructed max tag builder) := by
  intro b hout hb
  rcases openConstructed_cases hout tag with ⟨-, hlt⟩ | ⟨b₁, hopen, hlen, hoff, hle, hfront⟩
  · omega
  · obtain ⟨r, hr, hval⟩ := h b₁ (by omega) (by omega)
    refine ⟨fun a => r a >>= closeConstructed b₁.off, ?_, fun a ha => ?_⟩
    · unfold emitConstructed
      simp only [hopen, hr, bind_assoc, pure_bind]
      refine bind_congr fun a => ?_
      cases r a with
      | error e => rfl
      | ok b₂ => rfl
    · obtain ⟨hfit, b₂, hb₂, happ⟩ := hval a ha
      obtain ⟨b₃, hclose, happ₃⟩ := closeConstructed_appended hout hlen hoff hle hfront happ
      have hfield := Ber.lengthBytes_le (value a).length
      refine ⟨?_, b₃, ?_, happ₃⟩
      · simp only [Ber.object, List.length_append]
        omega
      · show r a >>= closeConstructed b₁.off = _
        rw [hb₂]
        exact hclose

end Writes

/-! ### The trees -/

section Sizes

variable (r : O3Ram)

end Sizes

section Builders

variable {F : PgpPrims} {max : ℕ}

end Builders

/-! ### GET DATA -/

section GetData

variable {α : Type} {F : PgpPrims} {room : ℕ} {m : PgpM α} {P : α → Prop} {value : α → Bytes}
  {builder : Builder} {inp out body : Bytes} {u : PgpRam} {p1 p2 : UInt8}

end GetData

/-! ### The PW status -/

section Status

variable {r : O3Ram} {pw : Bytes}

end Status

/-! ### The round trip -/

section RoundTrip

variable {F : PgpPrims} {inp out body : Bytes} {u : PgpRam} {fs : List BoardFate} {w : Board Note}

end RoundTrip

end Nixtropic.Pgp
