import Nixtropic.Crash.Logic
import Nixtropic.Lists.Bytes

/-!
The TROPIC01 as the firmware sees it through `tropic.h`: R-memory slots,
MAC-and-Destroy slots and a random number generator.

The chip follows the host mock of the repository. A MAC-and-Destroy call
replaces the slot value by `F1(input, slot)` and returns
`F2(old, new, slot)`; the two functions, HMAC and SHA-256 are parameters. An
R-memory slot is written once until it is erased; it can also hold something
that no longer decrypts, which the chip reports as an empty slot.

A call can fail before the chip acted, be carried out while its reply is lost,
be torn (an R-memory slot is left with other content, with or without an
error), or be the last one before the power goes away. All of this is decided
by the fate of the call. The chip keeps no more than that; the log of the
calls made so far is there for the statements about runs.
-/

namespace Nixtropic

open Crash

/-- The primitives the firmware and the chip compute with. Every one of them
returns 32 bytes. -/
structure Prims where
  hmac : Bytes → Bytes → Bytes
  sha256 : Bytes → Bytes
  /-- The new value of a MAC-and-Destroy slot, from the input and the slot. -/
  f1 : Bytes → ℕ → Bytes
  /-- The answer, from the old value, the new value and the slot. -/
  f2 : Bytes → Bytes → ℕ → Bytes
  hmac_length : ∀ key msg, (hmac key msg).length = 32
  sha256_length : ∀ msg, (sha256 msg).length = 32
  f2_length : ∀ old new slot, (f2 old new slot).length = 32

/-- A short mixing function with 32 bytes of output. -/
def mix (tag : UInt8) (data : Bytes) : Bytes :=
  let h := (tag :: data).foldl (fun a b => (a * 257 + b.toNat + 1) % 2 ^ 61) 7
  (List.range 32).map fun i => UInt8.ofNat (h / 256 ^ (i % 8) + i)

theorem mix_length (tag : UInt8) (data : Bytes) : (mix tag data).length = 32 := by
  simp [mix]

/-- Primitives to run the model with. -/
def mixPrims : Prims where
  hmac key msg := mix 1 (key ++ msg)
  sha256 msg := mix 2 msg
  f1 data slot := mix 3 (UInt8.ofNat slot :: data)
  f2 old new slot := mix 4 (UInt8.ofNat slot :: old ++ new)
  hmac_length _ _ := mix_length _ _
  sha256_length _ := mix_length _ _
  f2_length _ _ _ := mix_length _ _

/-- What an R-memory slot holds. A `masked` slot holds data that does not
decrypt: it reads as empty, but takes no write before an erase. -/
inductive RSlot where
  | empty
  | data (bytes : Bytes)
  | masked
  deriving DecidableEq, Repr

/-- The error codes of the wrappers that callers tell apart. -/
inductive TropicErr where
  | slotEmpty
  | other
  deriving DecidableEq, Repr

abbrev Reply (α : Type) := Except TropicErr α

/-- The places in the source that make MAC-and-Destroy calls. The chip does
not see which one it was. -/
inductive MdSite where
  | retire
  | arm
  | probe
  | restore
  deriving DecidableEq, Repr

inductive Op where
  | hmac (key msg : Bytes)
  | random (len : ℕ)
  | rmemRead (slot max : ℕ)
  | rmemWrite (slot : ℕ) (data : Bytes)
  | rmemErase (slot : ℕ)
  | macAndDestroy (site : MdSite) (slot : ℕ) (data : Bytes)
  deriving DecidableEq, Repr

abbrev Ret : Op → Type
  | .hmac _ _ => Bytes
  | .random _ => Reply Bytes
  | .rmemRead _ _ => Reply Bytes
  | .rmemWrite _ _ => Reply Unit
  | .rmemErase _ => Reply Unit
  | .macAndDestroy _ _ _ => Reply Bytes

/-- A call together with the chip memories it met. -/
structure Event where
  op : Op
  rmem : ℕ → RSlot
  mad : ℕ → Bytes

structure World where
  rmem : ℕ → RSlot
  mad : ℕ → Bytes
  /-- The bytes the generator will ever produce, and how many are spent. -/
  rng : ℕ → UInt8
  drawn : ℕ
  /-- The calls made so far, newest first. -/
  log : List Event

namespace World

/-- A chip that holds nothing. -/
def blank : World where
  rmem _ := .empty
  mad _ := []
  rng i := UInt8.ofNat (i * i + 1)
  drawn := 0
  log := []

def note (w : World) (o : Op) : World :=
  { w with log := ⟨o, w.rmem, w.mad⟩ :: w.log }

def setR (w : World) (slot : ℕ) (c : RSlot) : World :=
  { w with rmem := Function.update w.rmem slot c }

def setMad (w : World) (slot : ℕ) (x : Bytes) : World :=
  { w with mad := Function.update w.mad slot x }

/-- The next `len` random bytes. -/
def draw (w : World) (len : ℕ) : Bytes := (List.range len).map fun i => w.rng (w.drawn + i)

def spend (w : World) (len : ℕ) : World := { w with drawn := w.drawn + len }

@[simp] theorem note_rmem (w : World) (o : Op) : (w.note o).rmem = w.rmem := rfl
@[simp] theorem note_mad (w : World) (o : Op) : (w.note o).mad = w.mad := rfl
@[simp] theorem note_rng (w : World) (o : Op) : (w.note o).rng = w.rng := rfl
@[simp] theorem note_drawn (w : World) (o : Op) : (w.note o).drawn = w.drawn := rfl
@[simp] theorem note_log (w : World) (o : Op) :
    (w.note o).log = ⟨o, w.rmem, w.mad⟩ :: w.log := rfl
@[simp] theorem setR_rmem (w : World) (slot : ℕ) (c : RSlot) :
    (w.setR slot c).rmem = Function.update w.rmem slot c := rfl
@[simp] theorem setR_mad (w : World) (slot : ℕ) (c : RSlot) : (w.setR slot c).mad = w.mad := rfl
@[simp] theorem setR_rng (w : World) (slot : ℕ) (c : RSlot) : (w.setR slot c).rng = w.rng := rfl
@[simp] theorem setR_drawn (w : World) (slot : ℕ) (c : RSlot) :
    (w.setR slot c).drawn = w.drawn := rfl
@[simp] theorem setR_log (w : World) (slot : ℕ) (c : RSlot) : (w.setR slot c).log = w.log := rfl
@[simp] theorem setMad_rmem (w : World) (slot : ℕ) (x : Bytes) :
    (w.setMad slot x).rmem = w.rmem := rfl
@[simp] theorem setMad_mad (w : World) (slot : ℕ) (x : Bytes) :
    (w.setMad slot x).mad = Function.update w.mad slot x := rfl
@[simp] theorem setMad_rng (w : World) (slot : ℕ) (x : Bytes) :
    (w.setMad slot x).rng = w.rng := rfl
@[simp] theorem setMad_drawn (w : World) (slot : ℕ) (x : Bytes) :
    (w.setMad slot x).drawn = w.drawn := rfl
@[simp] theorem setMad_log (w : World) (slot : ℕ) (x : Bytes) :
    (w.setMad slot x).log = w.log := rfl
@[simp] theorem spend_rmem (w : World) (n : ℕ) : (w.spend n).rmem = w.rmem := rfl
@[simp] theorem spend_mad (w : World) (n : ℕ) : (w.spend n).mad = w.mad := rfl
@[simp] theorem spend_rng (w : World) (n : ℕ) : (w.spend n).rng = w.rng := rfl
@[simp] theorem spend_drawn (w : World) (n : ℕ) : (w.spend n).drawn = w.drawn + n := rfl
@[simp] theorem spend_log (w : World) (n : ℕ) : (w.spend n).log = w.log := rfl
@[simp] theorem draw_length (w : World) (n : ℕ) : (w.draw n).length = n := by simp [draw]

end World

/-- The largest user payload of an R-memory slot. -/
def rmemSlotSize : ℕ := 475

def RSlot.read (max : ℕ) : RSlot → Reply Bytes
  | .data b => .ok (b.take max)
  | .empty => .error .slotEmpty
  | .masked => .error .slotEmpty

/-- A call the chip carries out. -/
def exec (P : Prims) : (o : Op) → World → Ret o × World
  | .hmac key msg, w => (P.hmac key msg, w)
  | .random len, w => (.ok (w.draw len), w.spend len)
  | .rmemRead slot max, w => ((w.rmem slot).read max, w)
  | .rmemWrite slot data, w =>
      if data.length = 0 ∨ rmemSlotSize < data.length ∨ w.rmem slot ≠ .empty then
        (.error .other, w)
      else (.ok (), w.setR slot (.data data))
  | .rmemErase slot, w => (.ok (), w.setR slot .empty)
  | .macAndDestroy _ slot data, w =>
      (.ok (P.f2 (w.mad slot) (P.f1 data slot) slot), w.setMad slot (P.f1 data slot))

/-- What happens to a call. -/
inductive Fate where
  /-- Nothing: the chip acts and answers. -/
  | none
  /-- An error before the chip acted. -/
  | fail
  /-- The chip acted, its answer was lost. -/
  | lost
  /-- The slot being changed is left with this content; the call reports an
  error, or success. -/
  | torn (left : RSlot) (acked : Bool)
  /-- The power goes before the chip acted, after it, or during the change. -/
  | cutBefore
  | cutAfter
  | cutTorn (left : RSlot)
  deriving DecidableEq, Repr

/-- The reply of a call that failed. -/
def failed : (o : Op) → Option (Ret o)
  | .hmac _ _ => Option.none
  | .random _ => some (.error .other)
  | .rmemRead _ _ => some (.error .other)
  | .rmemWrite _ _ => some (.error .other)
  | .rmemErase _ => some (.error .other)
  | .macAndDestroy _ _ _ => some (.error .other)

/-- Leave an R-memory slot that is being changed with other content. -/
def tear (left : RSlot) : Op → World → World
  | .rmemWrite slot _, w => w.setR slot left
  | .rmemErase slot, w => w.setR slot left
  | _, w => w

/-- The reply of a torn call. Only changes of R-memory can claim success. -/
def tornReply (acked : Bool) : (o : Op) → Option (Ret o)
  | .rmemWrite _ _ => some (if acked then .ok () else .error .other)
  | .rmemErase _ => some (if acked then .ok () else .error .other)
  | o => failed o

/-- One call under a fate. HMAC is computed on the host and never fails. -/
def act (P : Prims) (f : Fate) (o : Op) (w : World) : Option (Ret o) × World :=
  match o, f with
  | .hmac key msg, _ => (some (P.hmac key msg), w.note (.hmac key msg))
  | o, .none => (some (exec P o w).1, (exec P o (w.note o)).2)
  | o, .fail => (failed o, w.note o)
  | o, .lost => (failed o, (exec P o (w.note o)).2)
  | o, .torn left acked => (tornReply acked o, tear left o (w.note o))
  | _, .cutBefore => (Option.none, w.note o)
  | o, .cutAfter => (Option.none, (exec P o (w.note o)).2)
  | o, .cutTorn left => (Option.none, tear left o (w.note o))

def chip (P : Prims) : Machine Op Ret World Fate where
  act := act P
  quiet := .none

/-- Firmware code with the volatile memory `ρ`. -/
abbrev Fw (ρ α : Type) := StProg Op Ret ρ α

section Calls

variable {ρ : Type}

def hmacSha256 (key msg : Bytes) : Fw ρ Bytes := StProg.perform (Op.hmac key msg)
def tropicRandom (len : ℕ) : Fw ρ (Reply Bytes) := StProg.perform (Op.random len)
def tropicRmemRead (slot max : ℕ) : Fw ρ (Reply Bytes) := StProg.perform (Op.rmemRead slot max)
def tropicRmemWrite (slot : ℕ) (data : Bytes) : Fw ρ (Reply Unit) :=
  StProg.perform (Op.rmemWrite slot data)
def tropicRmemErase (slot : ℕ) : Fw ρ (Reply Unit) := StProg.perform (Op.rmemErase slot)
def tropicMacAndDestroy (site : MdSite) (slot : ℕ) (data : Bytes) : Fw ρ (Reply Bytes) :=
  StProg.perform (Op.macAndDestroy site slot data)

end Calls

/-! ### Fault models -/

/-- The content a torn call may leave satisfies `J`. -/
def Fate.leaves (J : RSlot → Prop) : Fate → Prop
  | .torn left _ => J left
  | .cutTorn left => J left
  | _ => True

/-- Nothing ever happens. -/
def Calm : Fate → Prop := fun f => f = .none

/-- Some call may meet something. -/
def Stormy (A : Fate → Prop) : Prop := ∃ f, A f ∧ f ≠ .none

/-! ### One rule for each call -/

section Rules

variable {P : Prims} {A : Fate → Prop} {J : RSlot → Prop} {ρ : Type} {u : ρ} {w : World}
  {C : World → Prop}

theorem swp_hmac {key msg : Bytes} {Q : Bytes → ρ → World → Prop}
    (h : Q (P.hmac key msg) u (w.note (.hmac key msg))) :
    swp (chip P) A (hmacSha256 key msg) Q C u w := by
  rw [hmacSha256, swp_perform]
  intro f _
  exact h

theorem swp_rmemRead {slot max : ℕ} {Q : Reply Bytes → ρ → World → Prop}
    (hok : Q ((w.rmem slot).read max) u (w.note (.rmemRead slot max)))
    (herr : Stormy A → Q (.error .other) u (w.note (.rmemRead slot max)))
    (hcut : Stormy A → C (w.note (.rmemRead slot max))) :
    swp (chip P) A (tropicRmemRead slot max) Q C u w := by
  rw [tropicRmemRead, swp_perform]
  intro f hf
  cases f with
  | none => exact hok
  | fail => exact herr ⟨_, hf, nofun⟩
  | lost => exact herr ⟨_, hf, nofun⟩
  | torn left acked => exact herr ⟨_, hf, nofun⟩
  | cutBefore => exact hcut ⟨_, hf, nofun⟩
  | cutAfter => exact hcut ⟨_, hf, nofun⟩
  | cutTorn left => exact hcut ⟨_, hf, nofun⟩

theorem swp_random {len : ℕ} {Q : Reply Bytes → ρ → World → Prop}
    (hok : Q (.ok (w.draw len)) u ((w.note (.random len)).spend len))
    (herr : Stormy A → ∀ n, Q (.error .other) u ((w.note (.random len)).spend n))
    (hcut : Stormy A → ∀ n, C ((w.note (.random len)).spend n)) :
    swp (chip P) A (tropicRandom len) Q C u w := by
  rw [tropicRandom, swp_perform]
  intro f hf
  cases f with
  | none => exact hok
  | fail => exact herr ⟨_, hf, nofun⟩ 0
  | lost => exact herr ⟨_, hf, nofun⟩ len
  | torn left acked => exact herr ⟨_, hf, nofun⟩ 0
  | cutBefore => exact hcut ⟨_, hf, nofun⟩ 0
  | cutAfter => exact hcut ⟨_, hf, nofun⟩ len
  | cutTorn left => exact hcut ⟨_, hf, nofun⟩ 0

theorem swp_macAndDestroy {site : MdSite} {slot : ℕ} {data : Bytes}
    {Q : Reply Bytes → ρ → World → Prop}
    (hok : Q (.ok (P.f2 (w.mad slot) (P.f1 data slot) slot)) u
      ((w.note (.macAndDestroy site slot data)).setMad slot (P.f1 data slot)))
    (herr : Stormy A → ∀ x, x = w.mad slot ∨ x = P.f1 data slot →
      Q (.error .other) u ((w.note (.macAndDestroy site slot data)).setMad slot x))
    (hcut : Stormy A → ∀ x, x = w.mad slot ∨ x = P.f1 data slot →
      C ((w.note (.macAndDestroy site slot data)).setMad slot x)) :
    swp (chip P) A (tropicMacAndDestroy site slot data) Q C u w := by
  rw [tropicMacAndDestroy, swp_perform]
  intro f hf
  have hsame : (w.note (.macAndDestroy site slot data)).setMad slot (w.mad slot) =
      w.note (.macAndDestroy site slot data) := by
    simp [World.setMad, World.note]
  have herrSame : Stormy A → Q (.error .other) u (w.note (.macAndDestroy site slot data)) :=
    fun h => hsame ▸ herr h _ (.inl rfl)
  have hcutSame : Stormy A → C (w.note (.macAndDestroy site slot data)) :=
    fun h => hsame ▸ hcut h _ (.inl rfl)
  cases f with
  | none => exact hok
  | fail => exact herrSame ⟨_, hf, nofun⟩
  | lost => exact herr ⟨_, hf, nofun⟩ _ (.inr rfl)
  | torn left acked => exact herrSame ⟨_, hf, nofun⟩
  | cutBefore => exact hcutSame ⟨_, hf, nofun⟩
  | cutAfter => exact hcut ⟨_, hf, nofun⟩ _ (.inr rfl)
  | cutTorn left => exact hcutSame ⟨_, hf, nofun⟩

theorem swp_rmemErase (hA : ∀ f, A f → f.leaves J) {slot : ℕ}
    {Q : Reply Unit → ρ → World → Prop}
    (hok : Q (.ok ()) u ((w.note (.rmemErase slot)).setR slot .empty))
    (hbad : Stormy A → ∀ r c, c = w.rmem slot ∧ r = .error .other ∨ c = .empty ∨ J c →
      Q r u ((w.note (.rmemErase slot)).setR slot c))
    (hcut : Stormy A → ∀ c, c = w.rmem slot ∨ c = .empty ∨ J c →
      C ((w.note (.rmemErase slot)).setR slot c)) :
    swp (chip P) A (tropicRmemErase slot) Q C u w := by
  rw [tropicRmemErase, swp_perform]
  intro f hf
  have hsame : (w.note (.rmemErase slot)).setR slot (w.rmem slot) =
      w.note (.rmemErase slot) := by
    simp [World.setR, World.note]
  have hbadSame : Stormy A → Q (.error .other) u (w.note (.rmemErase slot)) :=
    fun h => hsame ▸ hbad h _ _ (.inl ⟨rfl, rfl⟩)
  have hcutSame : Stormy A → C (w.note (.rmemErase slot)) :=
    fun h => hsame ▸ hcut h _ (.inl rfl)
  cases f with
  | none => exact hok
  | fail => exact hbadSame ⟨_, hf, nofun⟩
  | lost => exact hbad ⟨_, hf, nofun⟩ _ _ (.inr (.inl rfl))
  | torn left acked => exact hbad ⟨_, hf, nofun⟩ _ _ (.inr (.inr (hA _ hf)))
  | cutBefore => exact hcutSame ⟨_, hf, nofun⟩
  | cutAfter => exact hcut ⟨_, hf, nofun⟩ _ (.inr (.inl rfl))
  | cutTorn left => exact hcut ⟨_, hf, nofun⟩ _ (.inr (.inr (hA _ hf)))

/-- A write the slot does not take is refused; otherwise it is like an
erase. -/
theorem swp_rmemWrite (hA : ∀ f, A f → f.leaves J) {slot : ℕ} {data : Bytes}
    (hlen : data.length ≠ 0) (hsize : data.length ≤ rmemSlotSize)
    {Q : Reply Unit → ρ → World → Prop}
    (hok : w.rmem slot = .empty →
      Q (.ok ()) u ((w.note (.rmemWrite slot data)).setR slot (.data data)))
    (hfull : w.rmem slot ≠ .empty → Q (.error .other) u (w.note (.rmemWrite slot data)))
    (hbad : Stormy A → ∀ r c, c = w.rmem slot ∧ r = .error .other ∨ c = .data data ∨ J c →
      Q r u ((w.note (.rmemWrite slot data)).setR slot c))
    (hcut : Stormy A → ∀ c, c = w.rmem slot ∨ c = .data data ∨ J c →
      C ((w.note (.rmemWrite slot data)).setR slot c)) :
    swp (chip P) A (tropicRmemWrite slot data) Q C u w := by
  rw [tropicRmemWrite, swp_perform]
  intro f hf
  have hsame : (w.note (.rmemWrite slot data)).setR slot (w.rmem slot) =
      w.note (.rmemWrite slot data) := by
    simp [World.setR, World.note]
  have hbadSame : Stormy A → Q (.error .other) u (w.note (.rmemWrite slot data)) :=
    fun h => hsame ▸ hbad h _ _ (.inl ⟨rfl, rfl⟩)
  have hcutSame : Stormy A → C (w.note (.rmemWrite slot data)) :=
    fun h => hsame ▸ hcut h _ (.inl rfl)
  by_cases hempty : w.rmem slot = .empty
  · have hexec : ∀ w' : World, w'.rmem slot = .empty →
        exec P (.rmemWrite slot data) w' = (.ok (), w'.setR slot (.data data)) := by
      intro w' hw'
      rw [exec, if_neg]
      rintro (h | h | h)
      · exact hlen h
      · omega
      · exact h hw'
    cases f with
    | none => simpa only [chip, act, hexec _ hempty, hexec (w.note _) hempty] using hok hempty
    | fail => exact hbadSame ⟨_, hf, nofun⟩
    | lost =>
        simpa only [chip, act, failed, hexec (w.note _) hempty] using
          hbad ⟨_, hf, nofun⟩ _ _ (.inr (.inl rfl))
    | torn left acked => exact hbad ⟨_, hf, nofun⟩ _ _ (.inr (.inr (hA _ hf)))
    | cutBefore => exact hcutSame ⟨_, hf, nofun⟩
    | cutAfter =>
        simpa only [chip, act, hexec (w.note _) hempty] using
          hcut ⟨_, hf, nofun⟩ _ (.inr (.inl rfl))
    | cutTorn left => exact hcut ⟨_, hf, nofun⟩ _ (.inr (.inr (hA _ hf)))
  · have hexec : ∀ w' : World, w'.rmem slot ≠ .empty →
        exec P (.rmemWrite slot data) w' = (.error .other, w') := by
      intro w' hw'
      rw [exec, if_pos (.inr (.inr hw'))]
    cases f with
    | none => simpa only [chip, act, hexec _ hempty, hexec (w.note _) hempty] using hfull hempty
    | fail => exact hfull hempty
    | lost =>
        simpa only [chip, act, failed, hexec (w.note _) hempty] using hfull hempty
    | torn left acked => exact hbad ⟨_, hf, nofun⟩ _ _ (.inr (.inr (hA _ hf)))
    | cutBefore => exact hcutSame ⟨_, hf, nofun⟩
    | cutAfter =>
        simpa only [chip, act, hexec (w.note _) hempty] using hcutSame ⟨_, hf, nofun⟩
    | cutTorn left => exact hcut ⟨_, hf, nofun⟩ _ (.inr (.inr (hA _ hf)))

end Rules

end Nixtropic
