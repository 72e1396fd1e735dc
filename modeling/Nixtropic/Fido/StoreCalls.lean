import Nixtropic.Fido.Synced
import Nixtropic.Fido.Fits
import Nixtropic.Fido.Entries

/-!
The interface of `slots.c` as a system: any calls in any order, with the power
going at any of them, and with the rest of the firmware in between.

The rest of the firmware keeps its hands off the slots of the store and off its
variables; it may change everything else, and may draw random bytes.
-/

namespace Nixtropic.Fido

open Crash Runs

/-- What `slots_alloc` is asked for. -/
structure NewCred where
  rpIdHash : Bytes
  alg : UInt8
  flags : UInt8
  userHandle : Bytes
  created : ℕ
  replaceMask : BitVec 32
  rpIdHash_length : rpIdHash.length = 32
  created_lt : created < 2 ^ 32

/-- The calls of `slots.h` that reach the chip. -/
inductive StoreCall where
  | init
  | initFresh
  | wipeMeta
  | alloc (q : NewCred)
  | lookup (credId : Bytes)
  | readMeta (slot : ℕ)
  | erase (slot : ℕ)
  | setPinBound (bound forceUvOn : Bool)
  | forceUvSet (value : Bool)

/-- What they answer. -/
inductive StoreReply where
  | init (r : SlotsInit)
  | alloc (r : SlotsAlloc)
  | lookup (r : Option (ℕ × SlotMeta))
  | readMeta (r : MetaRead)
  | done (ok : Bool)
  deriving DecidableEq

variable (F : FidoPrims)

def NewCred.alloc (q : NewCred) : FidoM SlotsAlloc :=
  slotsAlloc F q.rpIdHash q.alg q.flags q.userHandle q.created q.replaceMask

/-- The entry of the credential, once it has its nonce. -/
def NewCred.entry (q : NewCred) (nonce : Bytes) : SlotMeta :=
  ⟨q.alg, q.flags, q.rpIdHash, nonce, q.userHandle, q.created⟩

def StoreCall.prog : StoreCall → FidoM StoreReply
  | .init => do pure (.init (← slotsInit F))
  | .initFresh => do pure (.done (← slotsInitFresh F))
  | .wipeMeta => do pure (.done (← slotsWipeMeta))
  | .alloc q => do pure (.alloc (← q.alloc F))
  | .lookup credId => do pure (.lookup (← slotsLookupByCredid credId))
  | .readMeta slot => do pure (.readMeta (← slotsReadMeta slot))
  | .erase slot => do pure (.done (← slotsErase F slot))
  | .setPinBound bound uv => do pure (.done (← slotsSetPinBound F bound uv))
  | .forceUvSet v => do pure (.done (← slotsForceUvSet F v))

/-- An R-memory slot of the store. -/
def storeSlot (slot : ℕ) : Prop := o1.owns slot ∨ metaSlot slot

/-- The board as the rest of the firmware leaves it: like `b'` where it is not
the store's. -/
def elsewhere (b b' : Board Note) : Board Note :=
  { b' with chip := { b'.chip with
      rmem := fun slot => if slot = o1.slotA ∨ slot = o1.slotB ∨ 1 ≤ slot ∧ slot ≤ fidoSlotsMax
        then b.chip.rmem slot else b'.chip.rmem slot
      rng := b.chip.rng
      drawn := b.chip.drawn + b'.chip.drawn } }

/-- The power comes, a call is made, or the rest of the firmware runs. -/
inductive StoreAction where
  | powerUp
  | call (c : StoreCall) (fs : List BoardFate)
  | elsewhere (u : FidoRam) (b : Board Note)

/-- How a call ends. -/
def Device.calls (d : Device) (c : StoreCall) (fs : List BoardFate) :
    Option (Outcome (StoreReply × FidoRam) (Board Note)) :=
  d.ram.map fun u => run (fidoBoard F) ((c.prog F).run u) fs d.board

/-- What a call answers; nothing when the power goes during it. -/
def Device.reply (d : Device) (c : StoreCall) (fs : List BoardFate) : Option StoreReply :=
  match d.calls F c fs with
  | some (.done (r, _) _) => some r
  | _ => none

def storeStep (d : Device) : StoreAction → Device
  | .powerUp => ⟨some .boot, { d.board with now := 0 }⟩
  | .call c fs =>
      match d.calls F c fs with
      | some out => .settle out
      | none => d
  | .elsewhere u' b' =>
      match d.ram with
      | some u => ⟨some { u' with slots := u.slots }, Fido.elsewhere d.board b'⟩
      | none => d

/-- The store, found switched off with a board. -/
def slotStore (b : Board Note) : System Device StoreAction := ⟨⟨none, b⟩, storeStep F⟩

/-- The fates of the calls are in `A`. -/
def StoreAction.Within (A : BoardFate → Prop) : StoreAction → Prop
  | .call _ fs => ∀ f ∈ fs, A f
  | _ => True

theorem elsewhere_rmem (b b' : Board Note) {slot : ℕ} (h : storeSlot slot) :
    (elsewhere b b').chip.rmem slot = b.chip.rmem slot := by
  apply if_pos
  rcases h with (rfl | rfl) | ⟨i, hi, rfl⟩
  · exact .inl rfl
  · exact .inr (.inl rfl)
  · exact .inr (.inr ⟨Nat.le_add_left 1 i, hi⟩)

section Runs

variable {F} {A : BoardFate → Prop} {J : FidoRam → Board Note → Prop} {C : Board Note → Prop}

/-- `J` is kept by each function of the store. -/
structure CallRules (F : FidoPrims) (A : BoardFate → Prop) (J : FidoRam → Board Note → Prop)
    (C : Board Note → Prop) : Prop where
  init : Keeps (fidoBoard F) A J C (slotsInit F)
  initFresh : Keeps (fidoBoard F) A J C (slotsInitFresh F)
  wipeMeta : Keeps (fidoBoard F) A J C slotsWipeMeta
  alloc : ∀ q : NewCred, Keeps (fidoBoard F) A J C (q.alloc F)
  read : ∀ slot, Keeps (fidoBoard F) A J C (readCred slot)
  erase : ∀ slot, Keeps (fidoBoard F) A J C (slotsErase F slot)
  setPinBound : ∀ bound uv, Keeps (fidoBoard F) A J C (slotsSetPinBound F bound uv)
  forceUvSet : ∀ v, Keeps (fidoBoard F) A J C (slotsForceUvSet F v)

/-- Then every call keeps it. -/
theorem CallRules.call (h : CallRules F A J C) (c : StoreCall) :
    Keeps (fidoBoard F) A J C (c.prog F) := by
  cases c with
  | init => exact keeps_bind h.init fun _ => keeps_pure _
  | initFresh => exact keeps_bind h.initFresh fun _ => keeps_pure _
  | wipeMeta => exact keeps_bind h.wipeMeta fun _ => keeps_pure _
  | alloc q => exact keeps_bind (h.alloc q) fun _ => keeps_pure _
  | lookup credId =>
      exact keeps_bind (keeps_slotsLookupByCredid h.read credId) fun _ => keeps_pure _
  | readMeta slot => exact keeps_bind (keeps_slotsReadMeta h.read slot) fun _ => keeps_pure _
  | erase slot => exact keeps_bind (h.erase slot) fun _ => keeps_pure _
  | setPinBound bound uv => exact keeps_bind (h.setPinBound bound uv) fun _ => keeps_pure _
  | forceUvSet v => exact keeps_bind (h.forceUvSet v) fun _ => keeps_pure _

/-- `P` is kept by the functions of the store while the copy in RAM is in step,
by those that may break it only in the calls that are allowed. A new entry may
ask for `E` besides. -/
structure Safeguards (F : FidoPrims) (A : BoardFate → Prop) (E P : Board Note → Prop)
    (allowed : StoreCall → Prop) : Prop where
  init : Keeps (fidoBoard F) A (fun _ b => P b) P (slotsInit F)
  initFresh : allowed .initFresh → Keeps (fidoBoard F) A (fun _ b => P b) P (slotsInitFresh F)
  wipeMeta : allowed .wipeMeta → Keeps (fidoBoard F) A (fun _ b => P b) P slotsWipeMeta
  alloc : ∀ q, allowed (.alloc q) → ∀ u b, Synced F u b → E b → P b →
    swp (fidoBoard F) A (q.alloc F) (fun _ _ b' => P b') P u b
  read : ∀ slot, Keeps (fidoBoard F) A (fun _ b => P b) P (readCred slot)
  erase : ∀ slot, allowed (.erase slot) → ∀ u b, Synced F u b → P b →
    swp (fidoBoard F) A (slotsErase F slot) (fun _ _ b' => P b') P u b
  flags : ∀ u b g, Synced F u b → P b → g.bitmap = u.slots.bitmap →
    swp (fidoBoard F) A (writeGlobal F g) (fun _ _ b' => P b') P u b

/-- Then every call that is allowed keeps it. -/
theorem Safeguards.call {E P : Board Note → Prop} {allowed : StoreCall → Prop}
    (h : Safeguards F A E P allowed) {c : StoreCall} (hc : allowed c) {u : FidoRam}
    {b : Board Note} (hs : Synced F u b) (hE : E b) (hP : P b) :
    swp (fidoBoard F) A (c.prog F) (fun _ _ b' => P b') P u b := by
  cases c with
  | init => exact keeps_bind h.init (fun _ => keeps_pure _) u b hP
  | initFresh => exact keeps_bind (h.initFresh hc) (fun _ => keeps_pure _) u b hP
  | wipeMeta => exact keeps_bind (h.wipeMeta hc) (fun _ => keeps_pure _) u b hP
  | alloc q =>
      rw [StoreCall.prog, swp_bind]
      exact h.alloc q hc u b hs hE hP
  | lookup credId =>
      exact keeps_bind (keeps_slotsLookupByCredid h.read credId) (fun _ => keeps_pure _) u b hP
  | readMeta slot =>
      exact keeps_bind (keeps_slotsReadMeta h.read slot) (fun _ => keeps_pure _) u b hP
  | erase slot =>
      rw [StoreCall.prog, swp_bind]
      exact h.erase slot hc u b hs hP
  | setPinBound bound uv =>
      rw [StoreCall.prog, swp_bind, slotsSetPinBound, swp_bind, swp_get]
      exact h.flags u b _ hs hP rfl
  | forceUvSet v =>
      rw [StoreCall.prog, swp_bind, slotsForceUvSet, swp_bind, swp_get]
      exact h.flags u b _ hs hP rfl

/-- What the power and the rest of the firmware keep. -/
structure Outlasts (J : FidoRam → Board Note → Prop) (C : Board Note → Prop) : Prop where
  boot : ∀ b, C b → J .boot { b with now := 0 }
  beside : ∀ (u u' : FidoRam) (b b' : Board Note), J u b →
    J { u' with slots := u.slots } (elsewhere b b')
  lose : ∀ u b, J u b → C b

/-- One action. -/
theorem storeStep_keeps (hquiet : A .quiet) (ho : Outlasts J C) {d : Device} {a : StoreAction}
    (ha : a.Within A) (hc : ∀ c fs, a = .call c fs → Keeps (fidoBoard F) A J C (c.prog F))
    (h : d.Meets J C) : (storeStep F d a).Meets J C := by
  rcases d with ⟨_ | u, b⟩
  · cases a with
    | powerUp => exact ho.boot b h
    | call c fs => exact h
    | elsewhere u' b' => exact h
  · cases a with
    | powerUp => exact ho.boot b (ho.lose u b h)
    | call c fs =>
        have hrun := run_of_swp (M := fidoBoard F) hquiet (hc c fs rfl u b h) ha
        show (Device.settle (run (fidoBoard F) ((c.prog F).run u) fs b)).Meets J C
        rcases hres : run (fidoBoard F) ((c.prog F).run u) fs b with ⟨r, u'⟩ | b'
        · rw [hres] at hrun
          exact hrun
        · rw [hres] at hrun
          exact hrun
    | elsewhere u' b' => exact ho.beside u u' b b' h

end Runs

end Nixtropic.Fido
