import Nixtropic.Fido.Frame
import Nixtropic.Tropic.Footprint

/-!
Invariants that do not notice the store.

What the token and the assertion state are about has nothing to do with what
the chip holds; what the PIN is about has nothing to do with the credentials. A
`Scope` says what may change without an invariant noticing, and an invariant
that no such change can break is a `Ground` over it. Every function of the
store that stays within the scope keeps it.
-/

namespace Nixtropic.Fido

open Crash

/-- The notes that the store leaves. -/
def Note.quiet : Note → Bool
  | .wiped => true
  | .pinVerify _ _ => true
  | .make _ => true
  | .publish _ _ => true
  | .sign _ _ => true
  | _ => false

/-- The notes that tell of the token. -/
def Note.ofToken : Note → Bool
  | .puatReset => true
  | .puatBegin _ _ _ => true
  | .puatExpire => true
  | .puatVerify _ _ _ => true
  | .puatInUse _ => true
  | .puatBindRp _ => true
  | .puatConsume => true
  | .touched _ _ => true
  | .tokenAccepted _ _ _ _ => true
  | _ => false

/-- What may change without an invariant noticing: slots of the R-memory,
keys, variables, notes. -/
structure Scope where
  rmem : ℕ → Prop
  ecc : ℕ → Prop
  ram : FidoRam → FidoRam → Prop
  note : Note → Prop

namespace Scope

/-- O1 and its copy in RAM are in the scope. -/
structure O1 (X : Scope) : Prop where
  rmem : ∀ slot, o1.owns slot → X.rmem slot
  ram : ∀ u s, X.ram u { u with slots := s }

/-- O2 is in the scope. -/
structure O2 (X : Scope) : Prop where
  rmem : ∀ slot, o2.owns slot → X.rmem slot
  ram : ∀ u v, X.ram u { u with o2Uncertain := v }

/-- The keys and the metadata are in the scope. -/
structure Creds (X : Scope) : Prop where
  rmem : ∀ i < fidoSlotsMax, X.rmem (rmemSlotFor i)
  ecc : ∀ i < fidoSlotsMax, X.ecc i

/-- What making and erasing credentials does is in the scope. -/
structure Inner (X : Scope) : Prop where
  creds : X.Creds
  mutating : ∀ u v, X.ram u { u with mutating := v }
  pin : ∀ u p, X.ram u { u with pin := p }
  make : ∀ rpIdHash, X.note (.make rpIdHash)
  publish : ∀ slot created, X.note (.publish slot created)

/-- The store without O1 and O2 is in the scope. -/
structure Outer (X : Scope) : Prop where
  creds : X.Creds
  storeInitted : ∀ u v, X.ram u { u with storeInitted := v }
  mutating : ∀ u v, X.ram u { u with mutating := v }
  pin : ∀ u p, X.ram u { u with pin := p }
  note : ∀ n, n.quiet = true → X.note n

/-- The whole store is in the scope. -/
structure Base (X : Scope) : Prop extends Outer X where
  o1 : X.O1
  o2 : X.O2

/-- And so is the iterator of the credential management. -/
structure Whole (X : Scope) : Prop extends Base X where
  iter : ∀ u i, X.ram u { u with iter := i }

/-- The token is in the scope. -/
structure Tokens (X : Scope) : Prop where
  ram : ∀ u t, X.ram u { u with token := t }
  note : ∀ n, n.ofToken = true → X.note n

theorem Outer.inner {X : Scope} (hX : X.Outer) : X.Inner :=
  ⟨hX.creds, hX.mutating, hX.pin, fun _ => hX.note _ rfl, fun _ _ => hX.note _ rfl⟩

/-- What is in both scopes. -/
def inter (X Y : Scope) : Scope where
  rmem slot := X.rmem slot ∧ Y.rmem slot
  ecc i := X.ecc i ∧ Y.ecc i
  ram u u' := X.ram u u' ∧ Y.ram u u'
  note n := X.note n ∧ Y.note n

theorem Base.inter {X Y : Scope} (hX : X.Base) (hY : Y.Base) : (X.inter Y).Base where
  creds := ⟨fun i h => ⟨hX.creds.rmem i h, hY.creds.rmem i h⟩,
    fun i h => ⟨hX.creds.ecc i h, hY.creds.ecc i h⟩⟩
  storeInitted u v := ⟨hX.storeInitted u v, hY.storeInitted u v⟩
  mutating u v := ⟨hX.mutating u v, hY.mutating u v⟩
  pin u p := ⟨hX.pin u p, hY.pin u p⟩
  note n h := ⟨hX.note n h, hY.note n h⟩
  o1 := ⟨fun s h => ⟨hX.o1.rmem s h, hY.o1.rmem s h⟩, fun u v => ⟨hX.o1.ram u v, hY.o1.ram u v⟩⟩
  o2 := ⟨fun s h => ⟨hX.o2.rmem s h, hY.o2.rmem s h⟩, fun u v => ⟨hX.o2.ram u v, hY.o2.ram u v⟩⟩

end Scope

/-- Nothing in the scope breaks `J`, the counter apart. -/
structure Footing (X : Scope) (J : FidoRam → Board Note → Prop) (C : Board Note → Prop) : Prop where
  cut : ∀ u b, J u b → C b
  chip : ∀ u b w, Away X.rmem b.chip w → J u b → J u (b.setChip w)
  ecc : ∀ u b i k, X.ecc i → J u b → J u (b.setEcc i k)
  keygen : ∀ u b i curve, X.ecc i → J u b → J u (b.keygen i curve)
  wait : ∀ u b d, J u b → J u (b.wait d)
  note : ∀ u b n, X.note n → J u b → J u (b.jot n)
  ram : ∀ u u' b, X.ram u u' → J u b → J u' b

/-- Nothing in the scope breaks `J`, whatever the counter does. -/
structure Ground (X : Scope) (J : FidoRam → Board Note → Prop) (C : Board Note → Prop) : Prop
    extends Footing X J C where
  counter : ∀ u b c, J u b → J u (b.setCounter c)

/-- What goes by the RAM copy of O1 keeps `J`. -/
structure Objects (F : FidoPrims) (A : BoardFate → Prop) (J : FidoRam → Board Note → Prop)
    (C : Board Note → Prop) : Prop extends Checks F A J C where
  alloc : ∀ rpIdHash alg flags userHandle created mask,
    Keeps (fidoBoard F) A J C (slotsAlloc F rpIdHash alg flags userHandle created mask)
  erase : ∀ slot, Keeps (fidoBoard F) A J C (slotsErase F slot)
  forceUv : ∀ v, Keeps (fidoBoard F) A J C (slotsForceUvSet F v)

/-- An invariant of the store while no PIN is set and nothing is reset: what it
keeps of O1 and O2, of an initialisation and of a signature, and that it does
not notice the rest. -/
structure Amid (F : FidoPrims) (A : BoardFate → Prop) (X : Scope)
    (J : FidoRam → Board Note → Prop) (C : Board Note → Prop) : Prop where
  ground : Footing X J C
  inner : X.Inner
  objects : Objects F A J C
  init : Keeps (fidoBoard F) A J C (credstoreInit F)
  respond : ∀ slot rpHash flags clientHash n,
    Keeps (fidoBoard F) A J C (gaSignRespond F slot rpHash flags clientHash n)

/-- An invariant of the whole store. -/
structure Around (F : FidoPrims) (A : BoardFate → Prop) (X : Scope)
    (J : FidoRam → Board Note → Prop) (C : Board Note → Prop) : Prop extends Amid F A X J C where
  store : Store F A J C
  storeInitted : ∀ u v, X.ram u { u with storeInitted := v }

theorem firstFree_lt {bitmap : BitVec 32} {slot : ℕ} (h : firstFree bitmap = some slot) :
    slot < fidoSlotsMax := List.mem_range.mp (List.mem_of_find?_eq_some h)

section Footing

variable {F : FidoPrims} {A : BoardFate → Prop} {X : Scope}
  {J : FidoRam → Board Note → Prop} {C : Board Note → Prop} {α : Type}

/-- What a call may do to the board without the invariant noticing. -/
theorem keeps_callBoard {o : BoardOp Note} (ho : o.onTropic)
    (hexec : ∀ u b, J u b → J u (boardExec F.key o b).2) (hcut : ∀ u b, J u b → C b) :
    Keeps (fidoBoard F) A J C (callBoard o) := by
  intro u b h
  apply swp_callBoard ho (hexec u b h)
  · rintro - r - b' (rfl | rfl)
    · exact h
    · exact hexec u b h
  · rintro - b' (rfl | rfl)
    · exact hcut u _ h
    · exact hcut u _ (hexec u b h)

variable (g : Footing X J C)
include g

theorem Footing.perform {o : Op} (ho : o.within X.rmem) :
    Keeps (fidoBoard F) A J C (onChip (StProg.perform o : Fw FidoRam (Ret o))) := by
  intro u b h
  apply swp_onChip
  rw [swp_perform]
  intro f _
  have hw : Away X.rmem b.chip ((Nixtropic.chip F.chip).act f o b.chip).2 := away_act ho f b.chip
  generalize (Nixtropic.chip F.chip).act f o b.chip = x at hw ⊢
  rcases x with ⟨_ | r, w⟩
  · exact g.cut u _ (g.chip u b w hw h)
  · exact g.chip u b w hw h

/-- A program of a pair within the scope. -/
theorem Footing.pair {c : Cell FidoRam Bool} {m : Fw Bool α} {S : ℕ → Prop}
    (hm : Footprint F.chip S m) (hS : ∀ slot, S slot → X.rmem slot)
    (hc : ∀ u v, X.ram u (c.put u v)) : Keeps (fidoBoard F) A J C (onPair c m) := by
  intro u b h
  have haway : ∀ w, Away S b.chip w → J u (b.setChip w) := by
    intro w hw
    exact g.chip u b w (fun slot hs => hw slot fun hs' => hs (hS slot hs')) h
  apply swp_onPair
  apply swp_mono (hm _ _ _)
  · exact fun _ v w hw => g.ram u _ _ (hc u v) (haway w hw)
  · exact fun w hw => g.cut u _ (haway w hw)

theorem Footing.o1 (h1 : X.O1) {m : Fw Bool α} (hm : Footprint F.chip o1.owns m) :
    Keeps (fidoBoard F) A J C (onPair o1Cell m) := g.pair hm h1.rmem fun u _ => h1.ram u _

theorem Footing.o2 (h2 : X.O2) {m : Fw Bool α} (hm : Footprint F.chip o2.owns m) :
    Keeps (fidoBoard F) A J C (onPair o2Cell m) := g.pair hm h2.rmem h2.ram

theorem Footing.vars {f : FidoRam → FidoRam} (hf : ∀ u, X.ram u (f u)) :
    Keeps (fidoBoard F) A J C (modify f : FidoM PUnit) :=
  keeps_modify fun u b h => g.ram u _ b (hf u) h

theorem Footing.leave {n : Note} (hn : X.note n) : Keeps (fidoBoard F) A J C (leave n) := by
  intro u b h
  exact swp_leave (g.note u b n hn h)

theorem Footing.tick : Keeps (fidoBoard F) A J C halGetTick := by
  intro u b h
  exact swp_halGetTick fun d => g.wait u b d h

theorem Footing.touch (t : ℕ) : Keeps (fidoBoard F) A J C (userPresenceCheck t) := by
  intro u b h
  apply swp_userPresenceCheck
  · exact fun _ d => g.wait u b d h
  · exact fun _ => g.cut u b h

theorem Footing.eccErase {slot : ℕ} (hslot : X.ecc slot) :
    Keeps (fidoBoard F) A J C (tropicEccErase slot) :=
  keeps_callBoard trivial (fun u b h => g.ecc u b slot none hslot h) g.cut

theorem Footing.eccGenerate {slot : ℕ} (hslot : X.ecc slot) (curve : ℕ) :
    Keeps (fidoBoard F) A J C (tropicEccGenerate slot curve) := by
  apply keeps_callBoard (o := .eccGenerate slot curve) trivial _ g.cut
  intro u b h
  rw [boardExec]
  split
  · exact h
  · exact g.keygen u b slot curve hslot h

theorem Footing.pubkeyRead (slot : ℕ) :
    Keeps (fidoBoard F) A J C (tropicEccPubkeyRead slot) := by
  apply keeps_callBoard (o := .eccPubkeyRead slot) trivial _ g.cut
  intro u b h
  rw [boardExec]
  cases b.ecc slot <;> exact h

theorem Footing.session : Keeps (fidoBoard F) A J C tropicSessionEnsure :=
  keeps_callBoard trivial (fun _ _ h => h) g.cut

theorem Footing.mcounterGet : Keeps (fidoBoard F) A J C tropicMcounterGet := by
  intro u b h
  exact swp_tropicMcounterGet h (fun _ => h) fun _ => g.cut u b h

theorem Footing.eddsaSign (slot : ℕ) (msg : Bytes) :
    Keeps (fidoBoard F) A J C (tropicEddsaSign slot msg) := by
  intro u b h
  exact swp_sign (.inl rfl) (fun _ => h) fun _ => g.cut u b h

theorem Footing.ecdsaSign (slot : ℕ) (msg : Bytes) :
    Keeps (fidoBoard F) A J C (tropicEcdsaSign slot msg) := by
  intro u b h
  exact swp_sign (.inr rfl) (fun _ => h) fun _ => g.cut u b h

/-! ### `slots.c` -/

theorem Footing.writeCred {slot : ℕ} (hslot : X.rmem (rmemSlotFor slot)) (m : SlotMeta) :
    Keeps (fidoBoard F) A J C (writeCred slot m) := by
  apply keeps_bind (g.perform (o := .rmemErase _) hslot)
  rintro (_ | _)
  · exact keeps_pure _
  · apply keeps_bind (g.perform (o := .rmemWrite _ _) hslot)
    rintro (_ | _) <;> exact keeps_pure _

theorem Footing.readCred (slot : ℕ) : Keeps (fidoBoard F) A J C (readCred slot) := by
  apply keeps_bind (g.perform (o := .rmemRead _ _) trivial)
  rintro ((_ | _) | _) <;> exact keeps_pure _

theorem Footing.setSlots (h1 : X.O1) {f : FidoRam → SlotsRam} :
    Keeps (fidoBoard F) A J C (modify fun u => { u with slots := f u } : FidoM PUnit) :=
  g.vars fun u => h1.ram u (f u)

theorem Footing.writeGlobal (h1 : X.O1) (v : Global) :
    Keeps (fidoBoard F) A J C (writeGlobal F v) := by
  apply keeps_get_bind
  intro u
  apply keeps_ite _ (keeps_pure _)
  apply keeps_bind (g.o1 h1 footprint_recPairWrite)
  intro st
  cases st with
  | ok => exact keeps_bind (g.setSlots h1) fun _ => keeps_pure _
  | _ => exact keeps_pure _

theorem Footing.slotsInit (h1 : X.O1) : Keeps (fidoBoard F) A J C (slotsInit F) :=
  keeps_slotsInit g.session (g.o1 h1 footprint_recPairRead) (fun _ => g.setSlots h1) g.readCred
    (g.writeGlobal h1)

theorem Footing.slotsInitFresh (h1 : X.O1) : Keeps (fidoBoard F) A J C (slotsInitFresh F) := by
  refine keeps_bind (g.setSlots h1) fun _ => ?_
  apply keeps_bind (g.o1 h1 footprint_recPairInit)
  intro st
  cases st with
  | ok =>
      refine keeps_bind (g.setSlots h1) fun _ => ?_
      exact keeps_bind (g.setSlots h1) fun _ => keeps_pure _
  | _ => exact keeps_pure _

theorem Footing.slotsWipeMeta (hc : X.Creds) : Keeps (fidoBoard F) A J C slotsWipeMeta := by
  apply keeps_bind
  · apply keeps_loop_lt
    intro i _ hi
    apply keeps_bind (g.perform (o := .rmemErase _) (hc.rmem i hi))
    rintro (_ | _)
    · exact keeps_pure _
    · apply keeps_bind (g.perform (o := .rmemRead _ _) trivial)
      rintro ((_ | _) | _) <;> exact keeps_pure _
  · exact fun _ => keeps_pure _

/-- A new credential, whatever is to be said of the write of O1. -/
theorem Footing.slotsAlloc_with (hX : X.Inner)
    (hwrite : ∀ v, Keeps (fidoBoard F) A J C (Fido.writeGlobal F v)) (rpIdHash : Bytes)
    (alg flags : UInt8) (userHandle : Bytes) (created : ℕ) (mask : BitVec 32) :
    Keeps (fidoBoard F) A J C (slotsAlloc F rpIdHash alg flags userHandle created mask) := by
  apply keeps_get_bind
  intro u
  apply keeps_ite (keeps_pure _)
  apply keeps_ite (keeps_pure _)
  cases hfree : firstFree u.slots.bitmap with
  | none => exact keeps_pure _
  | some slot =>
      apply keeps_bind (g.perform (o := .random _) trivial)
      rintro (_ | nonce)
      · exact keeps_pure _
      · apply keeps_bind (g.writeCred (hX.creds.rmem _ (firstFree_lt hfree)) _)
        intro ok
        apply keeps_ite _ (keeps_pure _)
        apply keeps_bind (g.leave (hX.publish _ _))
        intro _
        apply keeps_bind (hwrite _)
        intro ok
        exact keeps_ite (keeps_pure _) (keeps_pure _)

/-- What `slotsErase` has left after its publish. -/
def erasesRecord (slot : ℕ) (ok : Bool) : FidoM Bool := do
  if ok then
    match ← onChip (tropicRmemErase (rmemSlotFor slot)) with
    | .error _ => pure false
    | .ok () => pure true
  else pure false

/-- An erased credential, whatever is to be said of the write of O1. -/
theorem Footing.slotsErase_with (hX : X.Inner)
    (hwrite : ∀ v, Keeps (fidoBoard F) A J C (Fido.writeGlobal F v)) (slot : ℕ) :
    Keeps (fidoBoard F) A J C (slotsErase F slot) := by
  have rest : slot < fidoSlotsMax →
      ∀ ok : Bool, Keeps (fidoBoard F) A J C (erasesRecord slot ok) := by
    intro hslot ok
    apply keeps_ite _ (keeps_pure _)
    apply keeps_bind (g.perform (o := .rmemErase _) (hX.creds.rmem slot hslot))
    rintro (_ | _) <;> exact keeps_pure _
  apply keeps_get_bind
  intro u
  split
  · exact keeps_pure _
  · rename_i hno
    have hslot : slot < fidoSlotsMax := Nat.lt_of_not_le fun h => hno (.inl h)
    exact keeps_ite (keeps_bind (keeps_pure _) (rest hslot))
      (keeps_bind (hwrite _) (rest hslot))

theorem Footing.slotsAlloc (hX : X.Base) (rpIdHash : Bytes) (alg flags : UInt8) (userHandle : Bytes)
    (created : ℕ) (mask : BitVec 32) :
    Keeps (fidoBoard F) A J C (slotsAlloc F rpIdHash alg flags userHandle created mask) :=
  g.slotsAlloc_with hX.inner (g.writeGlobal hX.o1) _ _ _ _ _ _

theorem Footing.slotsErase (hX : X.Base) (slot : ℕ) :
    Keeps (fidoBoard F) A J C (slotsErase F slot) :=
  g.slotsErase_with hX.inner (g.writeGlobal hX.o1) slot

theorem Footing.slotsSetPinBound (h1 : X.O1) (bound uv : Bool) :
    Keeps (fidoBoard F) A J C (slotsSetPinBound F bound uv) :=
  keeps_get_bind fun _ => g.writeGlobal h1 _

theorem Footing.slotsForceUvSet (h1 : X.O1) (v : Bool) :
    Keeps (fidoBoard F) A J C (slotsForceUvSet F v) :=
  keeps_get_bind fun _ => g.writeGlobal h1 _

/-! ### `pin_md.c` and `fido_state.c` -/

theorem Footing.fidoPinClear (h2 : X.O2) : Keeps (fidoBoard F) A J C fidoPinClear := by
  refine keeps_bind (g.vars fun u => h2.ram u false) fun _ => ?_
  exact keeps_bind (g.o2 h2 footprint_pinMdKernelClear) fun _ => keeps_pure _

theorem Footing.eraseKeys (hc : X.Creds) : Keeps (fidoBoard F) A J C eraseKeys := by
  apply keeps_bind
  · apply keeps_loop_lt
    intro i _ hi
    apply keeps_bind (g.eccErase (hc.ecc i hi))
    rintro (_ | _) <;> exact keeps_pure _
  · exact fun _ => keeps_pure _

/-! ### `credstore.c` -/

theorem Footing.prepareKey {slot : ℕ} (hslot : X.ecc slot) (alg : CoseAlg) :
    Keeps (fidoBoard F) A J C (prepareKey slot alg) := by
  apply keeps_bind (g.eccErase hslot)
  rintro (_ | _)
  · exact keeps_pure _
  · apply keeps_bind (g.eccGenerate hslot _)
    rintro (_ | _)
    · exact keeps_pure _
    · apply keeps_bind (g.pubkeyRead slot)
      rintro (_ | _) <;> exact keeps_pure _

theorem Footing.credstoreSign (slot : ℕ) (alg : UInt8) (msg : Bytes)
    (hn : X.note (.sign slot msg)) :
    Keeps (fidoBoard F) A J C (credstoreSign slot alg msg) := by
  apply keeps_bind (g.leave hn)
  intro _
  apply keeps_ite (keeps_pure _)
  cases algOfStored alg with
  | none => exact keeps_pure _
  | some a =>
      cases a with
      | eddsa =>
          apply keeps_bind (g.eddsaSign slot msg)
          rintro (_ | _) <;> exact keeps_pure _
      | es256 =>
          apply keeps_bind (g.ecdsaSign slot msg)
          rintro (_ | _) <;> exact keeps_pure _

theorem Footing.readSigncount : Keeps (fidoBoard F) A J C readSigncount := by
  apply keeps_bind g.mcounterGet
  rintro (_ | _) <;> exact keeps_pure _

/-! ### Making and erasing -/

theorem Footing.setMutating (hX : X.Inner) (v : Bool) : Keeps (fidoBoard F) A J C (setMutating v) :=
  g.vars fun u => hX.mutating u v

section Making

variable (halloc : ∀ rpIdHash alg flags userHandle created mask,
    Keeps (fidoBoard F) A J C (Fido.slotsAlloc F rpIdHash alg flags userHandle created mask))
  (herase : ∀ slot, Keeps (fidoBoard F) A J C (Fido.slotsErase F slot))
include halloc herase

theorem Footing.makeIn {slot : ℕ} (hslot : X.ecc slot) (rpIdHash : Bytes) (alg : CoseAlg)
    (flags : UInt8) (userHandle : Bytes) (created : ℕ) (mask : BitVec 32) :
    Keeps (fidoBoard F) A J C (makeIn F slot rpIdHash alg flags userHandle created mask) := by
  apply keeps_bind (g.prepareKey hslot alg)
  rintro (_ | pubkey)
  · exact keeps_bind (g.eccErase hslot) fun _ => keeps_pure _
  · apply keeps_bind (halloc _ _ _ _ _ _)
    intro r
    cases r with
    | unknown => exact keeps_pure _
    | ok credId got =>
        apply keeps_ite (keeps_pure _)
        exact keeps_bind (g.eccErase hslot) fun _ => keeps_bind (herase got) fun _ => keeps_pure _
    | full => exact keeps_bind (g.eccErase hslot) fun _ => keeps_pure _
    | chip => exact keeps_bind (g.eccErase hslot) fun _ => keeps_pure _

theorem Footing.credstoreMake (hX : X.Inner)
    (hinit : Keeps (fidoBoard F) A J C (Fido.credstoreInit F))
    (rpIdHash : Bytes) (alg : CoseAlg) (flags : UInt8) (userHandle : Bytes) (created : ℕ)
    (mask : BitVec 32) :
    Keeps (fidoBoard F) A J C (credstoreMake F rpIdHash alg flags userHandle created mask) := by
  apply keeps_bind (g.leave (hX.make _))
  intro _
  apply keeps_get_bind
  intro u
  apply keeps_ite _ (keeps_pure _)
  apply keeps_bind hinit
  intro ok
  apply keeps_ite _ (keeps_pure _)
  apply keeps_bind (g.setMutating hX true)
  intro _
  apply keeps_get_bind
  intro u
  cases hfree : firstFree u.bitmap with
  | none => exact keeps_bind (g.setMutating hX false) fun _ => keeps_pure _
  | some slot =>
      have hslot := hX.creds.ecc slot (firstFree_lt hfree)
      exact keeps_bind (g.makeIn halloc herase hslot _ _ _ _ _ _) fun _ =>
        keeps_bind (g.setMutating hX false) fun _ => keeps_pure _

end Making

theorem Footing.credstoreEraseSlot (hX : X.Inner)
    (herase : ∀ slot, Keeps (fidoBoard F) A J C (Fido.slotsErase F slot)) (slot : ℕ) :
    Keeps (fidoBoard F) A J C (credstoreEraseSlot F slot) := by
  apply keeps_get_bind
  intro u
  split
  · exact keeps_pure _
  · rename_i hno
    have hslot : slot < fidoSlotsMax := Nat.lt_of_not_le fun h => hno (.inl h)
    apply keeps_bind (g.setMutating hX true)
    intro _
    apply keeps_bind (g.eccErase (hX.creds.ecc slot hslot))
    rintro (_ | _)
    · exact keeps_bind (g.setMutating hX false) fun _ => keeps_pure _
    · exact keeps_bind (herase slot) fun _ => keeps_bind (g.setMutating hX false) fun _ =>
        keeps_pure _

end Footing

/-! ### What changes the counter -/

section Ground

variable {F : FidoPrims} {A : BoardFate → Prop} {X : Scope}
  {J : FidoRam → Board Note → Prop} {C : Board Note → Prop} (g : Ground X J C)
include g

theorem Ground.mcounterInit (v : ℕ) : Keeps (fidoBoard F) A J C (tropicMcounterInit v) :=
  keeps_callBoard trivial (fun u b h => g.counter u b (some v) h) g.cut

theorem Ground.mcounterUpdate : Keeps (fidoBoard F) A J C tropicMcounterUpdate := by
  intro u b h
  have hticks : ∀ b', b.Ticks b' → J u b' := by
    rintro b' (rfl | ⟨v, -, rfl⟩)
    · exact h
    · exact g.counter u b _ h
  apply swp_tropicMcounterUpdate
  · exact fun v _ => g.counter u b _ h
  · exact hticks
  · exact fun b' hb => g.cut u b' (hticks b' hb)

theorem Ground.fidoStateWipe (hX : X.Base) : Keeps (fidoBoard F) A J C (fidoStateWipe F) :=
  keeps_fidoStateWipe (g.eraseKeys hX.creds) (g.slotsWipeMeta hX.creds) (g.leave (hX.note _ rfl))
    (g.fidoPinClear hX.o2) (g.slotsInitFresh hX.o1) g.mcounterInit

theorem Ground.credstoreSigncountNext (hinit : Keeps (fidoBoard F) A J C (Fido.credstoreInit F)) :
    Keeps (fidoBoard F) A J C (credstoreSigncountNext F) := by
  apply keeps_bind hinit
  intro ok
  apply keeps_ite _ (keeps_pure _)
  apply keeps_bind g.mcounterUpdate
  rintro (_ | _)
  · exact keeps_pure _
  · exact g.readSigncount

theorem Ground.gaSignRespond (hinit : Keeps (fidoBoard F) A J C (Fido.credstoreInit F))
    (hn : ∀ slot msg, X.note (.sign slot msg)) (slot : ℕ) (rpHash : Bytes) (flags : UInt8)
    (clientHash : Bytes) (n : ℕ) :
    Keeps (fidoBoard F) A J C (gaSignRespond F slot rpHash flags clientHash n) := by
  apply keeps_bind (keeps_slotsReadMeta g.readCred slot)
  intro r
  cases r with
  | ok m =>
      apply keeps_ite (keeps_pure _)
      apply keeps_ite (keeps_pure _)
      apply keeps_bind (g.credstoreSigncountNext hinit)
      rintro (_ | sc)
      · exact keeps_pure _
      · dsimp only
        cases buildAuthdata rpHash flags sc [] [] 69 with
        | none => exact keeps_pure _
        | some ad =>
            apply keeps_bind (g.credstoreSign _ _ _ (hn _ _))
            rintro (_ | sig) <;> exact keeps_pure _
  | _ => exact keeps_pure _

/-- An invariant of the whole store, given what it keeps of O1 and O2. -/
theorem Ground.around_of (hX : X.Outer) (st : Store F A J C)
    (alloc : ∀ rpIdHash alg flags userHandle created mask,
      Keeps (fidoBoard F) A J C (Fido.slotsAlloc F rpIdHash alg flags userHandle created mask))
    (erase : ∀ slot, Keeps (fidoBoard F) A J C (Fido.slotsErase F slot))
    (forceUv : ∀ v, Keeps (fidoBoard F) A J C (Fido.slotsForceUvSet F v)) : Around F A X J C :=
  have hinit : Keeps (fidoBoard F) A J C (Fido.credstoreInit F) :=
    st.credstoreInit (g.vars fun u => hX.storeInitted u true)
  { ground := g.toFooting
    inner := hX.inner
    objects := { st.toChecks with alloc, erase, forceUv }
    init := hinit
    respond := g.gaSignRespond hinit fun _ _ => hX.note _ rfl
    store := st
    storeInitted := hX.storeInitted }

theorem Ground.store (hX : X.Base) : Store F A J C where
  status := g.o2 hX.o2 footprint_pinMdKernelStatus
  setup _ _ := g.o2 hX.o2 footprint_pinMdKernelSetup
  verify _ := g.o2 hX.o2 footprint_pinMdKernelVerify
  verified _ _ := g.leave (hX.note _ rfl)
  change _ _ _ := g.o2 hX.o2 footprint_pinMdKernelChange
  guard := g.slotsSetPinBound hX.o1 true true
  init := g.slotsInit hX.o1
  wipe := g.fidoStateWipe hX
  counter := g.mcounterGet

theorem Ground.around (hX : X.Base) : Around F A X J C :=
  g.around_of hX.toOuter (g.store hX) (g.slotsAlloc hX) (g.slotsErase hX) (g.slotsForceUvSet hX.o1)

theorem Ground.and {X' : Scope} {J' : FidoRam → Board Note → Prop} {C' : Board Note → Prop}
    (g' : Ground X' J' C') :
    Ground (X.inter X') (fun u b => J u b ∧ J' u b) (fun b => C b ∧ C' b) where
  cut u b h := ⟨g.cut u b h.1, g'.cut u b h.2⟩
  chip u b w hw h := ⟨g.chip u b w (fun s hs => hw s fun h' => hs h'.1) h.1,
    g'.chip u b w (fun s hs => hw s fun h' => hs h'.2) h.2⟩
  ecc u b s k hs h := ⟨g.ecc u b s k hs.1 h.1, g'.ecc u b s k hs.2 h.2⟩
  keygen u b s c hs h := ⟨g.keygen u b s c hs.1 h.1, g'.keygen u b s c hs.2 h.2⟩
  counter u b c h := ⟨g.counter u b c h.1, g'.counter u b c h.2⟩
  wait u b d h := ⟨g.wait u b d h.1, g'.wait u b d h.2⟩
  note u b n hn h := ⟨g.note u b n hn.1 h.1, g'.note u b n hn.2 h.2⟩
  ram u u' b hu h := ⟨g.ram u u' b hu.1 h.1, g'.ram u u' b hu.2 h.2⟩

end Ground

section Amid

variable {F : FidoPrims} {A : BoardFate → Prop} {X : Scope}
  {J : FidoRam → Board Note → Prop} {C : Board Note → Prop} (a : Amid F A X J C)
include a

theorem Amid.credstoreMake (rpIdHash : Bytes) (alg : CoseAlg) (flags : UInt8)
    (userHandle : Bytes) (created : ℕ) (mask : BitVec 32) :
    Keeps (fidoBoard F) A J C (credstoreMake F rpIdHash alg flags userHandle created mask) :=
  a.ground.credstoreMake a.objects.alloc a.objects.erase a.inner a.init _ _ _ _ _ _

theorem Amid.credstoreEraseSlot (slot : ℕ) :
    Keeps (fidoBoard F) A J C (credstoreEraseSlot F slot) :=
  a.ground.credstoreEraseSlot a.inner a.objects.erase slot

theorem Amid.doDeleteCredential (credId : Except Status Bytes) :
    Keeps (fidoBoard F) A J C (doDeleteCredential F credId) :=
  keeps_doDeleteCredential (keeps_credstoreLookup a.init a.ground.readCred)
    (keeps_slotsReadMeta a.ground.readCred) a.credstoreEraseSlot credId

/-- With what it keeps of the token, such an invariant is one of the credential management. -/
theorem Amid.managing (hiter : ∀ u i, X.ram u { u with iter := i })
    (cmToken : ∀ q sub, Keeps (fidoBoard F) A J C (checkCmToken q sub))
    (continues : Keeps (fidoBoard F) A J C cmContinues) : Managing F A J C where
  readCred := a.ground.readCred
  pubkeyRead := a.ground.pubkeyRead
  delete := a.doDeleteCredential
  iter f := a.ground.vars fun u => hiter u (f u.iter)
  cmToken := cmToken
  continues := continues

theorem Amid.credstoreSigncountPeek :
    Keeps (fidoBoard F) A J C (credstoreSigncountPeek F) := by
  apply keeps_bind a.init
  intro ok
  exact keeps_ite a.ground.readSigncount (keeps_pure _)

theorem Amid.pinned : Pinned F A J C where
  toChecks := a.objects.toChecks
  random _ := a.ground.perform (o := .random _) trivial
  pinRam f := a.ground.vars fun u => a.inner.pin u (f u.pin)

/-- With what it keeps of the token and of the PIN, such an invariant is one of
all handlers that are made of the store. -/
theorem Amid.shared (reset : Keeps (fidoBoard F) A J C puatReset)
    (setPin : ∀ mat len, Keeps (fidoBoard F) A J C (do puatReset; fidoPinSet F mat len))
    (changePin : ∀ mat mat' len,
      Keeps (fidoBoard F) A J C (do puatReset; fidoPinChange F mat mat' len))
    (issue : ∀ key phe perms rp, Keeps (fidoBoard F) A J C (do
      let rc ← verifyPinHashEnc F key phe
      if rc = .ok then issueToken F key perms rp else pure (.status rc)))
    (acfgToken : ∀ c sub, Keeps (fidoBoard F) A J C (checkAcfgToken c sub)) : Shared F A J C where
  toPinned := a.pinned
  init := a.init
  setPin := setPin
  changePin := changePin
  issue := issue
  eraseSlot := a.credstoreEraseSlot
  forceUv := a.objects.forceUv
  readCred := a.ground.readCred
  pubkeyRead := a.ground.pubkeyRead
  hmac _ _ := a.ground.perform (o := .hmac _ _) trivial
  touch := a.ground.touch
  puatReset := reset
  acfgToken := acfgToken

end Amid

section Around

variable {F : FidoPrims} {A : BoardFate → Prop} {X : Scope}
  {J : FidoRam → Board Note → Prop} {C : Board Note → Prop} (a : Around F A X J C)
include a

theorem Around.setStoreInitted (v : Bool) :
    Keeps (fidoBoard F) A J C (setStoreInitted v) := a.ground.vars fun u => a.storeInitted u v

theorem Around.credstoreFactoryReset :
    Keeps (fidoBoard F) A J C (credstoreFactoryReset F) := by
  apply keeps_bind (a.setStoreInitted false)
  intro _
  apply keeps_bind (a.store.wipe)
  intro rc
  exact keeps_ite (keeps_bind (a.setStoreInitted true) fun _ => keeps_pure _) (keeps_pure _)

/-- The same for an invariant of the whole store, given what it keeps of the
token alone. -/
theorem Around.shared (reset : Keeps (fidoBoard F) A J C puatReset)
    (issue : ∀ key perms rp, Keeps (fidoBoard F) A J C (issueToken F key perms rp))
    (acfgToken : ∀ c sub, Keeps (fidoBoard F) A J C (checkAcfgToken c sub)) : Shared F A J C :=
  a.toAmid.shared reset (fun mat len => keeps_bind reset fun _ => a.store.fidoPinSet mat len)
    (fun mat mat' len => keeps_bind reset fun _ => a.store.fidoPinChange mat mat' len)
    (fun key phe perms rp => keeps_bind (a.pinned.verifyPinHashEnc key phe) fun _ =>
      keeps_ite (issue key perms rp) (keeps_pure _))
    acfgToken

theorem Around.frame (hiter : ∀ u i, X.ram u { u with iter := i })
    (reset : Keeps (fidoBoard F) A J C puatReset)
    (issue : ∀ key perms rp, Keeps (fidoBoard F) A J C (issueToken F key perms rp))
    (cmToken : ∀ q sub, Keeps (fidoBoard F) A J C (checkCmToken q sub))
    (acfgToken : ∀ c sub, Keeps (fidoBoard F) A J C (checkAcfgToken c sub))
    (continues : Keeps (fidoBoard F) A J C cmContinues) : Frame F A J C where
  toShared := a.shared reset issue acfgToken
  iter f := a.ground.vars fun u => hiter u (f u.iter)
  cmToken := cmToken
  continues := continues

end Around

end Nixtropic.Fido
