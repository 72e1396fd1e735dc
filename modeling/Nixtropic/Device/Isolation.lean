import Nixtropic.Fido.CredResolve
import Nixtropic.Pgp.Frame

/-!
FIDO and the OpenPGP card on one chip.

The slots that either changes come from bitmaps, from ids and object numbers the
host sends, and from records read off the chip. Whatever these say, FIDO stays
with O1, O2, its entries and their keys, and the records of the card are the only
R-memory the card changes. So no order of commands to the two lets one change the
records of the other.
-/

namespace Nixtropic.Fido

open Crash Runs

/-- The memories of FIDO: O1, O2, the entries and their keys. -/
def fidoScope : Scope where
  rmem slot := o1.owns slot ∨ o2.owns slot ∨ metaSlot slot
  ecc i := i < fidoSlotsMax
  ram _ _ := True
  note _ := True

theorem fidoScope_base : fidoScope.Base where
  creds := ⟨fun i hi => .inr (.inr ⟨i, hi, rfl⟩), fun _ hi => hi⟩
  storeInitted _ _ := trivial
  mutating _ _ := trivial
  pin _ _ := trivial
  note _ _ := trivial
  o1 := ⟨fun _ h => .inl h, fun _ _ => trivial⟩
  o2 := ⟨fun _ h => .inr (.inl h), fun _ _ => trivial⟩

theorem fidoScope_served : fidoScope.Served where
  tokens := ⟨fun _ _ => trivial, fun _ _ => trivial⟩
  resets := ⟨trivial, trivial⟩
  assertions := ⟨fun _ _ => trivial, trivial, trivial, trivial⟩
  iter _ _ := trivial
  powerUp := trivial
  request _ := trivial
  answer _ _ := trivial

/-- Outside the memories of FIDO the board is as it was. -/
structure Untouched (b b' : Board Note) : Prop where
  rmem : Away fidoScope.rmem b.chip b'.chip
  ecc : ∀ i, fidoSlotsMax ≤ i → b'.ecc i = b.ecc i

theorem Untouched.refl (b : Board Note) : Untouched b b := ⟨Away.refl _ _, fun _ _ => rfl⟩

theorem Untouched.update {b b' b'' : Board Note} (h : Untouched b b') {i : ℕ} {k : Option EccKey}
    (hi : i < fidoSlotsMax) (hchip : b''.chip = b'.chip)
    (hecc : b''.ecc = Function.update b'.ecc i k) : Untouched b b'' := by
  refine ⟨?_, fun j hj => ?_⟩
  · rw [hchip]
    exact h.rmem
  · have hne : j ≠ i := by omega
    rw [hecc, Function.update_of_ne hne]
    exact h.ecc j hj

theorem untouched_ground (b : Board Note) :
    Ground fidoScope (fun _ b' => Untouched b b') (Untouched b) where
  cut _ _ h := h
  chip _ _ _ hw h := ⟨h.rmem.trans hw, h.ecc⟩
  ecc _ _ _ _ hi h := h.update hi rfl rfl
  keygen _ _ _ _ hi h := h.update hi rfl rfl
  counter _ _ _ h := ⟨h.rmem, h.ecc⟩
  wait _ _ _ h := ⟨h.rmem, h.ecc⟩
  note _ _ _ _ h := ⟨h.rmem, h.ecc⟩
  ram _ _ _ _ h := h

/-- From any state of the device, whatever arrives and whatever the fates. -/
theorem untouched_step (F : FidoPrims) (d : Device) (a : Action) :
    Untouched d.board (d.step F a).board := by
  have haround := (untouched_ground d.board).around (F := F) (A := fun _ => True) fidoScope_base
  have hstart : d.Meets (fun _ b => Untouched d.board b) (Untouched d.board) := by
    rcases d with ⟨_ | u, b⟩
    · exact .refl b
    · exact .refl b
  have hstep : (Device.step F d a).Meets (fun _ b => Untouched d.board b) (Untouched d.board) := by
    apply meets_step (A := fun _ => True) (J := fun _ b => Untouched d.board b)
      (C := Untouched d.board) trivial (fun _ _ h => h) _ hstart
    · cases a <;> exact fun _ _ => trivial
    · exact fun r _ u _ _ h => haround.fidoHidCborDispatch fidoScope_served r u _ h
    · exact fun b h => haround.bringUp fidoScope_served .boot _ ⟨h.rmem, h.ecc⟩
  generalize Device.step F d a = d' at hstep ⊢
  rcases d' with ⟨_ | u, b⟩
  · exact hstep
  · exact hstep

end Nixtropic.Fido

namespace Nixtropic.Pgp

open Crash Runs

/-- An R-memory slot of the card. -/
def cardSlot (slot : ℕ) : Prop := ∃ p ∈ cardPairs, p.owns slot

/-- The R-memory of others is as it was. -/
def OthersKept (b b' : Board Note) : Prop := Away cardSlot b.chip b'.chip

/-- The program leaves the R-memory of others alone. -/
abbrev Apart {α : Type} (F : PgpPrims) (A : BoardFate → Prop) (b : Board Note)
    (m : PgpM α) : Prop :=
  Keeps (pgpBoard F) A (fun _ b' => OthersKept b b') (OthersKept b) m

section Apart

variable {F : PgpPrims} {A : BoardFate → Prop} {b : Board Note} {α : Type}

theorem apart_pair {c : Cell PgpRam Bool} {m : Fw Bool α} {p : RecPair} (hp : p ∈ cardPairs)
    (hm : Footprint F.chip p.owns m) : Apart F A b (onPair c m) := by
  intro u b' h
  have hin : ∀ {w}, Away p.owns b'.chip w → Away cardSlot b.chip w := fun hw =>
    Away.trans h (Fido.Away.mono hw fun _ hs => ⟨p, hp, hs⟩)
  apply swp_onPair
  exact swp_mono (hm _ _ _) (fun _ _ _ hw => hin hw) fun _ hw => hin hw

theorem o3_mem : o3 ∈ cardPairs := List.mem_cons_self

theorem pin_mem (which : Which) : (layoutOf which).record ∈ cardPairs := by
  cases which <;> simp [layoutOf, cardPairs]

theorem apart_board (o : BoardOp Note) : Apart F A b (callBoard o : PgpM _) := by
  intro u b' h
  rw [callBoard, swp_perform]
  intro f _
  have hact : (pgpBoard F).act f (Sum.inr o) b' = boardAct F.key f o b' := rfl
  have hchip := Fido.boardAct_chip F.key f o b'
  rw [hact]
  generalize boardAct F.key f o b' = x at hchip ⊢
  rcases x with ⟨_ | r, b''⟩
  · show Away cardSlot b.chip b''.chip
    rw [show b''.chip = b'.chip from hchip]
    exact h
  · show Away cardSlot b.chip b''.chip
    rw [show b''.chip = b'.chip from hchip]
    exact h

theorem apart_perform {o : Op} (ho : o.within fun _ => False) :
    Apart F A b (onChip (StProg.perform o : Fw PgpRam (Ret o))) := by
  intro u b' h
  apply swp_onChip
  rw [swp_perform]
  intro f _
  have hw : Away (fun _ => False) b'.chip ((chip F.chip).act f o b'.chip).2 := away_act ho f b'.chip
  have hin : Away cardSlot b.chip ((chip F.chip).act f o b'.chip).2 :=
    Away.trans h (Fido.Away.mono hw fun _ hs => hs.elim)
  generalize (chip F.chip).act f o b'.chip = x at hin ⊢
  rcases x with ⟨_ | r, w⟩
  · exact hin
  · exact hin

theorem apart_vars {f : PgpRam → PgpRam} : Apart F A b (modify f) := keeps_modify fun _ _ h => h

/-! ### O3 -/

theorem apart_commit (next : Bytes) : Apart F A b (commit F next) := by
  apply keeps_get_bind
  intro u
  apply keeps_ite _ (keeps_pure _)
  apply keeps_bind (apart_pair o3_mem footprint_recPairWrite)
  intro r
  cases r with
  | ok => exact keeps_bind apart_vars fun _ => keeps_pure _
  | _ => exact keeps_pure _

theorem apart_setBytes (off : ℕ) (v : Bytes) : Apart F A b (setBytes F off v) :=
  keeps_get_bind fun _ => apart_commit _

theorem apart_setRcSet (v : UInt8) : Apart F A b (openpgpStateSetRcSet F v) :=
  keeps_ite (apart_setBytes _ _) (keeps_pure _)

theorem apart_setUif (v : UInt8) : Apart F A b (openpgpStateSetUif F v) := by
  apply keeps_get_bind
  intro u
  apply keeps_ite (keeps_pure _)
  apply keeps_ite (keeps_pure _)
  apply keeps_bind (apart_setBytes _ _)
  exact fun _ => keeps_ite (keeps_pure _) (keeps_pure _)

theorem apart_sigCounterIncrement : Apart F A b (openpgpStateSigCounterIncrement F) :=
  keeps_get_bind fun _ => apart_commit _

theorem apart_stateLoad : Apart F A b (openpgpStateLoad F) := by
  apply keeps_bind apart_vars
  intro _
  apply keeps_bind (apart_pair o3_mem footprint_recPairRead)
  intro r
  cases r with
  | ok buf gen =>
      apply keeps_ite _ (keeps_pure _)
      exact keeps_bind apart_vars fun _ => keeps_pure _
  | _ => exact keeps_pure _

theorem apart_stateClear : Apart F A b openpgpStateClear := by
  apply keeps_bind apart_vars
  intro _
  apply keeps_bind apart_vars
  intro _
  apply keeps_bind apart_vars
  intro _
  apply keeps_bind (apart_pair o3_mem footprint_recPairClear)
  intro r
  cases r <;> exact keeps_pure _

theorem apart_stateInit (lc : Lifecycle) : Apart F A b (openpgpStateInit F lc) := by
  apply keeps_bind apart_vars
  intro _
  apply keeps_bind apart_vars
  intro _
  apply keeps_ite (keeps_pure _)
  apply keeps_bind (apart_pair o3_mem footprint_recPairInit)
  intro r
  cases r with
  | ok => exact keeps_bind apart_vars fun _ => keeps_pure _
  | _ => exact keeps_pure _

theorem apart_stateActivate : Apart F A b (openpgpStateActivate F) := by
  unfold openpgpStateActivate
  generalize defaults .operational = next
  apply keeps_get_bind
  intro u
  apply keeps_ite _ (keeps_pure _)
  apply keeps_bind (apart_pair o3_mem footprint_recPairWrite)
  intro r
  cases r with
  | ok => exact keeps_bind apart_vars fun _ => keeps_pure _
  | _ => exact keeps_pure _

/-! ### PINs -/

theorem apart_clearPin (which : Which) : Apart F A b (clearPin which) := by
  apply keeps_bind apart_vars
  intro _
  apply keeps_bind (apart_pair (pin_mem which) footprint_pinMdKernelClear)
  intro r
  cases r <;> exact keeps_pure _

theorem apart_bindPin (which : Which) (pin : Bytes) : Apart F A b (bindPin F which pin) :=
  keeps_bind (apart_pair (pin_mem which) footprint_pinMdKernelSetup) fun _ => keeps_pure _

theorem apart_clearAll : Apart F A b pgpPinClearAll := by
  apply keeps_bind (apart_clearPin .pw1)
  intro ok
  apply keeps_ite _ (keeps_pure _)
  apply keeps_bind (apart_clearPin .pw3)
  intro ok
  exact keeps_ite (apart_clearPin .rc) (keeps_pure _)

theorem apart_bindFactory : Apart F A b (pgpPinBindFactory F) := by
  apply keeps_bind (apart_bindPin .pw1 _)
  intro ok
  exact keeps_ite (apart_bindPin .pw3 _) (keeps_pure _)

theorem apart_bindRc (rc : Bytes) : Apart F A b (bindRc F rc) := by
  apply keeps_bind (apart_bindPin .rc rc)
  intro ok
  apply keeps_ite _ (keeps_pure _)
  apply keeps_bind (apart_setRcSet 1)
  exact fun _ => keeps_ite (keeps_pure _) (keeps_pure _)

theorem apart_pinSetRc (rc : Bytes) : Apart F A b (pgpPinSetRc F rc) := by
  apply keeps_get_bind
  intro u
  apply keeps_ite (keeps_pure _)
  apply keeps_ite (keeps_pure _)
  apply keeps_bind (apart_clearPin .rc)
  intro ok
  apply keeps_ite _ (keeps_pure _)
  apply keeps_get_bind
  intro u
  have hrest : ∀ dropped : Bool, Apart F A b
      (if dropped then if rc.length = 0 then pure PinRc.ok else bindRc F rc else pure .err) := by
    intro dropped
    apply keeps_ite _ (keeps_pure _)
    exact keeps_ite (keeps_pure _) (apart_bindRc rc)
  apply keeps_ite
  · exact keeps_bind (apart_setRcSet 0) hrest
  · exact keeps_bind (keeps_pure _) hrest

/-! ### The life cycle -/

theorem apart_eraseKeys : Apart F A b eraseKeys := by
  apply keeps_bind (apart_board _)
  rintro (_ | _)
  · exact keeps_pure _
  · apply keeps_bind (apart_board _)
    rintro (_ | _)
    · exact keeps_pure _
    · apply keeps_bind (apart_board _)
      rintro (_ | _) <;> exact keeps_pure _

theorem apart_wipe : Apart F A b pgpLifecycleWipe := by
  apply keeps_bind (apart_board _)
  intro _
  apply keeps_bind apart_eraseKeys
  intro ok
  apply keeps_ite _ (keeps_pure _)
  apply keeps_bind apart_stateClear
  intro ok
  exact keeps_ite apart_clearAll (keeps_pure _)

theorem apart_boot : Apart F A b (pgpLifecycleBoot F) := by
  apply keeps_bind (apart_board _)
  rintro (_ | _)
  · exact keeps_pure _
  · apply keeps_bind apart_stateLoad
    intro r
    cases r with
    | absent =>
        apply keeps_bind apart_wipe
        intro ok
        apply keeps_ite _ (keeps_pure _)
        apply keeps_bind apart_bindFactory
        intro ok
        exact keeps_ite (apart_stateInit _) (keeps_pure _)
    | _ => exact keeps_pure _

theorem apart_terminate : Apart F A b (pgpLifecycleTerminate F) := by
  apply keeps_bind apart_wipe
  intro ok
  exact keeps_ite (apart_stateInit _) (keeps_pure _)

theorem apart_activate : Apart F A b (pgpLifecycleActivate F) := by
  apply keeps_get_bind
  intro u
  apply keeps_ite (keeps_pure _)
  apply keeps_bind apart_clearAll
  intro ok
  apply keeps_ite _ (keeps_pure _)
  apply keeps_bind apart_bindFactory
  intro ok
  apply keeps_ite _ (keeps_pure _)
  apply keeps_bind apart_stateActivate
  exact fun _ => keeps_ite (keeps_pure _) (keeps_pure _)

theorem apart_ensure : Apart F A b (pgpLifecycleEnsure F) := by
  apply keeps_get_bind
  intro u
  apply keeps_ite (keeps_pure _)
  apply keeps_bind apart_vars
  intro _
  exact keeps_bind apart_boot fun _ => keeps_pure _

/-! ### Commands -/

theorem apart_signWith (slot : ℕ) (msg : Bytes) : Apart F A b (signWith slot msg) := by
  apply keeps_ite (keeps_pure _)
  apply keeps_bind (apart_board _)
  intro _
  apply keeps_bind (apart_board _)
  rintro (_ | _) <;> exact keeps_pure _

theorem apart_touch : Apart F A b requireTouchIfEnabled := by
  apply keeps_get_bind
  intro u
  apply keeps_ite (keeps_pure _)
  apply keeps_bind (apart_board _)
  intro r
  exact keeps_bind (apart_board _) fun _ => keeps_pure _

theorem apart_frame : Frame F A (fun _ b' => OthersKept b b') (OthersKept b) where
  status which := apart_pair (pin_mem which) footprint_pinMdKernelStatus
  verify which _ := apart_pair (pin_mem which) footprint_pinMdKernelVerify
  change which _ _ _ _ := apart_pair (pin_mem which) footprint_pinMdKernelChange
  setPw1 _ _ := apart_pair (pin_mem .pw1) footprint_pinMdKernelSetup
  setRc := apart_pinSetRc
  edit f _ u b' h := apart_commit (f u.o3.cur) u b' h
  setUif := apart_setUif
  activate := apart_activate
  random _ := apart_perform trivial
  hmac _ _ := apart_perform trivial
  eccErase _ := apart_board _
  eccGenerate _ _ := apart_board _
  pubkeyRead _ := apart_board _
  signAut msg := apart_signWith autSlot msg
  touch := apart_touch
  unwrap := apart_board _
  drop _ := apart_vars

theorem apart_psoCds (body : Bytes) (max : ℕ) : Apart F A b (psoCds F body max) := by
  apply keeps_get_bind
  intro u
  apply keeps_ite (keeps_pure _)
  have hsign : Apart F A b (do
      if ← openpgpStateSigCounterIncrement F then do
        let r ← pgpKeysSignWithSig body
        pure (answerSig max r)
      else pure (.bare swUnknownError)) := by
    apply keeps_bind apart_sigCounterIncrement
    intro ok
    apply keeps_ite _ (keeps_pure _)
    exact keeps_bind (apart_signWith sigSlot body) fun _ => keeps_pure _
  have hrest : Apart F A b (do
      if ← requireTouchIfEnabled then
        if body.length = 0 then pure (.bare swWrongLength)
        else if ← openpgpStateSigCounterIncrement F then do
          let r ← pgpKeysSignWithSig body
          pure (answerSig max r)
        else pure (.bare swUnknownError)
      else pure (.bare swSecurityNotSatisfied)) := by
    apply keeps_bind apart_touch
    intro ok
    exact keeps_ite (keeps_ite (keeps_pure _) hsign) (keeps_pure _)
  apply keeps_ite
  · exact keeps_bind apart_vars fun _ => hrest
  · exact hrest

theorem apart_terminateDf (p1 p2 : UInt8) : Apart F A b (handleTerminateDf F p1 p2) := by
  apply keeps_ite (keeps_pure _)
  apply keeps_bind (apart_frame.pinStatus .pw3)
  intro pw3
  apply keeps_get_bind
  intro u
  apply keeps_ite (keeps_pure _)
  apply keeps_bind apart_vars
  exact fun _ => Frame.answerSet apart_terminate

theorem apart_grant (flag : Flag) (k : Bytes) : Apart F A b (authGrant flag k) := by
  apply keeps_ite _ apart_vars
  exact keeps_bind (apart_perform trivial) fun _ => apart_vars

theorem apart_serve (a : Apdu) (out : Bytes) : Apart F A b (serve F a out) := by
  apply keeps_bind apart_ensure
  intro _
  apply keeps_get_bind
  intro u
  cases gate u.o3.lifecycle a with
  | some sw => exact keeps_pure _
  | none =>
      exact apart_frame.handle (fun _ flag _ k => apart_grant flag k) (fun _ => apart_psoCds _ _)
        fun _ => apart_terminateDf _ _

theorem apart_cardApdu (inp out : Bytes) : Apart F A b (cardApdu F inp out) := by
  apply keeps_bind (apart_board _)
  intro _
  apply keeps_bind
  · cases hcmd : framed inp with
    | error sw =>
        rw [apduDispatchProcess_refused hcmd]
        exact keeps_pure _
    | ok a =>
        rw [apduDispatchProcess_served hcmd]
        exact keeps_bind (apart_serve a out) fun _ => keeps_pure _
  · intro a
    exact keeps_bind (apart_board _) fun _ => keeps_pure _

end Apart

/-- From any state of the card, whatever arrives and whatever the fates. -/
theorem othersKept_step (F : PgpPrims) (d : Card) (a : Action) :
    OthersKept d.board (d.step F a).board := by
  have hstart : d.Meets (fun _ b => OthersKept d.board b) (OthersKept d.board) := by
    rcases d with ⟨_ | u, b⟩
    · exact Away.refl _ _
    · exact Away.refl _ _
  have hreset : Apart F (fun _ => True) d.board openpgpAppletCardReset :=
    keeps_bind (apart_board _) fun _ => apart_vars
  have hstep : (d.step F a).Meets (fun _ b => OthersKept d.board b) (OthersKept d.board) := by
    apply meets_step (A := fun _ => True) (J := fun _ b => OthersKept d.board b)
      (C := OthersKept d.board) trivial (fun _ _ h => h) (fun _ h => h) hreset apart_cardApdu hstart
    cases a with
    | powerUp => trivial
    | _ => exact fun _ _ => trivial
  generalize d.step F a = d' at hstep ⊢
  rcases d' with ⟨_ | u, b⟩
  · exact hstep
  · exact hstep

end Nixtropic.Pgp

namespace Nixtropic

open Runs

/-! ### Both on one chip -/

/-- The device with both applications; each has its variables, and the chip and
the board are one. -/
structure Dongle where
  fido : Option Fido.FidoRam
  card : Option Pgp.PgpRam
  chip : World
  ecc : ℕ → Option EccKey
  serials : ℕ
  counter : Option ℕ
  now : ℕ
  fidoNotes : List (Entry Fido.Note)
  cardNotes : List (Entry Pgp.Note)

/-- The power comes and FIDO is brought up, or one of the two gets a command. -/
inductive DongleAction where
  | powerUp (fs : List BoardFate)
  | fido (r : Fido.Request) (fs : List BoardFate)
  | cardReset (fs : List BoardFate)
  | apdu (inp out : Bytes) (fs : List BoardFate)

namespace Dongle

def fidoSide (d : Dongle) : Fido.Device :=
  ⟨d.fido, ⟨d.chip, d.ecc, d.serials, d.counter, d.now, d.fidoNotes⟩⟩

def cardSide (d : Dongle) : Pgp.Card :=
  ⟨d.card, ⟨d.chip, d.ecc, d.serials, d.counter, d.now, d.cardNotes⟩⟩

/-- A cut takes the variables of both. -/
def afterFido (d : Dongle) (f : Fido.Device) : Dongle where
  fido := f.ram
  card := if f.ram.isSome then d.card else none
  chip := f.board.chip
  ecc := f.board.ecc
  serials := f.board.serials
  counter := f.board.counter
  now := f.board.now
  fidoNotes := f.board.notes
  cardNotes := d.cardNotes

def afterCard (d : Dongle) (c : Pgp.Card) : Dongle where
  fido := if c.ram.isSome then d.fido else none
  card := c.ram
  chip := c.board.chip
  ecc := c.board.ecc
  serials := c.board.serials
  counter := c.board.counter
  now := c.board.now
  fidoNotes := d.fidoNotes
  cardNotes := c.board.notes

/-- The card starts with new variables once FIDO is up. -/
def started (d : Dongle) : Dongle :=
  { d with
    card := d.fido.map fun _ => .boot
    cardNotes := (d.cardSide.board.jot .powerUp).notes }

variable (F : Fido.FidoPrims) (G : Pgp.PgpPrims)

def step (d : Dongle) : DongleAction → Dongle
  | .powerUp fs => (d.afterFido (d.fidoSide.step F (.powerUp fs))).started
  | .fido r fs => d.afterFido (d.fidoSide.step F (.request r fs))
  | .cardReset fs => d.afterCard (d.cardSide.step G (.cardReset fs))
  | .apdu inp out fs => d.afterCard (d.cardSide.step G (.apdu inp out fs))

end Dongle

def dongle (F : Fido.FidoPrims) (G : Pgp.PgpPrims) (d : Dongle) : System Dongle DongleAction :=
  ⟨d, Dongle.step F G⟩

/-- It is FIDO that acts. -/
def DongleAction.ofFido : DongleAction → Prop
  | .powerUp _ => True
  | .fido _ _ => True
  | _ => False

/-- It is the card that acts. -/
def DongleAction.ofCard : DongleAction → Prop
  | .cardReset _ => True
  | .apdu _ _ _ => True
  | _ => False

theorem not_fido_of_card {slot : ℕ} (h : Pgp.cardSlot slot) : ¬Fido.fidoScope.rmem slot := by
  obtain ⟨p, hp, hslot⟩ := h
  have hall : ∀ p ∈ Pgp.cardPairs, 29 < p.slotA ∧ 29 < p.slotB ∧
      ¬Fido.o1.owns p.slotA ∧ ¬Fido.o1.owns p.slotB ∧ ¬Fido.o2.owns p.slotA ∧
      ¬Fido.o2.owns p.slotB := by
    simp only [RecPair.owns]
    decide
  obtain ⟨ha, hb, h₁, h₂, h₃, h₄⟩ := hall p hp
  rintro (ho | ho | ⟨i, hi, rfl⟩)
  · rcases hslot with rfl | rfl
    · exact h₁ ho
    · exact h₂ ho
  · rcases hslot with rfl | rfl
    · exact h₃ ho
    · exact h₄ ho
  · simp only [Fido.rmemSlotFor, Fido.fidoSlotsMax] at hi hslot
    rcases hslot with h | h <;> omega

/-- What FIDO leaves of the memories of the card. -/
structure CardKept (d d' : Dongle) : Prop where
  rmem : ∀ slot, Pgp.cardSlot slot → d'.chip.rmem slot = d.chip.rmem slot
  ecc : ∀ i, Fido.fidoSlotsMax ≤ i → d'.ecc i = d.ecc i

/-- What the card leaves of the memories of FIDO. -/
def FidoKept (d d' : Dongle) : Prop :=
  ∀ slot, Fido.fidoScope.rmem slot → d'.chip.rmem slot = d.chip.rmem slot

theorem cardKept_step (F : Fido.FidoPrims) (G : Pgp.PgpPrims) (d : Dongle) {a : DongleAction}
    (ha : a.ofFido) : CardKept d (d.step F G a) := by
  have hside : ∀ a, CardKept d (d.afterFido (d.fidoSide.step F a)) := by
    intro a
    have h := Fido.untouched_step F d.fidoSide a
    exact ⟨fun slot hs => h.rmem slot (not_fido_of_card hs), h.ecc⟩
  cases a with
  | powerUp fs => exact ⟨(hside _).rmem, (hside _).ecc⟩
  | fido r fs => exact hside _
  | cardReset fs => exact ha.elim
  | apdu inp out fs => exact ha.elim

theorem fidoKept_step (F : Fido.FidoPrims) (G : Pgp.PgpPrims) (d : Dongle) {a : DongleAction}
    (ha : a.ofCard) : FidoKept d (d.step F G a) := by
  have hside : ∀ a, FidoKept d (d.afterCard (d.cardSide.step G a)) := fun a slot hs =>
    Pgp.othersKept_step G d.cardSide a slot fun hc => not_fido_of_card hc hs
  cases a with
  | powerUp fs => exact ha.elim
  | fido r fs => exact ha.elim
  | cardReset fs => exact hside _
  | apdu inp out fs => exact hside _

/-- In any run of the two on one chip, under any fates: as long as only FIDO acts,
reboots included, no record of the card changes and no key outside the slots of
FIDO; and as long as only the card acts, O1, O2 and the entries of FIDO stay. -/
theorem applications_apart (F : Fido.FidoPrims) (G : Pgp.PgpPrims) (d : Dongle)
    (acts acts' : List DongleAction) :
    ((∀ a ∈ acts', a.ofFido) →
      CardKept ((dongle F G d).run acts) ((dongle F G d).run (acts ++ acts'))) ∧
    ((∀ a ∈ acts', a.ofCard) →
      FidoKept ((dongle F G d).run acts) ((dongle F G d).run (acts ++ acts'))) := by
  rw [System.run_append]
  generalize (dongle F G d).run acts = d₁
  have hmem : ∀ pre a, pre ++ [a] <+: acts' → a ∈ acts' := fun pre a hpre =>
    hpre.subset (List.mem_append_right _ List.mem_cons_self)
  constructor
  · intro hall
    apply System.runFrom_keeps_of (C := fun _ a => a.ofFido)
    · intro d₂ a h ha
      have hstep := cardKept_step F G d₂ ha
      exact ⟨fun slot hs => (hstep.rmem slot hs).trans (h.rmem slot hs),
        fun i hi => (hstep.ecc i hi).trans (h.ecc i hi)⟩
    · exact ⟨fun _ _ => rfl, fun _ _ => rfl⟩
    · exact fun pre a hpre => hall a (hmem pre a hpre)
  · intro hall
    apply System.runFrom_keeps_of (C := fun _ a => a.ofCard)
    · intro d₂ a h ha slot hs
      exact (fidoKept_step F G d₂ ha slot hs).trans (h slot hs)
    · exact fun _ _ => rfl
    · exact fun pre a hpre => hall a (hmem pre a hpre)

/-- A new device, not yet plugged in. -/
def unplugged : Dongle := ⟨none, none, .blank, fun _ => none, 0, none, 0, [], []⟩

theorem applications_apart_demo :
    CardKept ((dongle Fido.mixFido Pgp.mixPgp unplugged).run [])
        ((dongle Fido.mixFido Pgp.mixPgp unplugged).run ([] ++ [.powerUp []])) ∧
      FidoKept ((dongle Fido.mixFido Pgp.mixPgp unplugged).run [.powerUp []])
        ((dongle Fido.mixFido Pgp.mixPgp unplugged).run ([.powerUp []] ++
          [.cardReset [], .apdu [0x00, 0xA4, 0x04, 0x00] [] []])) := by
  constructor
  · apply (applications_apart Fido.mixFido Pgp.mixPgp unplugged [] [.powerUp []]).1
    simp [DongleAction.ofFido]
  · apply (applications_apart Fido.mixFido Pgp.mixPgp unplugged [.powerUp []]
      [.cardReset [], .apdu [0x00, 0xA4, 0x04, 0x00] [] []]).2
    simp [DongleAction.ofCard]

end Nixtropic
