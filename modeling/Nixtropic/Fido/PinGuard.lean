import Nixtropic.Fido.Synced
import Nixtropic.Runs.System

/-!
A FIDO PIN does not disappear.

That a PIN exists is known twice: O2 holds its binding, and O1 the guard, which
is written after the binding. The guard alone decides what a binding that is
gone means, so that it is enough to follow O1: once the guard is committed only
a wipe gets rid of it, and not before every key and all metadata are gone.
-/

namespace Nixtropic.Fido

open Crash Runs

/-! ### Until a wipe -/

def Note.isWipe : Note → Bool
  | .wiped => true
  | _ => false

/-- How many wipes got as far as having erased every key and all metadata. -/
def wipes (b : Board Note) : ℕ := b.notes.countP fun e => e.note.isWipe

theorem wipes_mono {b b' : Board Note} (h : b.notes <:+ b'.notes) : wipes b ≤ wipes b' :=
  h.sublist.countP_le

theorem wipes_jot_wiped (b : Board Note) : wipes (b.jot .wiped) = wipes b + 1 :=
  List.countP_cons_of_pos rfl

/-- `J`, as long as no wipe after the `n`-th got through. -/
def Until (n : ℕ) (J : FidoRam → Board Note → Prop) (u : FidoRam) (b : Board Note) : Prop :=
  n ≤ wipes b ∧ (wipes b = n → J u b)

/-- The same for a state without variables. -/
def UntilCut (n : ℕ) (C : Board Note → Prop) (b : Board Note) : Prop :=
  n ≤ wipes b ∧ (wipes b = n → C b)

theorem UntilCut.ram {n : ℕ} {J : FidoRam → Board Note → Prop} {C : Board Note → Prop} {u : FidoRam}
    {b : Board Note} (h : UntilCut n C b) (hJ : ∀ b, C b → J u b) : Until n J u b :=
  ⟨h.1, fun hn => hJ b (h.2 hn)⟩

section Until

variable {F : FidoPrims} {A : BoardFate → Prop} {J : FidoRam → Board Note → Prop}
  {C : Board Note → Prop} {α : Type} {n : ℕ}

theorem keeps_over {m : FidoM α} {u : FidoRam} {b : Board Note} (h : n < wipes b) :
    swp (fidoBoard F) A m (fun _ => Until n J) (UntilCut n C) u b := by
  have past : ∀ {b'}, b.notes <:+ b'.notes → n ≤ wipes b' ∧ wipes b' ≠ n := by
    intro b' hb
    have hle := wipes_mono hb
    omega
  apply swp_mono (swp_notes m)
  · exact fun _ _ _ hb => ⟨(past hb).1, fun hn => absurd hn (past hb).2⟩
  · exact fun _ hb => ⟨(past hb).1, fun hn => absurd hn (past hb).2⟩

theorem keeps_until {m : FidoM α} (hm : Keeps (fidoBoard F) A J C m) :
    Keeps (fidoBoard F) A (Until n J) (UntilCut n C) m := by
  rintro u b ⟨hle, hJ⟩
  by_cases hn : wipes b = n
  · apply swp_mono (swp_and (hm u b (hJ hn)) (swp_notes m))
    · exact fun _ _ _ h => ⟨hle.trans (wipes_mono h.2), fun _ => h.1⟩
    · exact fun _ h => ⟨hle.trans (wipes_mono h.2), fun _ => h.1⟩
  · exact keeps_over (by omega)

/-- A wipe keeps what erasing the keys and the metadata keeps. -/
theorem until_wipe (hkeys : Keeps (fidoBoard F) A J C eraseKeys)
    (hmeta : Keeps (fidoBoard F) A J C slotsWipeMeta) :
    Keeps (fidoBoard F) A (Until n J) (UntilCut n C) (fidoStateWipe F) := by
  apply keeps_bind (keeps_until hkeys)
  intro ok
  apply keeps_ite _ (keeps_pure _)
  apply keeps_bind (keeps_until hmeta)
  intro ok
  apply keeps_ite _ (keeps_pure _)
  intro u b h
  rw [swp_bind]
  apply swp_leave
  apply keeps_over
  rw [wipes_jot_wiped]
  exact Nat.lt_succ_of_le h.1

/-- What is kept of O1, and by its writes, until a wipe. -/
theorem until_ground (g : Ground o1Scope J C)
    (hguard : Keeps (fidoBoard F) A J C (slotsSetPinBound F true true))
    (hinit : Keeps (fidoBoard F) A J C (slotsInit F)) :
    Store F A (Until n J) (UntilCut n C) where
  status := keeps_until (g.o2 o1Scope_o2 footprint_pinMdKernelStatus)
  setup _ _ := keeps_until (g.o2 o1Scope_o2 footprint_pinMdKernelSetup)
  verify _ := keeps_until (g.o2 o1Scope_o2 footprint_pinMdKernelVerify)
  verified _ _ := keeps_until (g.leave trivial)
  change _ _ _ := keeps_until (g.o2 o1Scope_o2 footprint_pinMdKernelChange)
  guard := keeps_until hguard
  init := keeps_until hinit
  wipe := until_wipe (g.eraseKeys o1Scope_creds) (g.slotsWipeMeta o1Scope_creds)
  counter := keeps_until g.mcounterGet

end Until

/-! ### What is kept until a wipe -/

section Kept

variable {F : FidoPrims} {A : BoardFate → Prop} {P : Bool → Bool → Prop} {u : FidoRam}
  {b : Board Note} {n : ℕ}

theorem settled_until (hA : ∀ f, A f → Honest F f) (hp : P true true) :
    Store F A (Until n (Settled F P)) (UntilCut n (FlagsAt F P)) := by
  apply until_ground (settled_ground F P) (settled_guard hA hp)
  intro u b h
  exact swp_mono (settled_slotsInit hA h) (fun _ _ _ h => h.2) fun _ h => h

/-- Both copies of O1 hold the same record. -/
def Agree (F : FidoPrims) (b : Board Note) : Prop := ∃ r, Mirrored F.chip o1 b.chip.rmem r

theorem agree_ground (F : FidoPrims) : Ground o1Scope (fun _ => Agree F) (fun _ => True) where
  cut _ _ _ := trivial
  chip _ b w hw h := by
    obtain ⟨r, hm⟩ := h
    have hsame : ∀ slot, o1.owns slot → w.rmem slot = b.chip.rmem slot :=
      fun slot hs => hw slot fun hno => hno hs
    exact ⟨r, (hsame _ (.inl rfl)).trans hm.a, (hsame _ (.inr rfl)).trans hm.b, hm.valid⟩
  ecc _ _ _ _ _ h := h
  keygen _ _ _ _ _ h := h
  counter _ _ _ h := h
  wait _ _ _ h := h
  note _ _ _ _ h := h
  ram _ _ _ _ h := h

theorem calm_honest : ∀ f, CalmBoard f → Honest F f := by
  intro f hf
  rw [Honest, BoardFate.leaves, hf]
  trivial

theorem calm_not_stormy : ¬Stormy (chipFates CalmBoard) := by
  rw [stormy_chipFates]
  exact not_stormyBoard_calm

/-- While nothing happens to the calls, the copies go on agreeing. -/
theorem agree_writeGlobal (g : Global) :
    Keeps (fidoBoard F) CalmBoard (fun _ => Agree F) (fun _ => True) (writeGlobal F g) := by
  apply keeps_get_bind
  intro u
  apply keeps_ite _ (keeps_pure _)
  apply keeps_bind
  · rintro u b ⟨r, hm⟩
    apply swp_onPair
    apply swp_mono (swp_recPairWrite_mirrored (honest_o1 calm_honest) hm) _ fun _ _ => trivial
    rintro res v w (hst | ⟨r', -, hm'⟩)
    · exact absurd hst calm_not_stormy
    · exact ⟨r', hm'⟩
  · intro st
    cases st with
    | ok =>
        refine keeps_bind (keeps_modify fun _ _ h => h) fun _ => keeps_pure _
    | _ => exact keeps_pure _

theorem agree_slotsInit :
    Keeps (fidoBoard F) CalmBoard (fun _ => Agree F) (fun _ => True) (slotsInit F) := by
  apply keeps_slotsInit (agree_ground F).session _ _ (agree_ground F).readCred agree_writeGlobal
  · rintro u b ⟨r, hm⟩
    apply swp_onPair
    apply swp_mono (swp_recPairRead_mirrored hm) _ fun _ _ => trivial
    rintro res v w ⟨-, hr, -⟩
    rw [Agree, Board.setChip_chip, hr]
    exact ⟨r, hm⟩
  · exact fun f => keeps_modify fun _ _ h => h

theorem agree_until :
    Store F CalmBoard (Until n fun _ => Agree F) (UntilCut n fun _ => True) :=
  until_ground (agree_ground F) (keeps_get_bind fun _ => agree_writeGlobal _) agree_slotsInit

/-- O2 holds a binding. -/
def Bound (F : FidoPrims) (b : Board Note) : Prop := ∃ g bd, Now F.chip fidoLayout b.chip g bd

/-- Everything but O2. -/
def o2Scope : Scope where
  rmem slot := ¬o2.owns slot
  ecc _ := True
  ram _ _ := True
  note _ := True

theorem o2Scope_o1 : o2Scope.O1 := ⟨fun _ h => o2_not_o1 h, fun _ _ => trivial⟩

theorem o2Scope_creds : o2Scope.Creds :=
  ⟨fun i hi => o2_not_meta ⟨i, hi, rfl⟩, fun _ _ => trivial⟩

theorem now_o2Scope {F : FidoPrims} {w w' : World} {g : ℕ} {bd : Binding}
    (h : Now F.chip fidoLayout w g bd) (hw : Away o2Scope.rmem w w') :
    Now F.chip fidoLayout w' g bd := by
  obtain ⟨r, ⟨repair, hc⟩, hg, hb⟩ := h
  refine ⟨r, ⟨repair, ?_⟩, hg, hb⟩
  have ha : w'.rmem fidoLayout.record.slotA = w.rmem fidoLayout.record.slotA :=
    hw _ fun hno => hno (.inl rfl)
  have hb : w'.rmem fidoLayout.record.slotB = w.rmem fidoLayout.record.slotB :=
    hw _ fun hno => hno (.inr rfl)
  rw [ha, hb]
  exact hc

theorem bound_ground (F : FidoPrims) : Ground o2Scope (fun _ => Bound F) (Bound F) where
  cut _ _ h := h
  chip _ _ _ hw h := by
    obtain ⟨g, bd, hn⟩ := h
    exact ⟨g, bd, now_o2Scope hn hw⟩
  ecc _ _ _ _ _ h := h
  keygen _ _ _ _ _ h := h
  counter _ _ _ h := h
  wait _ _ _ h := h
  note _ _ _ _ h := h
  ram _ _ _ _ h := h

theorem bound_of_holding {w : World} {g : ℕ} {S : Binding → Prop}
    (h : Holding F.chip fidoLayout w g S) : ∃ g bd, Now F.chip fidoLayout w g bd := by
  obtain ⟨g, bd, hn, -⟩ := h
  exact ⟨g, bd, hn⟩

/-- A call of the PIN kernel keeps a binding in O2. -/
theorem bound_call {α : Type} {m : Fw Bool α}
    (hm : ∀ u w g bd, Now F.chip fidoLayout w g bd → swp (chip F.chip) (chipFates A) m
      (fun _ _ w' => ∃ g bd, Now F.chip fidoLayout w' g bd)
      (fun w' => ∃ g bd, Now F.chip fidoLayout w' g bd) u w) :
    Keeps (fidoBoard F) A (fun _ => Bound F) (Bound F) (onPair o2Cell m) := by
  rintro u b ⟨g, bd, hn⟩
  exact swp_onPair (hm _ _ g bd hn)

theorem bound_until (hA : ∀ f, A f → Honest F f) :
    Store F A (Until n fun _ => Bound F) (UntilCut n (Bound F)) where
  status := keeps_until (bound_call fun _ _ _ _ hn => swp_mono
    (swp_status (I := fun _ _ _ => True) (honest_o2 hA) fidoLayout_valid hn)
    (fun _ _ _ h => bound_of_holding h.1.holding) fun _ h => bound_of_holding h.1.holding)
  setup _ _ := keeps_until (bound_call fun _ _ _ _ hn => swp_mono
    (swp_setup (I := fun _ _ _ => True) (honest_o2 hA) fidoLayout_valid hn fun _ _ => trivial)
    (fun _ _ _ h => bound_of_holding h.2.1) fun _ h => bound_of_holding h.2)
  verify _ := keeps_until (bound_call fun _ _ _ _ hn => swp_mono
    (swp_verify (I := fun _ _ _ => True) (honest_o2 hA) fidoLayout_valid hn)
    (fun _ _ _ h => bound_of_holding h.1.holding) fun _ h => bound_of_holding h.1.holding)
  verified _ _ := keeps_until ((bound_ground F).leave trivial)
  change _ _ _ := keeps_until (bound_call fun _ _ _ _ hn => swp_mono
    (swp_change (I := fun _ _ _ => True) (honest_o2 hA) fidoLayout_valid hn
      fun _ _ _ _ _ => trivial)
    (fun _ _ _ h => bound_of_holding h.1.holding) fun _ h => bound_of_holding h.holding)
  guard := keeps_until ((bound_ground F).slotsSetPinBound o2Scope_o1 true true)
  init := keeps_until ((bound_ground F).slotsInit o2Scope_o1)
  wipe := until_wipe ((bound_ground F).eraseKeys o2Scope_creds)
    ((bound_ground F).slotsWipeMeta o2Scope_creds)
  counter := keeps_until (bound_ground F).mcounterGet

/-! ### The queries, setPin and boot -/

/-- The guard is set. -/
def guardSet (_forceUv pinBound : Bool) : Prop := pinBound = true

/-- With the guard comes Force-UV. -/
def guardForces (forceUv pinBound : Bool) : Prop := pinBound = true → forceUv = true

theorem usable_of_pinBound {bound : Bool} (h : u.pinBound? = some bound) :
    u.slotsUsable = true ∧ u.slots.pinBound = bound := by
  rw [FidoRam.pinBound?] at h
  split at h
  · rename_i hu
    exact ⟨hu, Option.some.inj h⟩
  · cases h

/-- With the guard set a PIN is never said not to be set. -/
theorem guarded_pinState (h : Settled F guardSet u b) :
    swp (fidoBoard F) A (fidoPinState F) (fun r _ _ => r.1 ≠ .notSet) (fun _ => True) u b := by
  rw [fidoPinState, swp_bind, swp_get]
  cases hb : u.pinBound? with
  | none => exact nofun
  | some bound =>
      obtain ⟨hu, rfl⟩ := usable_of_pinBound hb
      have hset : u.slots.pinBound = true := (h.ram hu).1
      apply swp_bind_any _ fun _ => trivial
      intro st v x
      cases st.state with
      | absent =>
          simp only [hset]
          exact nofun
      | _ => exact nofun

theorem guarded_pinIsSet (h : Settled F guardSet u b) :
    swp (fidoBoard F) A (pinIsSet F) (fun r _ _ => r = true) (fun _ => True) u b := by
  rw [pinIsSet, swp_bind]
  apply swp_mono (guarded_pinState h) _ fun _ h => h
  exact fun _ _ _ hne => decide_eq_true hne

/-- An acknowledged setPin has set the guard, in both copies. -/
theorem pinSet_acked (hA : ∀ f, A f → Honest F f) (mat : Bytes) (len : UInt8) :
    swp (fidoBoard F) A (fidoPinSet F mat len)
      (fun ok u' b' => ok = true → Settled F guardSet u' b' ∧ Agree F b') (fun _ => True) u b := by
  apply swp_bind_any _ fun _ => trivial
  rintro ⟨st, _⟩ u₁ b₁
  dsimp only
  split
  · exact nofun
  · apply swp_bind_any _ fun _ => trivial
    intro r u₂ b₂
    split
    · exact nofun
    · rw [slotsSetPinBound, swp_bind, swp_get]
      apply swp_mono (swp_writeGlobal_acked hA _) _ fun _ h => h
      intro ok u₃ b₃ hres hok
      obtain ⟨rfl, hboth⟩ := hres hok
      obtain ⟨r, hm, hr⟩ := hboth
      exact ⟨⟨_, ⟨r, hm.current, hr⟩, rfl, fun _ => rfl⟩, r, hm⟩

/-- A setPin that is cut after its binding leaves flags that boot completes. -/
theorem pinSet_cut (hA : ∀ f, A f → Honest F f) (hs : Synced F u b) (hno : ¬Bound F b)
    (mat : Bytes) (len : UInt8) :
    swp (fidoBoard F) A (fidoPinSet F mat len) (fun _ _ _ => True)
      (fun b' => Bound F b' → FlagsAt F guardForces b') u b := by
  have hunbound : Unbound F.chip fidoLayout b.chip := fun g bd hn => hno ⟨g, bd, hn⟩
  rw [fidoPinSet, swp_bind, fidoPinState, swp_bind, swp_get]
  cases hb : u.pinBound? with
  | none => trivial
  | some bound =>
      obtain ⟨hu, hbound⟩ := usable_of_pinBound hb
      rw [swp_bind]
      apply swp_onPair
      apply swp_mono (swp_and (swp_status_unbound (honest_o2 hA) hunbound)
        (footprint_pinMdKernelStatus (P := F.chip) (L := fidoLayout) _ _ _))
      · rintro st v w ⟨-, hw⟩
        cases st.state with
        | absent =>
            cases bound with
            | true => trivial
            | false =>
                have hset : Settled F guardForces (o2Cell.put u v) (b.setChip w) := by
                  apply (settled_ground F guardForces).ram u _ _ rfl
                  apply (settled_ground F guardForces).chip u b w
                    (fun slot hn => hw slot fun ho => hn (o1Scope_o2.rmem slot ho))
                  apply hs.settled hu
                  rw [hbound]
                  exact nofun
                have hfoot : Footprint F.chip fidoLayout.record.owns
                    (pinMdKernelSetup F.chip fidoLayout mat len) := footprint_pinMdKernelSetup
                have hsetup := (settled_ground F guardForces).o2 (A := A) (F := F) o1Scope_o2
                  hfoot _ _ hset
                dsimp only
                rw [swp_pure, if_neg (by simp), swp_bind]
                refine swp_mono hsetup ?_ fun b' h (_ : Bound F b') => h
                intro r u₂ b₂ h₂
                split
                · trivial
                · have hguard := settled_guard hA (P := guardForces) (fun _ => rfl) u₂ b₂ h₂
                  exact swp_mono hguard (fun _ _ _ _ => trivial) fun b' h (_ : Bound F b') => h
        | _ => trivial
      · rintro w ⟨hw, -⟩ ⟨g, bd, hn⟩
        exact absurd hn (hw g bd)

/-- A PIN boot that succeeds on a binding has the guard and Force-UV set. -/
theorem pinBoot_completes (hA : ∀ f, A f → Honest F f) (h : Settled F guardForces u b)
    (hb : Bound F b) :
    swp (fidoBoard F) A (fidoPinBoot F)
      (fun ok u' b' => ok = true → u'.slots.pinBound = true ∧ u'.slots.forceUv = true ∧
        GlobalAt F b'.chip.rmem u'.global) (fun _ => True) u b := by
  rw [fidoPinBoot, swp_bind, swp_get]
  cases hpb : u.pinBound? with
  | none => exact nofun
  | some bound =>
      obtain ⟨hu, hbound⟩ := usable_of_pinBound hpb
      have hstatus : swp (fidoBoard F) A (onPair o2Cell (pinMdKernelStatus F.chip fidoLayout))
          (fun st u' _ => st.state ≠ .absent ∧ u'.slots = u.slots) (fun _ => True) u b := by
        obtain ⟨g, bd, hn⟩ := hb
        apply swp_onPair
        apply swp_mono (swp_status (I := fun _ _ _ => True) (honest_o2 hA) fidoLayout_valid hn) _
          fun _ _ => trivial
        rintro st v w ⟨-, ⟨-, -, rfl⟩ | ⟨rfl, -⟩⟩
        · refine ⟨?_, rfl⟩
          dsimp only
          split <;> exact nofun
        · exact ⟨nofun, rfl⟩
      have hkeep := (settled_ground F guardForces).o2 (A := A) (F := F) o1Scope_o2
        (footprint_pinMdKernelStatus (L := fidoLayout)) _ _ h
      rw [swp_bind]
      apply swp_mono (swp_and hstatus hkeep) _ fun _ _ => trivial
      rintro st u₁ b₁ ⟨⟨hne, hslots⟩, h₁⟩
      have hu₁ : u₁.slotsUsable = true := (slotsUsable_congr hslots).trans hu
      by_cases herr : st.state = .error
      · rw [if_pos herr]
        exact nofun
      · rw [if_neg herr, if_neg hne]
        split
        · rename_i htrue
          obtain ⟨hforces, hat⟩ := h₁.ram hu₁
          have hset : u₁.slots.pinBound = true := by rw [hslots, hbound, htrue]
          exact fun _ => ⟨hset, hforces hset, hat⟩
        · rw [slotsSetPinBound, swp_bind, swp_get]
          apply swp_mono (swp_writeGlobal_acked hA _) _ fun _ h => h
          intro ok u₂ b₂ hres hok
          obtain ⟨rfl, hboth⟩ := hres hok
          exact ⟨rfl, rfl, hboth.at⟩

theorem boot_completes (hA : ∀ f, A f → Honest F f) (h : Settled F guardForces u b)
    (hb : Bound F b) :
    swp (fidoBoard F) A (fidoStateBoot F)
      (fun rc u' b' => rc = 0 → u'.slots.pinBound = true ∧ u'.slots.forceUv = true ∧
        GlobalAt F b'.chip.rmem u'.global) (fun _ => True) u b := by
  have hbound := (bound_ground F).slotsInit (A := A) (F := F) o2Scope_o1 u b hb
  rw [fidoStateBoot, swp_bind]
  apply swp_mono (swp_and (settled_slotsInit hA h) hbound) _ fun _ _ => trivial
  rintro r u₁ b₁ ⟨⟨hne, h₁⟩, hb₁⟩
  cases r with
  | absent => exact absurd rfl hne
  | error => exact nofun
  | ok =>
      dsimp only
      rw [swp_bind]
      apply swp_mono (pinBoot_completes hA h₁ hb₁) _ fun _ _ => trivial
      intro ok u₂ b₂ hdone
      cases ok with
      | false => exact nofun
      | true =>
          rw [if_pos rfl, swp_bind]
          have hdone := hdone rfl
          apply swp_tropicMcounterGet
          · cases b₂.counter <;> exact fun _ => hdone
          · exact fun _ => nofun
          · exact fun _ => trivial

end Kept

/-! ### Runs -/

/-- The calls about the PIN and the persistent state. -/
inductive VaultCall where
  | boot
  | pinState
  | pinIsSet
  | pinSet (mat : Bytes) (len : UInt8)
  | pinVerify (mat : Bytes)
  | pinChange (oldMat newMat : Bytes) (len : UInt8)
  | wipe

/-- What they answer. -/
inductive VaultReply where
  | rc (rc : Int)
  | state (st : FpinState) (attempts : ℕ)
  | isSet (v : Bool)
  | set (ok : Bool)
  | pin (rc : PinRc)
  deriving DecidableEq

/-- The answer that there is no PIN. -/
def VaultReply.deniesPin : VaultReply → Bool
  | .state .notSet _ => true
  | .isSet false => true
  | _ => false

/-- What happens between two power-ups and at them: a call with the fates of
its chip calls, a loss of power, or damage of one slot at rest. -/
inductive VaultAct where
  | call (c : VaultCall) (fs : List BoardFate)
  | powerCycle
  | damage (slot : ℕ) (left : RSlot)

structure Vault where
  ram : FidoRam
  board : Board Note

section System

variable (F : FidoPrims)

def VaultCall.prog : VaultCall → FidoM VaultReply
  | .boot => .rc <$> fidoStateBoot F
  | .pinState => (fun r => .state r.1 r.2) <$> fidoPinState F
  | .pinIsSet => .isSet <$> Fido.pinIsSet F
  | .pinSet mat len => .set <$> fidoPinSet F mat len
  | .pinVerify mat => .pin <$> fidoPinVerify F mat
  | .pinChange mat mat' len => .pin <$> fidoPinChange F mat mat' len
  | .wipe => .rc <$> fidoStateWipe F

def Vault.run (v : Vault) (c : VaultCall) (fs : List BoardFate) :
    Outcome (VaultReply × FidoRam) (Board Note) :=
  Crash.run (fidoBoard F) ((c.prog F).run v.ram) fs v.board

/-- A loss of power leaves the variables of the next power-up. -/
def Vault.after : Outcome (VaultReply × FidoRam) (Board Note) → Vault
  | .done (_, u) b => ⟨u, b⟩
  | .cut b => ⟨.boot, b⟩

def Vault.step (v : Vault) : VaultAct → Vault
  | .call c fs => .after (v.run F c fs)
  | .powerCycle => ⟨.boot, v.board⟩
  | .damage slot left => ⟨v.ram, v.board.setChip (v.board.chip.setR slot left)⟩

/-- Found switched off with any board; no notes are left yet. -/
def vault (b : Board Note) : System Vault VaultAct :=
  ⟨⟨.boot, { b with notes := [] }⟩, Vault.step F⟩

/-- The answer of a call; none if it is cut. -/
def Vault.reply (v : Vault) (c : VaultCall) (fs : List BoardFate) : Option VaultReply :=
  match v.run F c fs with
  | .done (r, _) _ => some r
  | .cut _ => none

/-- The calls meet fates in `A`; no damage is done. -/
def VaultAct.Within (A : BoardFate → Prop) : VaultAct → Prop
  | .call _ fs => ∀ f ∈ fs, A f
  | .powerCycle => True
  | .damage _ _ => False

/-- Nothing happens to the calls; a slot of O1 or O2 may be damaged, and then
holds no record. -/
def VaultAct.Calm : VaultAct → Prop
  | .call _ fs => ∀ f ∈ fs, CalmBoard f
  | .powerCycle => True
  | .damage slot left => globalSlot slot ∧ Invalid F.chip o1 left ∧ Invalid F.chip o2 left

def VaultAct.damages : VaultAct → Bool
  | .damage _ _ => true
  | _ => false

/-- Any number of failures and cuts, of which a torn change leaves no record,
or instead one damaged slot. -/
def Endured (acts : List VaultAct) : Prop :=
  (∀ a ∈ acts, a.Within (Honest F)) ∨
    (∀ a ∈ acts, a.Calm F) ∧ acts.countP VaultAct.damages ≤ 1

end System

section Runs

variable {F : FidoPrims} {A : BoardFate → Prop} {J : FidoRam → Board Note → Prop}
  {C : Board Note → Prop} {v : Vault} {n : ℕ} {b : Board Note}

theorem honest_quiet (F : FidoPrims) : Honest F .quiet := trivial

theorem keeps_map {α β : Type} {m : FidoM α} {f : α → β} (h : Keeps (fidoBoard F) A J C m) :
    Keeps (fidoBoard F) A J C (f <$> m) := fun u b hJ => swp_map.mpr (h u b hJ)

theorem Store.vaultCall (st : Store F A J C) (c : VaultCall) :
    Keeps (fidoBoard F) A J C (c.prog F) := by
  cases c with
  | boot => exact keeps_map st.fidoStateBoot
  | pinState => exact keeps_map st.fidoPinState
  | pinIsSet => exact keeps_map (keeps_bind st.fidoPinState fun _ => keeps_pure _)
  | pinSet mat len => exact keeps_map (st.fidoPinSet mat len)
  | pinVerify mat => exact keeps_map (st.fidoPinVerify mat)
  | pinChange mat mat' len => exact keeps_map (st.fidoPinChange mat mat' len)
  | wipe => exact keeps_map st.wipe

/-- What is known after a call from what is known of its run. -/
theorem vault_after {c : VaultCall} {fs : List BoardFate} (hquiet : A .quiet)
    (hfs : ∀ f ∈ fs, A f) (hJ : swp (fidoBoard F) A (c.prog F) (fun _ => J) C v.ram v.board)
    (hboot : ∀ b, C b → J .boot b) :
    J (v.step F (.call c fs)).ram (v.step F (.call c fs)).board := by
  have hrun := run_of_swp hquiet hJ hfs
  have hstep : v.step F (.call c fs) = .after (v.run F c fs) := rfl
  rw [hstep, Vault.run]
  generalize run (fidoBoard F) ((c.prog F).run v.ram) fs v.board = out at hrun ⊢
  cases out with
  | done r b => exact hrun
  | cut b => exact hboot b hrun

/-- What every call keeps, and a power-up, holds after any calls. -/
theorem vault_runFrom (hquiet : A .quiet) (st : Store F A J C) (hcut : ∀ u b, J u b → C b)
    (hboot : ∀ b, C b → J .boot b) {acts : List VaultAct} (hacts : ∀ a ∈ acts, a.Within A)
    (hv : J v.ram v.board) :
    J ((vault F b).runFrom v acts).ram ((vault F b).runFrom v acts).board := by
  induction acts generalizing v with
  | nil => exact hv
  | cons a acts ih =>
      rw [System.runFrom_cons]
      apply ih fun a' ha' => hacts a' (List.mem_cons_of_mem a ha')
      have ha := hacts a List.mem_cons_self
      cases a with
      | call c fs => exact vault_after hquiet ha (st.vaultCall c _ _ hv) hboot
      | powerCycle => exact hboot _ (hcut _ _ hv)
      | damage slot left => exact ha.elim

/-- Damage of one slot while both copies of O1 agree leaves O1 as it was. -/
theorem settled_damage {P : Bool → Bool → Prop} {u : FidoRam} {slot : ℕ} {left : RSlot}
    (h : Settled F P u b) (ha : Agree F b) (hleft : Invalid F.chip o1 left) :
    Settled F P u (b.setChip (b.chip.setR slot left)) := by
  obtain ⟨g, ⟨r, hcur, hr⟩, h⟩ := h
  obtain ⟨r', hm⟩ := ha
  obtain rfl := hcur.unique hm.current
  refine ⟨g, ⟨r, current_iff.mpr ⟨hm.valid, ?_⟩, hr⟩, h⟩
  have hother : ∀ s, s ≠ slot → (b.chip.setR slot left).rmem s = b.chip.rmem s :=
    fun s hs => Function.update_of_ne hs _ _
  have hself : (b.chip.setR slot left).rmem slot = left := Function.update_self ..
  by_cases hA : o1.slotA = slot
  · refine .inr ⟨?_, .inr (.inl ?_)⟩
    · rw [Board.setChip_chip, hother _ (hA ▸ o1.slots_ne.symm)]
      exact hm.b
    · rw [Board.setChip_chip, hA, hself]
      exact hleft
  · refine .inl ⟨?_, ?_⟩
    · rw [Board.setChip_chip, hother _ hA]
      exact hm.a
    · rw [Board.setChip_chip]
      by_cases hB : o1.slotB = slot
      · rw [hB, hself]
        exact .inr (.inl hleft)
      · rw [hother _ hB]
        exact .inl hm.b

/-- The guard stays until a wipe, whatever single slot is damaged. -/
theorem guarded_calm {acts : List VaultAct} (hacts : ∀ a ∈ acts, a.Calm F)
    (hone : acts.countP VaultAct.damages ≤ 1)
    (hv : Until n (Settled F guardSet) v.ram v.board)
    (ha : Until n (fun _ => Agree F) v.ram v.board) :
    Until n (Settled F guardSet) ((vault F b).runFrom v acts).ram
      ((vault F b).runFrom v acts).board := by
  have hboot : ∀ b, UntilCut n (FlagsAt F guardSet) b → Until n (Settled F guardSet) .boot b :=
    fun b h => h.ram fun _ hf => hf.settled rfl
  have hst := settled_until (F := F) (n := n) (P := guardSet) calm_honest rfl
  induction acts generalizing v with
  | nil => exact hv
  | cons a acts ih =>
      have ha₀ := hacts a List.mem_cons_self
      have hrest : ∀ a' ∈ acts, a'.Calm F := fun a' ha' => hacts a' (List.mem_cons_of_mem a ha')
      rw [System.runFrom_cons]
      cases a with
      | call c fs =>
          have hone : acts.countP VaultAct.damages ≤ 1 := hone
          have huncut : swp (fidoBoard F) CalmBoard (c.prog F) (fun _ => Until n fun _ => Agree F)
              (fun _ => False) v.ram v.board := by
            apply swp_mono (swp_and (agree_until.vaultCall c _ _ ha)
              (swp_uncut (fun _ hf => calm_uncut hf) _ _ _))
            · exact fun _ _ _ h => h.1
            · exact fun _ h => h.2
          apply ih hrest hone
          · exact vault_after calm_quiet ha₀ (hst.vaultCall c _ _ hv) hboot
          · exact vault_after (C := fun _ => False) calm_quiet ha₀ huncut fun _ h => h.elim
      | powerCycle =>
          have hone : acts.countP VaultAct.damages ≤ 1 := hone
          apply ih hrest hone
          · exact hboot _ ⟨hv.1, fun hn => (hv.2 hn).flags⟩
          · exact ha
      | damage slot left =>
          have hnone : acts.countP VaultAct.damages = 0 := by
            rw [List.countP_cons_of_pos rfl] at hone
            omega
          have hwithin : ∀ a' ∈ acts, a'.Within CalmBoard := by
            intro a' ha'
            cases a' with
            | call c fs => exact hrest _ ha'
            | powerCycle => trivial
            | damage slot left => exact absurd rfl (List.countP_eq_zero.mp hnone _ ha')
          apply vault_runFrom calm_quiet hst _ hboot hwithin
          · exact ⟨hv.1, fun hn => settled_damage (hv.2 hn) (ha.2 hn) ha₀.2.1⟩
          · exact fun _ _ h => ⟨h.1, fun hn => (h.2 hn).flags⟩

/-! ### What a wipe got through means -/

/-- Every wipe that got through found nothing left of the credentials. -/
def WipesClean (b : Board Note) : Prop :=
  ∀ e ∈ b.notes, e.note = .wiped → NoKeys e.ecc ∧ NoMeta e.rmem

/-- Everything but the note of a wipe. -/
def wipeScope : Scope where
  rmem _ := True
  ecc _ := True
  ram _ _ := True
  note n := n.isWipe = false

theorem wipesClean_ground : Ground wipeScope (fun _ => WipesClean) WipesClean where
  cut _ _ h := h
  chip _ _ _ _ h := h
  ecc _ _ _ _ _ h := h
  keygen _ _ _ _ _ h := h
  counter _ _ _ h := h
  wait _ _ _ h := h
  note _ b n hn h e he hw := by
    rcases List.mem_cons.mp he with rfl | he
    · have hn : n.isWipe = false := hn
      have hw : n = .wiped := hw
      subst hw
      cases hn
    · exact h e he hw
  ram _ _ _ _ h := h

theorem wipeScope_o1 : wipeScope.O1 := ⟨fun _ _ => trivial, fun _ _ => trivial⟩

theorem wipeScope_o2 : wipeScope.O2 := ⟨fun _ _ => trivial, fun _ _ => trivial⟩

theorem wipesClean_wipe :
    Keeps (fidoBoard F) A (fun _ => WipesClean) WipesClean (fidoStateWipe F) := by
  have g := wipesClean_ground
  intro u b h
  apply swp_fidoStateWipe
  · exact fun _ _ _ _ _ _ _ _ => h
  · exact fun _ _ _ _ _ => h
  · intro e w _ hkeys _ _ hmeta
    have hrest : Keeps (fidoBoard F) A (fun _ => WipesClean) WipesClean (finishWipe F) := by
      apply keeps_bind (g.fidoPinClear wipeScope_o2)
      intro ok
      apply keeps_ite _ (keeps_pure _)
      apply keeps_bind (g.slotsInitFresh wipeScope_o1)
      intro ok
      apply keeps_ite _ (keeps_pure _)
      apply keeps_bind (g.mcounterInit _)
      rintro (_ | _) <;> exact keeps_pure _
    apply hrest
    intro e' he' hw
    rcases List.mem_cons.mp he' with rfl | he'
    · exact ⟨hkeys, hmeta⟩
    · exact h e' he' hw

theorem wipesClean_store : Store F A (fun _ => WipesClean) WipesClean where
  status := wipesClean_ground.o2 wipeScope_o2 footprint_pinMdKernelStatus
  setup _ _ := wipesClean_ground.o2 wipeScope_o2 footprint_pinMdKernelSetup
  verify _ := wipesClean_ground.o2 wipeScope_o2 footprint_pinMdKernelVerify
  verified _ _ := wipesClean_ground.leave rfl
  change _ _ _ := wipesClean_ground.o2 wipeScope_o2 footprint_pinMdKernelChange
  guard := wipesClean_ground.slotsSetPinBound wipeScope_o1 true true
  init := wipesClean_ground.slotsInit wipeScope_o1
  wipe := wipesClean_wipe
  counter := wipesClean_ground.mcounterGet

/-- Whatever happens to the vault. -/
theorem wipesClean_runFrom {acts : List VaultAct} (hv : WipesClean v.board) :
    WipesClean ((vault F b).runFrom v acts).board := by
  apply System.runFrom_keeps (I := fun v : Vault => WipesClean v.board) _ hv
  intro v a h
  cases a with
  | call c fs =>
      exact vault_after (A := fun _ => True) (J := fun _ => WipesClean) trivial
        (fun _ _ => trivial) (wipesClean_store.vaultCall c _ _ h) fun _ h => h
  | powerCycle => exact h
  | damage slot left => exact h

/-- What a query answers while the guard is set. -/
theorem guarded_reply (hquiet : A .quiet) {c : VaultCall} {fs : List BoardFate}
    (hfs : ∀ f ∈ fs, A f) (h : Settled F guardSet v.ram v.board) {r : VaultReply}
    (hr : v.reply F c fs = some r) : r.deniesPin = false := by
  have hcall : swp (fidoBoard F) A (c.prog F) (fun r _ _ => r.deniesPin = false) (fun _ => True)
      v.ram v.board := by
    cases c with
    | pinState =>
        apply swp_map.mpr
        apply swp_mono (guarded_pinState h) _ fun _ h => h
        rintro ⟨st, _⟩ _ _ hne
        cases st with
        | notSet => exact absurd rfl hne
        | _ => rfl
    | pinIsSet =>
        apply swp_map.mpr
        apply swp_mono (guarded_pinIsSet h) _ fun _ h => h
        rintro _ _ _ rfl
        rfl
    | _ => exact swp_map.mpr (swp_any (fun _ _ _ => rfl) fun _ => trivial)
  have hrun := run_of_swp hquiet hcall hfs
  rw [Vault.reply, Vault.run] at hr
  generalize run (fidoBoard F) ((c.prog F).run v.ram) fs v.board = out at hrun hr
  cases out with
  | done x b =>
      obtain rfl := Option.some.inj hr
      exact hrun
  | cut b => cases hr

/-- What is known of the state after a call that answered. -/
theorem vault_answered (hquiet : A .quiet) {c : VaultCall} {fs : List BoardFate}
    (hfs : ∀ f ∈ fs, A f) {Q : VaultReply → FidoRam → Board Note → Prop}
    (h : swp (fidoBoard F) A (c.prog F) Q (fun _ => True) v.ram v.board) {r : VaultReply}
    (hr : v.reply F c fs = some r) :
    Q r (v.step F (.call c fs)).ram (v.step F (.call c fs)).board := by
  have hrun := run_of_swp hquiet h hfs
  have hstep : v.step F (.call c fs) = .after (v.run F c fs) := rfl
  rw [hstep]
  rw [Vault.reply] at hr
  rw [Vault.run] at hr ⊢
  generalize run (fidoBoard F) ((c.prog F).run v.ram) fs v.board = out at hrun hr ⊢
  cases out with
  | done x b =>
      obtain rfl := Option.some.inj hr
      exact hrun
  | cut b => cases hr

/-- What is known of the state after a call that was cut. -/
theorem vault_cut (hquiet : A .quiet) {c : VaultCall} {fs : List BoardFate}
    (hfs : ∀ f ∈ fs, A f) {C : Board Note → Prop}
    (h : swp (fidoBoard F) A (c.prog F) (fun _ _ _ => True) C v.ram v.board)
    (hr : v.reply F c fs = none) :
    (v.step F (.call c fs)).ram = .boot ∧ C (v.step F (.call c fs)).board := by
  have hrun := run_of_swp hquiet h hfs
  have hstep : v.step F (.call c fs) = .after (v.run F c fs) := rfl
  rw [hstep]
  rw [Vault.reply] at hr
  rw [Vault.run] at hr ⊢
  generalize run (fidoBoard F) ((c.prog F).run v.ram) fs v.board = out at hrun hr ⊢
  cases out with
  | done x b => cases hr
  | cut b => exact ⟨rfl, hrun⟩

theorem pinSet_answers (hA : ∀ f, A f → Honest F f) {u : FidoRam} (mat : Bytes) (len : UInt8) :
    swp (fidoBoard F) A ((VaultCall.pinSet mat len).prog F)
      (fun r u' b' => r = .set true → Settled F guardSet u' b' ∧ Agree F b')
        (fun _ => True) u b := by
  apply swp_map.mpr
  apply swp_mono (pinSet_acked hA mat len) _ fun _ h => h
  exact fun ok _ _ h heq => h (VaultReply.set.inj heq)

/-- A set guard answers every later query that the PIN is there. -/
theorem guarded_run {mid : List VaultAct} {mat : Bytes} {len : UInt8} {fs fs' : List BoardFate}
    {c : VaultCall} (hacts : Endured F (.call (.pinSet mat len) fs :: (mid ++ [.call c fs'])))
    (hset : v.reply F (.pinSet mat len) fs = some (.set true))
    (hno : wipes ((vault F b).runFrom (v.step F (.call (.pinSet mat len) fs)) mid).board =
      wipes (v.step F (.call (.pinSet mat len) fs)).board) {r : VaultReply}
    (hr : ((vault F b).runFrom (v.step F (.call (.pinSet mat len) fs)) mid).reply F c fs' =
      some r) :
    r.deniesPin = false := by
  have hmem : ∀ a ∈ mid, a ∈ VaultAct.call (.pinSet mat len) fs :: (mid ++ [.call c fs']) :=
    fun a ha => List.mem_cons_of_mem _ (List.mem_append_left _ ha)
  have hlast : VaultAct.call c fs' ∈ VaultAct.call (.pinSet mat len) fs :: (mid ++ [.call c fs']) :=
    List.mem_cons_of_mem _ (List.mem_append_right _ List.mem_cons_self)
  rcases hacts with hf | ⟨hcalm, hone⟩
  · obtain ⟨hs, -⟩ := vault_answered (honest_quiet F) (hf _ List.mem_cons_self)
      (pinSet_answers (fun _ h => h) mat len) hset rfl
    have hlater := vault_runFrom (b := b) (honest_quiet F)
        (settled_until (P := guardSet) (fun _ h => h) rfl)
      (fun _ _ h => ⟨h.1, fun hn => (h.2 hn).flags⟩) (fun b h => h.ram fun _ hf => hf.settled rfl)
      (fun a ha => hf a (hmem a ha)) ⟨Nat.le_refl _, fun _ => hs⟩
    exact guarded_reply (honest_quiet F) (hf _ hlast) (hlater.2 hno) hr
  · obtain ⟨hs, hag⟩ := vault_answered calm_quiet (hcalm _ List.mem_cons_self)
      (pinSet_answers calm_honest mat len) hset rfl
    have hmid : mid.countP VaultAct.damages ≤ 1 := by
      have hle : mid.countP VaultAct.damages ≤ (mid ++ [VaultAct.call c fs']).countP
          VaultAct.damages := (List.sublist_append_left _ _).countP_le
      exact hle.trans hone
    have hlater := guarded_calm (b := b) (fun a ha => hcalm a (hmem a ha)) hmid
      ⟨Nat.le_refl _, fun _ => hs⟩ ⟨Nat.le_refl _, fun _ => hag⟩
    exact guarded_reply calm_quiet (hcalm _ hlast) (hlater.2 hno) hr

theorem calm_not_cut {c : VaultCall} {fs : List BoardFate} (hfs : ∀ f ∈ fs, CalmBoard f) :
    v.reply F c fs ≠ none := by
  intro hr
  have hcut := (vault_cut calm_quiet hfs (swp_uncut (fun _ hf => calm_uncut hf) _ _ _) hr).2
  exact hcut

/-- A setPin that is cut after its binding is completed by the next boot. -/
theorem cut_run {pre mid : List VaultAct} {mat : Bytes} {len : UInt8} {fs fs' : List BoardFate}
    (hacts : Endured F (pre ++ .call (.pinSet mat len) fs :: (mid ++ [.call .boot fs'])))
    (hv : (vault F b).run pre = v) (hcut : v.reply F (.pinSet mat len) fs = none)
    (hold : ¬Bound F v.board) (hnew : Bound F (v.step F (.call (.pinSet mat len) fs)).board)
    {v₂ : Vault} (hv₂ : (vault F b).runFrom (v.step F (.call (.pinSet mat len) fs)) mid = v₂)
    (hno : wipes v₂.board = wipes (v.step F (.call (.pinSet mat len) fs)).board)
    (hboot : v₂.reply F .boot fs' = some (.rc 0)) :
    (v₂.step F (.call .boot fs')).ram.slots.pinBound = true ∧
      (v₂.step F (.call .boot fs')).ram.slots.forceUv = true ∧
      GlobalAt F (v₂.step F (.call .boot fs')).board.chip.rmem
        (v₂.step F (.call .boot fs')).ram.global := by
  have hset : VaultAct.call (.pinSet mat len) fs ∈
      pre ++ .call (.pinSet mat len) fs :: (mid ++ [.call .boot fs']) :=
    List.mem_append_right _ List.mem_cons_self
  rcases hacts with hf | ⟨hcalm, -⟩
  · have hA : ∀ f, Honest F f → Honest F f := fun _ h => h
    have hsync : Synced F v.ram v.board := by
      rw [← hv]
      apply vault_runFrom (honest_quiet F) (synced_store hA) (fun _ _ _ => trivial)
        (fun _ _ => synced_of_not_usable rfl)
      · exact fun a ha => hf a (List.mem_append_left _ ha)
      · exact synced_of_not_usable rfl
    obtain ⟨hram, hflags⟩ := vault_cut (honest_quiet F) (hf _ hset)
      (swp_map.mpr (pinSet_cut hA hsync hold mat len)) hcut
    have hmid : ∀ a ∈ mid, a.Within (Honest F) := fun a ha =>
      hf a (List.mem_append_right _ (List.mem_cons_of_mem _ (List.mem_append_left _ ha)))
    have hs := vault_runFrom (b := b) (honest_quiet F)
      (settled_until (P := guardForces) hA fun _ => rfl)
      (fun _ _ h => ⟨h.1, fun hn => (h.2 hn).flags⟩) (fun b h => h.ram fun _ hf => hf.settled rfl)
      hmid ⟨Nat.le_refl _, fun _ => (hflags hnew).settled (by rw [hram]; rfl)⟩
    have hb := vault_runFrom (b := b) (honest_quiet F) (bound_until hA)
      (fun _ _ h => h) (fun b h => h) hmid ⟨Nat.le_refl _, fun _ => hnew⟩
    rw [hv₂] at hs hb
    have hcomplete : swp (fidoBoard F) (Honest F) (VaultCall.boot.prog F)
        (fun r u' b' => r = .rc 0 → u'.slots.pinBound = true ∧ u'.slots.forceUv = true ∧
          GlobalAt F b'.chip.rmem u'.global) (fun _ => True) v₂.ram v₂.board := by
      apply swp_map.mpr
      apply swp_mono (boot_completes hA (hs.2 hno) (hb.2 hno)) _ fun _ h => h
      exact fun rc _ _ h heq => h (VaultReply.rc.inj heq)
    have hfs' : ∀ f ∈ fs', Honest F f := hf (.call .boot fs') (List.mem_append_right _
      (List.mem_cons_of_mem _ (List.mem_append_right _ List.mem_cons_self)))
    exact vault_answered (honest_quiet F) hfs' hcomplete hboot rfl
  · exact absurd hcut (calm_not_cut (hcalm _ hset))

end Runs

/-- A PIN does not disappear before a wipe got through, and such a wipe has
left no key and no metadata. A setPin that was cut after its binding is
completed by the next boot that succeeds. -/
theorem pin_never_disappears (F : FidoPrims) (b : Board Note) (pre mid : List VaultAct)
    (mat : Bytes) (len : UInt8) (fs : List BoardFate) (c : VaultCall) (fs' : List BoardFate)
    (hacts : Endured F (pre ++ .call (.pinSet mat len) fs :: (mid ++ [.call c fs']))) :
    let v₀ := (vault F b).run pre
    let v₁ := v₀.step F (.call (.pinSet mat len) fs)
    let v₂ := (vault F b).runFrom v₁ mid
    let v₃ := v₂.step F (.call c fs')
    (wipes v₂.board = wipes v₁.board →
      (v₀.reply F (.pinSet mat len) fs = some (.set true) →
        ∀ r, v₂.reply F c fs' = some r → r.deniesPin = false) ∧
      (v₀.reply F (.pinSet mat len) fs = none → ¬Bound F v₀.board → Bound F v₁.board →
        c = .boot → v₂.reply F c fs' = some (.rc 0) →
        v₃.ram.slots.pinBound = true ∧ v₃.ram.slots.forceUv = true ∧
          GlobalAt F v₃.board.chip.rmem v₃.ram.global)) ∧
    ∀ e ∈ v₂.board.notes, e.note = .wiped → NoKeys e.ecc ∧ NoMeta e.rmem := by
  refine ⟨fun hno => ⟨fun hset r hr => ?_, ?_⟩, ?_⟩
  · apply guarded_run (b := b) (c := c) _ hset hno hr
    rcases hacts with hf | ⟨hcalm, hone⟩
    · exact .inl fun a ha => hf a (List.mem_append_right _ ha)
    · refine .inr ⟨fun a ha => hcalm a (List.mem_append_right _ ha), ?_⟩
      exact (List.sublist_append_right _ _).countP_le.trans hone
  · rintro hcut hold hnew rfl hboot
    exact cut_run hacts rfl hcut hold hnew rfl hno hboot
  · have hstart : WipesClean ((vault F b).init).board := fun e he => by cases he
    have hpre : WipesClean ((vault F b).run pre).board := wipesClean_runFrom hstart
    have hset : WipesClean ((vault F b).runFrom ((vault F b).run pre)
        [.call (.pinSet mat len) fs]).board := wipesClean_runFrom hpre
    exact wipesClean_runFrom hset

/-- A booted vault. -/
def demoBooted : Vault := (vault mixFido blankBoard).run [.call .boot []]

/-- The same after a first PIN. -/
def demoSet : Vault := demoBooted.step mixFido (.call (.pinSet [1] 1) [])

theorem pin_never_disappears_demo :
    ∃ r, ((vault mixFido blankBoard).runFrom demoSet [.powerCycle]).reply mixFido .pinIsSet [] =
      some r ∧ r.deniesPin = false := by
  have hacts : Endured mixFido ([.call .boot []] ++ .call (.pinSet [1] 1) [] ::
      ([.powerCycle] ++ [.call .pinIsSet []])) := by
    refine .inl fun a ha => ?_
    simp only [List.cons_append, List.nil_append, List.mem_cons, List.not_mem_nil, or_false] at ha
    rcases ha with rfl | rfl | rfl | rfl
    all_goals first | trivial | exact fun f hf => by cases hf
  have hset : demoBooted.reply mixFido (.pinSet [1] 1) [] = some (.set true) := by decide +kernel
  have hno : wipes ((vault mixFido blankBoard).runFrom demoSet [.powerCycle]).board =
      wipes demoSet.board := by decide +kernel
  have hreply : ((vault mixFido blankBoard).runFrom demoSet [.powerCycle]).reply mixFido .pinIsSet
      [] = some (.isSet true) := by decide +kernel
  have hall := pin_never_disappears mixFido blankBoard [.call .boot []] [.powerCycle] [1] 1 []
    .pinIsSet [] hacts
  exact ⟨_, hreply, (hall.1 hno).1 hset _ hreply⟩

end Nixtropic.Fido
