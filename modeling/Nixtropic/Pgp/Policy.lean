import Nixtropic.Pgp.Frame

/-!
The touch flag and the count of signatures over the life of a card.

Both are in O3, which may be in the middle of a write, unreadable or wiped. What
O3 holds is compared with the notes since the last wipe: the count is not behind
the signatures, and a touch flag that was acknowledged as permanent is still there.
The comparison holds between any two calls, and so for a card that was cut off.
-/

namespace Nixtropic.Pgp

open Crash Runs

/-! ### What the notes say -/

/-- The answer ends in the status word 9000. -/
def AnsweredOk (out : Option Bytes) : Prop := ∃ data, out = some (data ++ be16 swOk)

/-- PUT DATA of the touch flag, with the permanent one. -/
def Apdu.setsPermanent (a : Apdu) : Prop :=
  a.ins = insPutData ∧ tagOf a.p1 a.p2 ∈ [0xD6, 0xD7, 0xD8] ∧ a.body.getD 0 0 = 2

/-- The notes since the last wipe began, newest first. -/
def sinceWipe (notes : List (Entry Note)) : List (Entry Note) :=
  notes.takeWhile fun e => e.note ≠ .wipe

/-- The signature key is about to sign. -/
def isSignature (e : Entry Note) : Bool := e.note = .sign sigSlot

/-- A permanent touch flag is acknowledged. -/
def AcksPermanent (e : Entry Note) : Prop :=
  ∃ inp out a, e.note = .answer inp out ∧ framed inp = .ok a ∧ a.setsPermanent ∧ AnsweredOk out

/-- A command for a signature arrives. -/
def AsksSignature (e : Entry Note) : Prop :=
  ∃ inp a, e.note = .apdu inp ∧ framed inp = .ok a ∧ a.isCds

/-- The signatures since the last wipe. -/
def signatures (b : Board Note) : ℕ := (sinceWipe b.notes).countP isSignature

/-- The touch flag was acknowledged as permanent, and no wipe began since. -/
def Permanent (b : Board Note) : Prop := ∃ e ∈ sinceWipe b.notes, AcksPermanent e

/-- Since the last wipe no command for a signature came when the count was at its
largest value, behind which it starts again. -/
def Unwrapped (F : PgpPrims) (b : Board Note) : Prop :=
  ∀ e ∈ sinceWipe b.notes, AsksSignature e → ∀ p, O3At F e.rmem p → sigCount p + 1 < 2 ^ 24

/-- A signature after `rest` has a command of its own, the latest one, and an increment
of its own: both copies of O3 hold the count that follows the one at the command. -/
def CountedBy (F : PgpPrims) (e : Entry Note) (rest : List (Entry Note)) : Prop :=
  ∃ mid e₀ pre, rest = mid ++ e₀ :: pre ∧ AsksSignature e₀ ∧
    (∀ m ∈ mid, isSignature m = false ∧ ∀ inp, m.note ≠ .apdu inp) ∧
    ∃ p p', O3At F e₀.rmem p ∧ O3Both F e.rmem p' ∧ sigCount p' = (sigCount p + 1) % 2 ^ 24

/-- So has every signature of the notes. -/
def Preceded (F : PgpPrims) : List (Entry Note) → Prop
  | [] => True
  | e :: rest => (isSignature e → CountedBy F e rest) ∧ Preceded F rest

/-- What O3 holds agrees with the notes. -/
structure Ledger (F : PgpPrims) (b : Board Note) : Prop where
  preceded : Preceded F b.notes
  terminated : ∀ p, O3At F b.chip.rmem p → p.getD offLc 0 = Lifecycle.terminated.code →
    signatures b = 0
  counted : Unwrapped F b → ∀ p, O3At F b.chip.rmem p → signatures b ≤ sigCount p
  permanent : Permanent b → ∃ p, O3At F b.chip.rmem p ∧ p.getD offUif 0 = 2 ∧
    p.getD offLc 0 = Lifecycle.operational.code

/-- No signature and no acknowledgement since the last wipe. -/
structure Fresh (F : PgpPrims) (b : Board Note) : Prop where
  preceded : Preceded F b.notes
  unsigned : signatures b = 0
  revocable : ¬Permanent b

theorem Fresh.ledger {F : PgpPrims} {b : Board Note} (h : Fresh F b) : Ledger F b where
  preceded := h.preceded
  terminated _ _ _ := h.unsigned
  counted _ _ _ := h.unsigned ▸ Nat.zero_le _
  permanent hp := absurd hp h.revocable

theorem Fresh.setChip {F : PgpPrims} {b : Board Note} (h : Fresh F b) (w : World) :
    Fresh F (b.setChip w) :=
  ⟨h.preceded, h.unsigned, h.revocable⟩

section Notes

variable {F : PgpPrims} {b : Board Note} {n : Note}

theorem sinceWipe_jot (hn : n ≠ .wipe) :
    sinceWipe (b.jot n).notes = ⟨n, b.now, b.chip.rmem, b.ecc⟩ :: sinceWipe b.notes := by
  rw [Board.jot_notes, sinceWipe, List.takeWhile_cons_of_pos (by simpa using hn)]
  rfl

/-- A note other than of a signature. -/
theorem preceded_jot (h : Preceded F b.notes) (hs : n ≠ .sign sigSlot) :
    Preceded F (b.jot n).notes :=
  ⟨fun hsig => absurd (of_decide_eq_true hsig) hs, h⟩

theorem fresh_wipe (h : Preceded F b.notes) : Fresh F (b.jot .wipe) := by
  have hnil : sinceWipe (b.jot .wipe).notes = [] := by
    rw [Board.jot_notes, sinceWipe, List.takeWhile_cons_of_neg (by simp)]
  refine ⟨preceded_jot h (fun h => by cases h), ?_, ?_⟩
  · rw [signatures, hnil]
    rfl
  · rintro ⟨e, he, -⟩
    rw [hnil] at he
    cases he

theorem signatures_jot (hn : n ≠ .wipe) (hs : n ≠ .sign sigSlot) :
    signatures (b.jot n) = signatures b := by
  rw [signatures, sinceWipe_jot hn, List.countP_cons_of_neg]
  · rfl
  · simpa [isSignature] using hs

theorem signatures_sign : signatures (b.jot (.sign sigSlot)) = signatures b + 1 := by
  rw [signatures, sinceWipe_jot (fun h => by cases h), List.countP_cons_of_pos rfl]
  rfl

theorem Unwrapped.older (h : Unwrapped F (b.jot n)) (hn : n ≠ .wipe) : Unwrapped F b := by
  intro e he
  apply h e
  rw [sinceWipe_jot hn]
  exact List.mem_cons_of_mem _ he

theorem Permanent.older (h : Permanent (b.jot n)) (hn : n ≠ .wipe)
    (hans : ∀ inp out, n ≠ .answer inp out) : Permanent b := by
  obtain ⟨e, he, hack⟩ := h
  rw [sinceWipe_jot hn] at he
  rcases List.mem_cons.mp he with rfl | he
  · obtain ⟨inp, out, -, hnote, -⟩ := hack
    exact absurd hnote (hans inp out)
  · exact ⟨e, he, hack⟩

/-- A note that neither starts a wipe, nor counts as a signature, nor answers. -/
theorem Ledger.jot (h : Ledger F b) (hn : n ≠ .wipe) (hs : n ≠ .sign sigSlot)
    (hans : ∀ inp out, n ≠ .answer inp out) : Ledger F (b.jot n) where
  preceded := preceded_jot h.preceded hs
  terminated p hp hlc := (signatures_jot hn hs).trans (h.terminated p hp hlc)
  counted hu p hp := (signatures_jot hn hs).trans_le (h.counted (hu.older hn) p hp)
  permanent hp := h.permanent (hp.older hn hans)

/-- The signature key signs after the count went up. -/
theorem Ledger.sign (h : Ledger F b) {p : Bytes} (hp : O3At F b.chip.rmem p)
    (hlc : p.getD offLc 0 = Lifecycle.operational.code)
    (hcount : Unwrapped F b → signatures b + 1 ≤ sigCount p)
    (hown : CountedBy F ⟨.sign sigSlot, b.now, b.chip.rmem, b.ecc⟩ b.notes) :
    Ledger F (b.jot (.sign sigSlot)) where
  preceded := ⟨fun _ => hown, h.preceded⟩
  terminated p' hp' hlc' := by
    rw [← hp.unique hp', hlc] at hlc'
    cases hlc'
  counted hu p' hp' := by
    rw [signatures_sign, ← hp.unique hp']
    exact hcount (hu.older fun h => by cases h)
  permanent hperm := h.permanent (hperm.older (fun h => by cases h) fun _ _ h => by cases h)

/-- An answer, which may acknowledge a permanent flag that O3 then holds. -/
theorem Ledger.answer (h : Ledger F b) {inp : Bytes} {out : Option Bytes}
    (hack : ∀ a, framed inp = .ok a → a.setsPermanent → AnsweredOk out →
      ∃ p, O3At F b.chip.rmem p ∧ p.getD offUif 0 = 2 ∧
        p.getD offLc 0 = Lifecycle.operational.code) :
    Ledger F (b.jot (.answer inp out)) where
  preceded := preceded_jot h.preceded fun h => by cases h
  terminated p hp hlc :=
    (signatures_jot (fun h => by cases h) fun h => by cases h).trans (h.terminated p hp hlc)
  counted hu p hp := (signatures_jot (fun h => by cases h) fun h => by cases h).trans_le
    (h.counted (hu.older fun h => by cases h) p hp)
  permanent hperm := by
    obtain ⟨e, he, inp', out', a, hnote, hframed, hsets, hok⟩ := hperm
    rw [sinceWipe_jot (fun h => by cases h)] at he
    rcases List.mem_cons.mp he with rfl | he
    · cases hnote
      exact hack a hframed hsets hok
    · exact h.permanent ⟨e, he, inp', out', a, hnote, hframed, hsets, hok⟩

/-- O3 moved on, with the life cycle kept, the count not behind and a permanent flag
kept. -/
theorem Ledger.move (h : Ledger F b) {p p' : Bytes} {w : World} (hp : O3At F b.chip.rmem p)
    (hp' : O3At F w.rmem p') (hlc : p'.getD offLc 0 = p.getD offLc 0)
    (hcount : Unwrapped F b → sigCount p ≤ sigCount p')
    (huif : p.getD offUif 0 = 2 → p'.getD offUif 0 = 2) : Ledger F (b.setChip w) where
  preceded := h.preceded
  terminated q hq hterm := by
    rw [← hp'.unique hq, hlc] at hterm
    exact h.terminated p hp hterm
  counted hu q hq := by
    rw [← hp'.unique hq]
    exact (h.counted hu p hp).trans (hcount hu)
  permanent hperm := by
    obtain ⟨q, hq, hq2, hop⟩ := h.permanent hperm
    obtain rfl := hp.unique hq
    exact ⟨p', hp', huif hq2, hlc.trans hop⟩

/-- O3 holds what it held. -/
theorem Ledger.same (h : Ledger F b) {b' : Board Note} (hnotes : b'.notes = b.notes)
    (hiff : ∀ p, O3At F b'.chip.rmem p ↔ O3At F b.chip.rmem p) : Ledger F b' where
  preceded := hnotes ▸ h.preceded
  terminated p hp hlc := by
    rw [signatures, hnotes]
    exact h.terminated p ((hiff p).mp hp) hlc
  counted hu p hp := by
    rw [signatures, hnotes]
    rw [Unwrapped, hnotes] at hu
    exact h.counted hu p ((hiff p).mp hp)
  permanent hperm := by
    rw [Permanent, hnotes] at hperm
    obtain ⟨p, hp, h2, hop⟩ := h.permanent hperm
    exact ⟨p, (hiff p).mpr hp, h2, hop⟩

end Notes

/-! ### The copy in RAM -/

/-- The copy of O3 in RAM is what O3 holds, whenever it is used. -/
def Synced (F : PgpPrims) (u : PgpRam) (b : Board Note) : Prop :=
  u.o3.usable = true → O3At F b.chip.rmem u.o3.cur ∧ o3Len ≤ u.o3.cur.length

/-- Without a loaded O3 nobody has access by PW1. -/
def Guarded (u : PgpRam) : Prop := u.o3.loaded = true ∨ u.auth.hasPw1 = false

/-- Access by PW1 was not gained, and O3 is as much loaded as before. -/
structure Calmer (u u' : PgpRam) : Prop where
  loaded : u'.o3.loaded = u.o3.loaded
  auth : u.auth.hasPw1 = false → u'.auth.hasPw1 = false

/-- What no such change of the variables breaks. -/
def Lasting (R : PgpRam → Prop) : Prop := ∀ u u', Calmer u u' → R u → R u'

theorem lasting_guarded : Lasting Guarded := by
  rintro u u' hc (h | h)
  · exact .inl (hc.loaded.trans h)
  · exact .inr (hc.auth h)

theorem lasting_loaded : Lasting fun u => u.o3.loaded = true := fun _ _ hc h => hc.loaded.trans h

theorem lasting_locked : Lasting fun u => u.auth.hasPw1 = false := fun _ _ hc h => hc.auth h

/-- What is said of the notes and of what O3 holds, and of nothing else. -/
def OfO3 (F : PgpPrims) (L : Board Note → Prop) : Prop :=
  ∀ b b' : Board Note, b'.notes = b.notes →
    (∀ p, O3At F b'.chip.rmem p ↔ O3At F b.chip.rmem p) → L b → L b'

theorem ofO3_ledger (F : PgpPrims) : OfO3 F (Ledger F) := fun _ _ hn hp h => h.same hn hp

theorem ofO3_fresh (F : PgpPrims) : OfO3 F (Fresh F) := by
  intro b b' hn _ h
  refine ⟨hn ▸ h.preceded, ?_, ?_⟩
  · rw [signatures, hn]
    exact h.unsigned
  · rw [Permanent, hn]
    exact h.revocable

/-- The invariant: of the variables, of the copy of O3, and of the board. -/
structure Held (F : PgpPrims) (R : PgpRam → Prop) (L : Board Note → Prop) (u : PgpRam)
    (b : Board Note) : Prop where
  ram : R u
  synced : Synced F u b
  board : L b

section Held

variable {F : PgpPrims} {A : BoardFate → Prop} {R : PgpRam → Prop} {L : Board Note → Prop}
  {u : PgpRam} {b : Board Note} {α : Type}

theorem Synced.same {u' : PgpRam} {b' : Board Note} (h : Synced F u b) (hu : u'.o3 = u.o3)
    (hiff : ∀ p, O3At F b'.chip.rmem p ↔ O3At F b.chip.rmem p) : Synced F u' b' := by
  intro hon
  rw [hu] at hon ⊢
  exact ⟨(hiff _).mpr (h hon).1, (h hon).2⟩

theorem synced_of_not_usable (h : u.o3.usable = false) : Synced F u b := by
  intro hon
  rw [h] at hon
  cases hon

theorem o3At_away {S : ℕ → Prop} {w w' : World} (hS : ∀ slot, o3.owns slot → ¬S slot)
    (hw : Away S w w') (p : Bytes) : O3At F w'.rmem p ↔ O3At F w.rmem p := by
  have ha : w'.rmem o3.slotA = w.rmem o3.slotA := hw _ (hS _ (.inl rfl))
  have hb : w'.rmem o3.slotB = w.rmem o3.slotB := hw _ (hS _ (.inr rfl))
  exact ⟨fun h => h.congr ha.symm hb.symm, fun h => h.congr ha hb⟩

theorem Held.away (hR : Lasting R) (hL : OfO3 F L) (h : Held F R L u b) {u' : PgpRam}
    {w : World} {S : ℕ → Prop} (hc : Calmer u u') (hu : u'.o3 = u.o3)
    (hS : ∀ slot, o3.owns slot → ¬S slot) (hw : Away S b.chip w) :
    Held F R L u' (b.setChip w) where
  ram := hR u u' hc h.ram
  synced := h.synced.same hu (o3At_away hS hw)
  board := hL b _ rfl (o3At_away hS hw) h.board

theorem not_pins_o3 (which : Which) : ∀ slot, o3.owns slot →
    ¬(layoutOf which).record.owns slot := by
  rintro slot (rfl | rfl) <;> cases which <;> simp only [RecPair.owns] <;> decide

theorem calmer_put (which : Which) (u : PgpRam) (v : Bool) :
    Calmer u ((pinCell which).put u v) := by
  cases which <;> exact ⟨rfl, id⟩

theorem put_o3 (which : Which) (u : PgpRam) (v : Bool) : ((pinCell which).put u v).o3 = u.o3 := by
  cases which <;> rfl

section Pieces

variable (hR : Lasting R) (hL : OfO3 F L)
include hR hL

/-- What a PIN does stays beside O3. -/
theorem held_pin {which : Which} {m : Fw Bool α}
    (hm : Footprint F.chip (layoutOf which).record.owns m) :
    Keeps (pgpBoard F) A (Held F R L) L (onPair (pinCell which) m) := by
  intro u b h
  apply swp_onPair
  apply swp_mono (hm _ _ _)
  · intro a v w hw
    exact h.away hR hL (calmer_put which u v) (put_o3 which u v) (not_pins_o3 which) hw
  · intro w hw
    exact hL b _ rfl (o3At_away (not_pins_o3 which) hw) h.board

/-- A call of the chip that stays away from the R-memory. -/
theorem held_perform {o : Op} (ho : o.within fun _ => False) :
    Keeps (pgpBoard F) A (Held F R L) L (onChip (StProg.perform o : Fw PgpRam (Ret o))) := by
  intro u b h
  have hnone : ∀ slot, o3.owns slot → ¬(fun _ : ℕ => False) slot := fun _ _ h => h
  apply swp_onChip
  rw [swp_perform]
  intro f _
  have hw : Away (fun _ => False) b.chip ((chip F.chip).act f o b.chip).2 := away_act ho f b.chip
  generalize (chip F.chip).act f o b.chip = x at hw ⊢
  rcases x with ⟨_ | r, w⟩
  · exact hL b _ rfl (o3At_away hnone hw) h.board
  · exact h.away hR hL ⟨rfl, id⟩ rfl hnone hw

omit hR in
/-- A call of the board that leaves the chip's memories and the notes alone. -/
theorem held_board {o : BoardOp Note} (ho : o.onTropic)
    (hexec : ∀ b, (boardExec F.key o b).2.chip = b.chip ∧ (boardExec F.key o b).2.notes = b.notes) :
    Keeps (pgpBoard F) A (Held F R L) L (callBoard o) := by
  intro u b h
  have hboard : ∀ b', b' = b ∨ b' = (boardExec F.key o b).2 → Held F R L u b' := by
    rintro b' (rfl | rfl)
    · exact h
    · obtain ⟨hchip, hnotes⟩ := hexec b
      have hiff : ∀ p, O3At F (boardExec F.key o b).2.chip.rmem p ↔ O3At F b.chip.rmem p :=
        fun p => by rw [hchip]
      exact ⟨h.ram, h.synced.same rfl hiff, hL b _ hnotes hiff h.board⟩
  apply swp_callBoard ho (hboard _ (.inr rfl))
  · exact fun _ r _ b' hb => hboard b' hb
  · exact fun _ b' hb => (hboard b' hb).board

omit hR in
theorem held_session : Keeps (pgpBoard F) A (Held F R L) L tropicSessionEnsure :=
  held_board hL trivial fun _ => ⟨rfl, rfl⟩

omit hR in
theorem held_eccErase (slot : ℕ) : Keeps (pgpBoard F) A (Held F R L) L (tropicEccErase slot) :=
  held_board hL trivial fun _ => ⟨rfl, rfl⟩

omit hR in
theorem held_eccGenerate (slot curve : ℕ) :
    Keeps (pgpBoard F) A (Held F R L) L (tropicEccGenerate slot curve) := by
  apply held_board hL (o := .eccGenerate slot curve) trivial
  intro b
  rw [boardExec]
  split <;> exact ⟨rfl, rfl⟩

omit hR in
theorem held_pubkeyRead (slot : ℕ) :
    Keeps (pgpBoard F) A (Held F R L) L (tropicEccPubkeyRead slot) := by
  apply held_board hL (o := .eccPubkeyRead slot) trivial
  intro b
  rw [boardExec]
  cases b.ecc slot <;> exact ⟨rfl, rfl⟩

omit hR in
theorem held_eddsaSign (slot : ℕ) (msg : Bytes) :
    Keeps (pgpBoard F) A (Held F R L) L (tropicEddsaSign slot msg) := by
  apply held_board hL (o := .eddsaSign slot msg) trivial
  intro b
  rw [boardExec]
  cases b.ecc slot with
  | none => exact ⟨rfl, rfl⟩
  | some k => dsimp only; split <;> exact ⟨rfl, rfl⟩

theorem held_clearPin (which : Which) : Keeps (pgpBoard F) A (Held F R L) L (clearPin which) := by
  apply keeps_bind
  · apply keeps_modify
    intro u b h
    exact ⟨hR u _ (calmer_put which u false) h.ram,
      h.synced.same (put_o3 which u false) fun _ => Iff.rfl, h.board⟩
  · intro _
    apply keeps_bind (held_pin hR hL footprint_pinMdKernelClear)
    intro r
    cases r <;> exact keeps_pure _

theorem held_bindPin (which : Which) (pin : Bytes) :
    Keeps (pgpBoard F) A (Held F R L) L (bindPin F which pin) :=
  keeps_bind (held_pin hR hL footprint_pinMdKernelSetup) fun _ => keeps_pure _

theorem held_clearAll : Keeps (pgpBoard F) A (Held F R L) L pgpPinClearAll := by
  apply keeps_bind (held_clearPin hR hL _)
  intro ok
  apply keeps_ite _ (keeps_pure _)
  apply keeps_bind (held_clearPin hR hL _)
  intro ok
  exact keeps_ite (held_clearPin hR hL _) (keeps_pure _)

theorem held_bindFactory : Keeps (pgpBoard F) A (Held F R L) L (pgpPinBindFactory F) := by
  apply keeps_bind (held_bindPin hR hL _ _)
  intro ok
  exact keeps_ite (held_bindPin hR hL _ _) (keeps_pure _)

omit hL in
theorem held_drop (mask : Auth) : Keeps (pgpBoard F) A (Held F R L) L (authDrop mask) := by
  apply keeps_modify
  intro u b h
  refine ⟨hR u _ ⟨rfl, fun hno => ?_⟩ h.ram, h.synced.same rfl fun _ => Iff.rfl, h.board⟩
  simp only [Auth.hasPw1, Bool.or_eq_false_iff] at hno
  simp [PgpRam.dropAuth, Auth.without, Auth.hasPw1, hno.1, hno.2]

end Pieces

end Held

end Nixtropic.Pgp
