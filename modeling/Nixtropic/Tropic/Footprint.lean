import Nixtropic.Tropic.PinKernel

/-!
Which R-memory slots a program may change, whatever the chip holds and
whatever its calls meet: a call of a pair changes the two slots of the pair,
and so does every call of the PIN kernel.
-/

namespace Nixtropic

open Crash

/-- Nothing outside `S` changed. -/
def Away (S : ℕ → Prop) (w w' : World) : Prop := ∀ slot, ¬S slot → w'.rmem slot = w.rmem slot

theorem Away.refl (S : ℕ → Prop) (w : World) : Away S w w := fun _ _ => rfl

theorem Away.trans {S : ℕ → Prop} {w₁ w₂ w₃ : World} (h : Away S w₁ w₂) (h' : Away S w₂ w₃) :
    Away S w₁ w₃ := fun slot hs => (h' slot hs).trans (h slot hs)

/-- The slots of a pair. -/
def RecPair.owns (p : RecPair) (slot : ℕ) : Prop := slot = p.slotA ∨ slot = p.slotB

section Footprint

variable {P : Prims} {S : ℕ → Prop} {ρ α β : Type}

/-- The program changes no slot outside `S`. -/
def Footprint (P : Prims) (S : ℕ → Prop) (m : Fw ρ α) : Prop :=
  ∀ A u w, swp (chip P) A m (fun _ _ w' => Away S w w') (Away S w) u w

theorem footprint_pure (a : α) : Footprint P S (pure a : Fw ρ α) := fun _ _ w => Away.refl S w

theorem footprint_get : Footprint P S (get : Fw ρ ρ) := fun _ _ w => Away.refl S w

theorem footprint_set (v : ρ) : Footprint P S (set v : Fw ρ PUnit) := fun _ _ w => Away.refl S w

theorem footprint_bind {m : Fw ρ α} {f : α → Fw ρ β} (hm : Footprint P S m)
    (hf : ∀ a, Footprint P S (f a)) : Footprint P S (m >>= f) := by
  intro A u w
  rw [swp_bind]
  apply swp_mono (hm A u w) _ fun _ h => h
  intro a u' w' h
  exact swp_mono (hf a A u' w') (fun _ _ _ h' => h.trans h') fun _ h' => h.trans h'

theorem footprint_ite {c : Prop} [Decidable c] {m m' : Fw ρ α} (h : Footprint P S m)
    (h' : Footprint P S m') : Footprint P S (if c then m else m') := by
  split
  · exact h
  · exact h'

theorem footprint_loopFrom {body : ℕ → β → Fw ρ (Option β)}
    (hbody : ∀ i b, Footprint P S (body i b)) (n : ℕ) :
    ∀ i b, Footprint P S (StProg.loopFrom body i n b) := by
  induction n with
  | zero => exact fun i b => footprint_pure _
  | succ n ih =>
      intro i b
      apply footprint_bind (hbody i b)
      intro r
      cases r with
      | none => exact footprint_pure _
      | some b' => exact ih (i + 1) b'

theorem footprint_loop {n : ℕ} {body : ℕ → β → Fw ρ (Option β)} {b : β}
    (hbody : ∀ i b, Footprint P S (body i b)) : Footprint P S (StProg.loop n body b) :=
  footprint_loopFrom hbody n 0 b

/-! ### The calls of the chip -/

/-- The slot that a call changes is one of `S`. -/
def Op.within (S : ℕ → Prop) : Op → Prop
  | .rmemWrite slot _ => S slot
  | .rmemErase slot => S slot
  | _ => True

theorem away_setR {slot : ℕ} (h : S slot) (w : World) (c : RSlot) : Away S w (w.setR slot c) := by
  intro s hs
  have hne : s ≠ slot := by
    intro heq
    exact hs (heq ▸ h)
  exact Function.update_of_ne hne _ _

theorem away_exec {o : Op} (ho : o.within S) (w : World) : Away S w (exec P o w).2 := by
  cases o with
  | rmemWrite slot data =>
      rw [exec]
      split
      · exact Away.refl S w
      · exact away_setR ho w _
  | rmemErase slot => exact away_setR ho w _
  | _ => exact Away.refl S w

theorem away_tear {o : Op} (ho : o.within S) (left : RSlot) (w : World) :
    Away S w (tear left o w) := by
  cases o with
  | rmemWrite slot data => exact away_setR ho w left
  | rmemErase slot => exact away_setR ho w left
  | _ => exact Away.refl S w

theorem away_act {o : Op} (ho : o.within S) (f : Fate) (w : World) :
    Away S w (act P f o w).2 := by
  have hnote : Away S w (w.note o) := Away.refl S w
  cases o with
  | hmac key msg => exact hnote
  | _ =>
    cases f with
    | none => exact hnote.trans (away_exec (P := P) ho _)
    | lost => exact hnote.trans (away_exec (P := P) ho _)
    | cutAfter => exact hnote.trans (away_exec (P := P) ho _)
    | torn left acked => exact hnote.trans (away_tear ho left _)
    | cutTorn left => exact hnote.trans (away_tear ho left _)
    | _ => exact hnote

theorem footprint_perform {o : Op} (ho : o.within S) :
    Footprint P S (StProg.perform o : Fw ρ (Ret o)) := by
  intro A u w
  rw [swp_perform]
  intro f _
  have h : Away S w ((chip P).act f o w).2 := away_act ho f w
  generalize (chip P).act f o w = x at h ⊢
  rcases x with ⟨_ | r, w'⟩
  · exact h
  · exact h

theorem footprint_hmac {key msg : Bytes} : Footprint P S (hmacSha256 key msg : Fw ρ Bytes) :=
  footprint_perform (o := .hmac key msg) trivial

theorem footprint_random {len : ℕ} : Footprint P S (tropicRandom len : Fw ρ (Reply Bytes)) :=
  footprint_perform (o := .random len) trivial

theorem footprint_rmemRead {slot max : ℕ} :
    Footprint P S (tropicRmemRead slot max : Fw ρ (Reply Bytes)) :=
  footprint_perform (o := .rmemRead slot max) trivial

theorem footprint_rmemErase {slot : ℕ} (h : S slot) :
    Footprint P S (tropicRmemErase slot : Fw ρ (Reply Unit)) :=
  footprint_perform (o := .rmemErase slot) h

theorem footprint_rmemWrite {slot : ℕ} {data : Bytes} (h : S slot) :
    Footprint P S (tropicRmemWrite slot data : Fw ρ (Reply Unit)) :=
  footprint_perform (o := .rmemWrite slot data) h

theorem footprint_macAndDestroy {site : MdSite} {slot : ℕ} {data : Bytes} :
    Footprint P S (tropicMacAndDestroy site slot data : Fw ρ (Reply Bytes)) :=
  footprint_perform (o := .macAndDestroy site slot data) trivial

end Footprint

/-! ### The calls of a pair -/

section Pair

variable {P : Prims} {p : RecPair}

theorem footprint_commitCopy {S : ℕ → Prop} {slot : ℕ} (h : S slot) (r : Bytes) :
    Footprint P S (commitCopy slot r) := by
  apply footprint_bind (footprint_rmemErase h)
  rintro (_ | _)
  · exact footprint_pure _
  · apply footprint_bind (footprint_rmemWrite h)
    rintro (_ | _)
    · exact footprint_pure _
    · apply footprint_bind footprint_rmemRead
      rintro (_ | _) <;> exact footprint_pure _

theorem footprint_eraseChecked {S : ℕ → Prop} {slot : ℕ} (h : S slot) :
    Footprint P S (eraseChecked slot) := by
  apply footprint_bind (footprint_rmemErase h)
  rintro (_ | _)
  · exact footprint_pure _
  · apply footprint_bind footprint_rmemRead
    rintro ((_ | _) | _) <;> exact footprint_pure _

theorem footprint_readCopy {slot : ℕ} : Footprint P p.owns (readCopy P p slot) := by
  apply footprint_bind footprint_rmemRead
  rintro ((_ | _) | buf)
  · exact footprint_pure _
  · exact footprint_pure _
  · apply footprint_ite (footprint_pure _)
    exact footprint_ite (footprint_pure _) (footprint_pure _)

theorem footprint_markUncertain {α : Type} (a : α) :
    Footprint P p.owns (do markUncertain; pure a : PairM α) :=
  footprint_bind (footprint_set _) fun _ => footprint_pure _

theorem choose_repair_owned {a b : Copy} {r : Bytes} {slot : ℕ}
    (h : choose p a b = .win r (some slot)) : p.owns slot := by
  have hslots : ∀ c r, c = Choice.win r (some slot) →
      c = .win r (some p.slotA) ∨ c = .win r (some p.slotB) → p.owns slot := by
    rintro _ r rfl (h | h)
    · exact .inl (by simpa using h)
    · exact .inr (by simpa using h)
  cases a with
  | valid a =>
      cases b with
      | valid b =>
          rw [choose] at h
          split at h
          · split at h <;> simp at h
          · split at h
            · exact .inr (by simpa using (Choice.win.inj h).2.symm)
            · split at h
              · exact .inl (by simpa using (Choice.win.inj h).2.symm)
              · simp at h
      | _ => exact .inr (by simpa using (Choice.win.inj h).2.symm)
  | _ =>
      cases b with
      | valid b => exact .inl (by simpa using (Choice.win.inj h).2.symm)
      | _ => simp [choose] at h

theorem footprint_recPairRead {max : Option ℕ} : Footprint P p.owns (recPairRead P p max) := by
  apply footprint_bind footprint_get
  intro u
  apply footprint_ite (footprint_pure _)
  apply footprint_bind footprint_readCopy
  intro a
  apply footprint_ite (footprint_pure _)
  apply footprint_bind footprint_readCopy
  intro b
  apply footprint_ite (footprint_pure _)
  cases hc : choose p a b with
  | win r repair =>
      apply footprint_ite (footprint_pure _)
      cases repair with
      | none => exact footprint_pure _
      | some slot =>
          apply footprint_bind (footprint_commitCopy (choose_repair_owned hc) r)
          intro ok
          exact footprint_ite (footprint_pure _) (footprint_markUncertain _)
  | _ => exact footprint_pure _

theorem footprint_commitBoth {gen : ℕ} {payload : Bytes} :
    Footprint P p.owns (commitBoth P p gen payload) := by
  apply footprint_bind (footprint_commitCopy (.inl rfl) _)
  intro ok
  apply footprint_ite _ (footprint_markUncertain _)
  apply footprint_bind (footprint_commitCopy (.inr rfl) _)
  intro ok
  exact footprint_ite (footprint_pure _) (footprint_markUncertain _)

theorem footprint_recPairWrite {payload : Bytes} :
    Footprint P p.owns (recPairWrite P p payload) := by
  apply footprint_ite (footprint_pure _)
  apply footprint_bind footprint_recPairRead
  intro st
  cases st with
  | ok _ gen => exact footprint_ite (footprint_pure _) footprint_commitBoth
  | _ => exact footprint_pure _

theorem footprint_recPairClear : Footprint P p.owns (recPairClear p) := by
  apply footprint_bind footprint_get
  intro u
  apply footprint_ite (footprint_pure _)
  apply footprint_bind (footprint_eraseChecked (.inr rfl))
  intro ok
  apply footprint_ite _ (footprint_markUncertain _)
  apply footprint_bind (footprint_eraseChecked (.inl rfl))
  intro ok
  exact footprint_ite (footprint_pure _) (footprint_markUncertain _)

theorem footprint_recPairInit {payload : Bytes} :
    Footprint P p.owns (recPairInit P p payload) := by
  apply footprint_ite (footprint_pure _)
  apply footprint_bind footprint_recPairClear
  intro st
  cases st with
  | ok => exact footprint_commitBoth
  | _ => exact footprint_pure _

end Pair

/-! ### The calls of the PIN kernel -/

section Kernel

variable {P : Prims} {L : Layout}

theorem footprint_kdf {S : ℕ → Prop} {s : Bytes} {label : UInt8} :
    Footprint P S (kdf s label) := footprint_hmac

theorem footprint_slotXor {S : ℕ → Prop} {w mat a : Bytes} : Footprint P S (slotXor w mat a) :=
  footprint_bind footprint_hmac fun _ => footprint_pure _

theorem footprint_load : Footprint P L.record.owns (load P L) := by
  apply footprint_bind footprint_recPairRead
  intro st
  cases st with
  | ok buf gen =>
      dsimp only
      split
      · exact footprint_pure _
      · exact footprint_pure _
  | _ => exact footprint_pure _

theorem footprint_store {b : Binding} {first : Bool} :
    Footprint P L.record.owns (store P L b first) := by
  apply footprint_ite
  · exact footprint_bind footprint_recPairInit fun _ => footprint_pure _
  · exact footprint_bind footprint_recPairWrite fun _ => footprint_pure _

theorem footprint_retire {range : ℕ} : Footprint P L.record.owns (retire L range) := by
  apply footprint_bind
  · apply footprint_loop
    intro i _
    apply footprint_bind footprint_random
    rintro (_ | rnd)
    · exact footprint_pure _
    · apply footprint_bind footprint_macAndDestroy
      rintro (_ | _) <;> exact footprint_pure _
  · exact fun _ => footprint_pure _

theorem footprint_settle : Footprint P L.record.owns (settle P L) := by
  apply footprint_bind footprint_load
  intro st
  cases st with
  | ok b =>
      apply footprint_ite _ (footprint_pure _)
      apply footprint_bind footprint_retire
      intro ok
      apply footprint_ite _ (footprint_pure _)
      apply footprint_bind footprint_store
      intro ok
      exact footprint_ite (footprint_pure _) (footprint_pure _)
  | _ => exact footprint_pure _

theorem footprint_armSlot {S : ℕ → Prop} {slot : ℕ} {u v : Bytes} :
    Footprint P S (armSlot slot u v) := by
  apply footprint_bind footprint_macAndDestroy
  rintro (_ | _)
  · exact footprint_pure _
  · apply footprint_bind footprint_macAndDestroy
    rintro (_ | _)
    · exact footprint_pure _
    · apply footprint_bind footprint_macAndDestroy
      rintro (_ | _) <;> exact footprint_pure _

theorem footprint_armRange {S : ℕ → Prop} {range : ℕ} {mat s u v : Bytes} :
    Footprint P S (armRange L range mat s u v) := by
  apply footprint_loop
  intro i ci
  apply footprint_bind footprint_armSlot
  rintro (_ | w)
  · exact footprint_pure _
  · exact footprint_bind footprint_slotXor fun _ => footprint_pure _

theorem footprint_install {cur : Option Binding} {mat : Bytes} {pinLen : UInt8} {s : Bytes} :
    Footprint P L.record.owns (install P L cur mat pinLen s) := by
  apply footprint_ite (footprint_pure _)
  apply footprint_bind footprint_kdf
  intro tag
  apply footprint_bind footprint_kdf
  intro u
  apply footprint_bind footprint_hmac
  intro v
  apply footprint_bind footprint_armRange
  rintro (_ | ci)
  · exact footprint_pure _
  · apply footprint_bind footprint_store
    intro ok
    apply footprint_ite _ (footprint_pure _)
    cases cur with
    | none => exact footprint_pure _
    | some b =>
        apply footprint_bind footprint_retire
        intro ok
        exact footprint_ite footprint_store (footprint_pure _)

theorem footprint_setupS {mat : Bytes} {pinLen : UInt8} {s : Bytes} :
    Footprint P L.record.owns (setupS P L mat pinLen s) := by
  apply footprint_bind footprint_settle
  intro st
  cases st with
  | error => exact footprint_pure _
  | _ => exact footprint_install

theorem footprint_restore {S : ℕ → Prop} {range : ℕ} {u : Bytes} :
    Footprint P S (restore L range u) := by
  apply footprint_bind
  · apply footprint_loop
    intro i _
    apply footprint_bind footprint_macAndDestroy
    rintro (_ | _) <;> exact footprint_pure _
  · exact fun _ => footprint_pure _

theorem footprint_judge {b : Binding} {mat w : Bytes} :
    Footprint P L.record.owns (judge P L b mat w) := by
  apply footprint_bind footprint_slotXor
  intro s
  apply footprint_bind footprint_kdf
  intro t
  apply footprint_ite (footprint_pure _)
  apply footprint_bind footprint_kdf
  intro u
  apply footprint_bind footprint_restore
  intro ok
  apply footprint_ite _ (footprint_pure _)
  apply footprint_bind footprint_store
  intro ok
  exact footprint_ite (footprint_pure _) (footprint_pure _)

theorem footprint_attempt {b : Binding} {mat : Bytes} :
    Footprint P L.record.owns (attempt P L b mat) := by
  apply footprint_ite (footprint_pure _)
  apply footprint_bind footprint_store
  intro ok
  apply footprint_ite _ (footprint_pure _)
  apply footprint_bind footprint_hmac
  intro v
  apply footprint_bind footprint_macAndDestroy
  rintro (_ | w)
  · exact footprint_pure _
  · exact footprint_judge

theorem footprint_verifyS {mat : Bytes} : Footprint P L.record.owns (verifyS P L mat) := by
  apply footprint_bind footprint_settle
  intro st
  cases st with
  | ok b => exact footprint_attempt
  | _ => exact footprint_pure _

theorem footprint_kOut {S : ℕ → Prop} {α : Type} {s : Bytes} {f : Bytes → α} :
    Footprint P S (do let k ← kOut s; pure (f k) : PairM α) :=
  footprint_bind footprint_kdf fun _ => footprint_pure _

theorem footprint_pinMdKernelStatus : Footprint P L.record.owns (pinMdKernelStatus P L) := by
  apply footprint_ite (footprint_pure _)
  apply footprint_bind footprint_settle
  intro st
  cases st <;> exact footprint_pure _

theorem footprint_pinMdKernelSetup {mat : Bytes} {pinLen : UInt8} :
    Footprint P L.record.owns (pinMdKernelSetup P L mat pinLen) := by
  apply footprint_ite (footprint_pure _)
  apply footprint_bind footprint_random
  rintro (_ | s)
  · exact footprint_pure _
  · apply footprint_bind footprint_setupS
    intro ok
    exact footprint_ite footprint_kOut (footprint_pure _)

theorem footprint_pinMdKernelVerify {mat : Bytes} :
    Footprint P L.record.owns (pinMdKernelVerify P L mat) := by
  apply footprint_ite (footprint_pure _)
  apply footprint_bind footprint_verifyS
  intro r
  cases r with
  | right s => exact footprint_kOut
  | _ => exact footprint_pure _

theorem footprint_pinMdKernelChange {oldMat newMat : Bytes} {newPinLen : UInt8} :
    Footprint P L.record.owns (pinMdKernelChange P L oldMat newMat newPinLen) := by
  apply footprint_ite (footprint_pure _)
  apply footprint_bind footprint_verifyS
  intro r
  cases r with
  | right s =>
      apply footprint_bind footprint_setupS
      intro ok
      exact footprint_ite footprint_kOut (footprint_pure _)
  | _ => exact footprint_pure _

theorem footprint_pinMdKernelClear : Footprint P L.record.owns (pinMdKernelClear L) := by
  apply footprint_ite (footprint_pure _)
  apply footprint_bind
  · apply footprint_bind
    · apply footprint_loop
      intro r _
      apply footprint_bind footprint_retire
      intro ok
      exact footprint_ite (footprint_pure _) (footprint_pure _)
    · exact fun _ => footprint_pure _
  · intro ok
    apply footprint_ite _ (footprint_pure _)
    apply footprint_bind footprint_recPairClear
    intro st
    cases st <;> exact footprint_pure _

end Kernel

end Nixtropic
