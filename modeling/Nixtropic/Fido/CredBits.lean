import Nixtropic.Fido.CredResolve

/-!
Every bit of O1 stands for an entry.

An allocation writes the entry before the bit, a deletion takes the bit away
before the entry, and the scrub at power-up only takes bits away. So no
interruption of either leaves a bit without an entry, and what the bitmap lists
can be read and is found by its own id.
-/

namespace Nixtropic.Fido

open Crash Runs

/-- Every bit of the current O1 stands for an entry that reads. -/
def Backed (F : FidoPrims) (b : Board Note) : Prop :=
  ∀ g, GlobalAt F b.chip.rmem g → ∀ i < fidoSlotsMax, g.bitmap.getLsbD i = true →
    ∃ m, credAt b.chip.rmem i = .ok m

/-- The calls that start the store anew. -/
def StoreCall.clears : StoreCall → Prop
  | .initFresh => True
  | .wipeMeta => True
  | _ => False

section Backed

variable {F : FidoPrims} {A : BoardFate → Prop} {u : FidoRam} {b : Board Note}

/-- O1 changed, and its bits have entries. -/
theorem backed_beside {w : World} {g : Global} (hb : Beside o1 b.chip w)
    (hat : GlobalAt F w.rmem g)
    (hg : ∀ i < fidoSlotsMax, g.bitmap.getLsbD i = true → ∃ m, credAt b.chip.rmem i = .ok m) :
    Backed F (b.setChip w) := by
  intro g' hg' i hi hbit
  obtain rfl := hat.unique hg'
  obtain ⟨m, hm⟩ := hg i hi hbit
  exact ⟨m, (credAt_beside hb hi).trans hm⟩

/-- The entry of a slot changed that has no bit. -/
theorem Backed.entry (h : Backed F b) {w : World} {slot : ℕ} (hslot : slot < fidoSlotsMax)
    (hw : Away (· = rmemSlotFor slot) b.chip w)
    (hclear : ∀ g, GlobalAt F b.chip.rmem g → g.bitmap.getLsbD slot = false) :
    Backed F (b.setChip w) := by
  intro g hg i hi hbit
  have hback : Away (· = rmemSlotFor slot) w b.chip := fun s hs => (hw s hs).symm
  have hold : GlobalAt F b.chip.rmem g := by
    apply hg.away hback
    rintro _ rfl
    exact o1_not_meta ⟨slot, hslot, rfl⟩
  by_cases hne : i = slot
  · subst hne
    rw [hclear g hold] at hbit
    cases hbit
  · obtain ⟨m, hm⟩ := h g hold i hi hbit
    refine ⟨m, (credAt_away hw ?_).trans hm⟩
    simp only [rmemSlotFor]
    omega

theorem Backed.same (h : Backed F b) {w : World} (hw : SameMem b.chip w) :
    Backed F (b.setChip w) := by
  intro g hg i hi hbit
  rw [Board.setChip_chip, hw.rmem] at hg ⊢
  exact h g hg i hi hbit

/-- The bitmap in RAM is that of O1. -/
theorem clear_of_ram (hs : Synced F u b) (hu : u.slotsUsable = true) {slot : ℕ}
    (hbit : u.slots.bitmap.getLsbD slot = false) :
    ∀ g, GlobalAt F b.chip.rmem g → g.bitmap.getLsbD slot = false := by
  intro g hg
  obtain rfl := hg.unique (hs hu)
  exact hbit

theorem swp_writeGlobal_backed (hA : ∀ f, A f → Honest F f) {g : Global} (hs : Synced F u b)
    (h : Backed F b)
    (hg : u.slotsUsable = true → ∀ i < fidoSlotsMax, g.bitmap.getLsbD i = true →
      ∃ m, credAt b.chip.rmem i = .ok m) :
    swp (fidoBoard F) A (writeGlobal F g)
      (fun ok _ b' => Backed F b' ∧ (ok = true → GlobalAt F b'.chip.rmem g)) (Backed F) u b := by
  cases hu : u.slotsUsable with
  | false =>
      rw [writeGlobal, swp_bind, swp_get, hu]
      exact ⟨h, fun hf => by cases hf⟩
  | true =>
      have hold : ∀ w, GlobalAt F w.rmem u.global → Beside o1 b.chip w →
          Backed F (b.setChip w) := fun w hat hb => backed_beside hb hat (h _ (hs hu))
      have hnew : ∀ w, GlobalAt F w.rmem g → Beside o1 b.chip w → Backed F (b.setChip w) :=
        fun w hat hb => backed_beside hb hat (hg hu)
      apply swp_writeGlobal hA (hs hu)
      · exact fun w _ hboth hb => ⟨hnew w hboth.at hb, fun _ => hboth.at⟩
      · exact fun w _ hat hb => ⟨hold w hat hb, fun hf => by cases hf⟩
      · exact fun w hat hb => ⟨hnew w hat hb, fun hf => by cases hf⟩
      · exact fun w hat hb => hat.elim (fun hat => hold w hat hb) fun hat => hnew w hat hb

theorem backed_slotsInit (hA : ∀ f, A f → Honest F f) (h : Backed F b) :
    swp (fidoBoard F) A (slotsInit F) (fun _ _ b' => Backed F b') (Backed F) u b := by
  cases hon : u.slots.initted with
  | true => exact swp_slotsInit_on hon h
  | false =>
      by_cases hat : ∃ g, GlobalAt F b.chip.rmem g
      · obtain ⟨g, hg⟩ := hat
        have hstay : ∀ w g', GlobalAt F w.rmem g' → Scrubbed b.chip.rmem g g' →
            Beside o1 b.chip w → Backed F (b.setChip w) := fun w g' hg' hscrub hb =>
          backed_beside hb hg' fun i hi hbit => h g hg i hi (hscrub.kept i hbit)
        apply swp_slotsInit_at hA hg hon
        · exact fun w g' hg' hscrub _ hb => hstay w g' hg' hscrub hb
        · exact fun w g' _ hg' hscrub hb _ _ => hstay w g' hg' hscrub hb
        · exact hstay
      · have hno : ∀ g, ¬GlobalAt F b.chip.rmem g := fun g hg => hat ⟨g, hg⟩
        apply swp_slotsInit_closed hA hno hon
        · exact fun _ _ w _ hw _ g hg => absurd hg (hw g)
        · exact fun w hw _ g hg => absurd hg (hw g)

theorem backed_alloc (hA : ∀ f, A f → SoundFate F f) {q : NewCred} (hs : Synced F u b)
    (h : Backed F b) :
    swp (fidoBoard F) A (q.alloc F) (fun _ _ b' => Backed F b') (Backed F) u b := by
  cases hu : u.slotsUsable with
  | false =>
      rw [NewCred.alloc, slotsAlloc, swp_bind, swp_get, if_pos hu]
      exact h
  | true =>
      have hother : ∀ {slot c w}, firstFree u.slots.bitmap = some slot →
          Rewrites (rmemSlotFor slot) c b.chip w → Backed F (b.setChip w) := fun hfree hw =>
        h.entry (firstFree_lt hfree) hw.away (clear_of_ram hs hu (firstFree_free hfree))
      apply swp_alloc hA board_leaves_any
      · exact fun _ _ => h
      · exact fun slot r c w hfree _ _ _ hw => hother hfree hw
      · exact fun slot c w hfree _ _ hw => hother hfree hw
      · intro slot w _ hfree hst hw
        have hlt := firstFree_lt hfree
        have hs' : Synced F u ((b.setChip w).jot (.publish slot q.created)) := by
          apply hs.congr rfl
          apply Away.mono hw.away
          rintro _ rfl
          exact o1_not_meta ⟨slot, hlt, rfl⟩
        have h' : Backed F ((b.setChip w).jot (.publish slot q.created)) := hother hfree hw
        rw [publishes, swp_bind]
        apply swp_mono (swp_writeGlobal_backed (fun f hf => (hA f hf).1) hs' h' _) _ fun _ hb => hb
        · intro _ i hi hbit
          by_cases hne : i = slot
          · -- the entry was written before
            subst hne
            refine ⟨q.entry (b.chip.draw 16), ?_⟩
            show credAt w.rmem i = _
            rw [credAt_eq, hw.self]
            exact entryOf_bytes hst
          · have hold : u.slots.bitmap.getLsbD i = true := by
              have hne' : slot ≠ i := Ne.symm hne
              change (publishedBitmap u.slots.bitmap q.replaceMask slot).getLsbD i = true at hbit
              rw [publishedBitmap, BitVec.getLsbD_and, Bool.and_eq_true, BitVec.getLsbD_or,
                Bool.or_eq_true, BitVec.getLsbD_twoPow] at hbit
              rcases hbit.1 with hold | hnew
              · exact hold
              · simp [hne'] at hnew
            exact h' u.global (hs' hu) i hi hold
        · rintro (_ | _) u' b' hb <;> exact hb.1

theorem backed_erase (hA : ∀ f, A f → Honest F f) {slot : ℕ} (hs : Synced F u b)
    (h : Backed F b) :
    swp (fidoBoard F) A (slotsErase F slot) (fun _ _ b' => Backed F b') (Backed F) u b := by
  rw [slotsErase, swp_bind, swp_get]
  split
  · exact h
  rename_i hno
  simp only [not_or, Nat.not_le, Bool.not_eq_false] at hno
  obtain ⟨hslot, hu⟩ := hno
  have rest : ∀ (ok : Bool) u b, Backed F b →
      (ok = true → ∀ g, GlobalAt F b.chip.rmem g → g.bitmap.getLsbD slot = false) →
      swp (fidoBoard F) A (erasesRecord slot ok) (fun _ _ b' => Backed F b') (Backed F) u b := by
    intro ok u b h hclear
    cases ok with
    | false => exact h
    | true =>
        have hset : ∀ c, Backed F (b.setChip
            ((b.chip.note (.rmemErase (rmemSlotFor slot))).setR (rmemSlotFor slot) c)) := by
          intro c
          apply h.entry hslot _ (hclear rfl)
          intro s hs
          exact Function.update_of_ne hs ..
        rw [erasesRecord, if_pos rfl, swp_bind]
        apply swp_onChip
        apply swp_rmemErase leaves_any
        · exact hset _
        · rintro _ (_ | _) c _ <;> exact hset c
        · exact fun _ c _ => hset c
  have hbits : ∀ i, (u.slots.bitmap &&& ~~~BitVec.twoPow 32 slot).getLsbD i = true →
      u.slots.bitmap.getLsbD i = true := by
    intro i hbit
    rw [BitVec.getLsbD_and, Bool.and_eq_true] at hbit
    exact hbit.1
  have hbit : (u.slots.bitmap &&& ~~~BitVec.twoPow 32 slot).getLsbD slot = false := by
    simp [BitVec.getLsbD_and, BitVec.getLsbD_not, BitVec.getLsbD_twoPow]
  dsimp only
  split
  · rename_i hsame
    exact rest true u b h fun _ => clear_of_ram hs hu (hsame ▸ hbit)
  · rw [swp_bind]
    apply swp_mono (swp_writeGlobal_backed hA hs h _) _ fun _ hb => hb
    · exact fun _ i hi hb => h u.global (hs hu) i hi (hbits i hb)
    · intro ok u' b' hb
      apply rest ok u' b' hb.1
      intro hok g hg
      obtain rfl := hg.unique (hb.2 hok)
      exact hbit

theorem backed_readCred (slot : ℕ) :
    Keeps (fidoBoard F) A (fun _ b => Backed F b) (Backed F) (readCred slot) := by
  intro u b h
  apply swp_readCred
  · exact fun w hw => h.same hw
  · exact fun _ w hw => h.same hw
  · exact fun _ w hw => h.same hw

/-- Every call but those that start anew. -/
theorem backed_guards (hA : ∀ f, A f → SoundFate F f) :
    Safeguards F A (fun _ => True) (Backed F) (fun c => ¬c.clears) where
  init _ _ h := backed_slotsInit (fun f hf => (hA f hf).1) h
  initFresh hc := absurd trivial hc
  wipeMeta hc := absurd trivial hc
  alloc _ _ _ _ hs _ h := backed_alloc hA hs h
  read := backed_readCred
  erase _ _ _ _ hs h := backed_erase (fun f hf => (hA f hf).1) hs h
  flags u b g hs h hg := by
    apply swp_mono (swp_writeGlobal_backed (fun f hf => (hA f hf).1) hs h _)
      (fun _ _ _ hb => hb.1) fun _ hb => hb
    intro hu i hi hbit
    rw [hg] at hbit
    exact h u.global (hs hu) i hi hbit

theorem backed_fresh (hA : ∀ f, A f → Honest F f) :
    swp (fidoBoard F) A (StoreCall.prog F .initFresh)
      (fun r _ b' => r = .done true → Backed F b') (fun _ => True) u b := by
  rw [StoreCall.prog, swp_bind]
  apply swp_slotsInitFresh hA
  · exact fun w hboth hb _ => backed_beside hb hboth.at fun i _ hbit => by
      simp [Global.fresh] at hbit
  · exact fun _ _ _ _ _ h => by cases h
  · exact fun _ _ => trivial

end Backed

theorem outlasts_backed (F : FidoPrims) :
    Outlasts (fun u b => Tracked F u b ∧ Backed F b) (Backed F) where
  boot b h := ⟨(outlasts_tracked F).boot b trivial, h⟩
  beside u u' b b' h := by
    refine ⟨(outlasts_tracked F).beside u u' b b' h.1, ?_⟩
    intro g hg i hi hbit
    have hback : Away (fun slot => ¬storeSlot slot) (elsewhere b b').chip b.chip :=
      fun s hs => (away_elsewhere b b' s hs).symm
    obtain ⟨m, hm⟩ := h.2 g (hg.away hback fun _ => not_o1_elsewhere) i hi hbit
    exact ⟨m, (credAt_elsewhere b b' hi).trans hm⟩
  lose _ _ h := h.2

section Listed

variable {F : FidoPrims} {b : Board Note} {d : Device} {c : StoreCall} {fs : List BoardFate}

theorem backed_kept {acts : List StoreAction} (hacts : ∀ a ∈ acts, a.Within (SoundFate F))
    (hno : ∀ c fs, StoreAction.call c fs ∈ acts → ¬c.clears)
    (h : d.Meets (fun u b => Tracked F u b ∧ Backed F b) (Backed F)) :
    ((slotStore F b).runFrom d acts).Meets (fun u b => Tracked F u b ∧ Backed F b) (Backed F) := by
  apply slotStore_keeps (soundFate_quiet F) (outlasts_backed F) hacts _ h
  intro c fs hc u b ⟨ht, hb⟩
  have hb' := (backed_guards fun _ hf => hf).call (hno c fs hc) ht.1 trivial hb
  exact swp_mono (swp_and (tracked_call (fun f hf => hf.1) c u b ht) hb') (fun _ _ _ h => h)
    fun _ h => h.2

/-- The answer of a call is the result of its function. -/
theorem reply_of_run {α : Type} {m : FidoM α} {k : α → StoreReply} {a : α} {u u' : FidoRam}
    {b' : Board Note} (hc : c.prog F = m >>= fun a => pure (k a)) (hu : d.ram = some u)
    (hrun : run (fidoBoard F) (m.run u) fs d.board = .done (a, u') b') :
    d.reply F c fs = some (k a) := by
  obtain ⟨n, hn⟩ := run_stBind_done hrun
  rw [Device.reply, Device.calls, hu, Option.map_some, hc, hn]
  rfl

/-- A listed slot reads, for `slots_read_meta` too. -/
theorem readMeta_calm {u : FidoRam} {i : ℕ} {m : SlotMeta} (hu : d.ram = some u)
    (hfits : u.Fits) (hbit : u.bitmap.getLsbD i = true)
    (hm : credAt d.board.chip.rmem i = .ok m) (hfs : ∀ f ∈ fs, CalmBoard f) :
    d.reply F (.readMeta i) fs = some (.readMeta (.ok m)) := by
  obtain ⟨u', b', hread⟩ := readsEntry_calm (F := F) (u := u) hm hfs
  obtain ⟨n, hn⟩ := run_stBind_done hread
  obtain ⟨hon, hslot, hlt⟩ := listed_slot hfits hbit
  have hrun : run (fidoBoard F) ((slotsReadMeta i).run u) fs d.board = .done (.ok m, u') b' := by
    rw [slotsReadMeta, StateT.run_bind, StateT.run_get, Prog.pure_def, Prog.pure_bind']
    dsimp only
    rw [if_neg (by simp [hon]), if_neg (by simp [hslot, hlt]), hn]
    rfl
  exact reply_of_run rfl hu hrun

end Listed

/-- A bit never stands without its entry. After a fresh start, whatever calls,
errors, torn changes and power cuts follow until the next one, every bit of O1
has an entry that reads; and while the store is open, every slot it lists
answers with its entry, and is found by the id made of it. -/
theorem listed_credentials_read (F : FidoPrims) (b : Board Note) (acts : List StoreAction)
    (fs : List BoardFate) (acts' : List StoreAction)
    (hacts : ∀ a ∈ acts ++ .call .initFresh fs :: acts', a.Within (SoundFate F))
    (hfresh : ((slotStore F b).run acts).reply F .initFresh fs = some (.done true))
    (hno : ∀ c fs', StoreAction.call c fs' ∈ acts' → ¬c.clears) :
    Backed F ((slotStore F b).run (acts ++ .call .initFresh fs :: acts')).board ∧
    ∀ u, ((slotStore F b).run (acts ++ .call .initFresh fs :: acts')).ram = some u →
      ∀ i, u.bitmap.getLsbD i = true → ∃ m, ∀ fs', (∀ f ∈ fs', CalmBoard f) →
        ((slotStore F b).run (acts ++ .call .initFresh fs :: acts')).reply F (.readMeta i) fs' =
          some (.readMeta (.ok m)) ∧
        ((slotStore F b).run (acts ++ .call .initFresh fs :: acts')).reply F
          (.lookup (makeCredId i m.nonce)) fs' = some (.lookup (some (i, m))) := by
  have hquiet := soundFate_quiet F
  have hhonest : ∀ f, SoundFate F f → Honest F f := fun f hf => hf.1
  have hbefore : ∀ a ∈ acts, a.Within (SoundFate F) := fun a ha => hacts a (by simp [ha])
  have hcall : ∀ f ∈ fs, SoundFate F f := hacts (.call .initFresh fs) (by simp)
  have hafter : ∀ a ∈ acts', a.Within (SoundFate F) := fun a ha => hacts a (by simp [ha])
  have hstart : ((slotStore F b).run acts).Meets (Tracked F) fun _ => True :=
    slotStore_keeps hquiet (outlasts_tracked F) hbefore (fun c _ _ => tracked_call hhonest c)
      trivial
  have happend : (slotStore F b).run (acts ++ .call .initFresh fs :: acts') =
      (slotStore F b).runFrom (storeStep F ((slotStore F b).run acts) (.call .initFresh fs))
        acts' := System.run_append (slotStore F b) acts (.call .initFresh fs :: acts')
  obtain ⟨u₁, b₁, hstep, h₁⟩ := answered hquiet hcall hstart hfresh fun u b h =>
    swp_and (tracked_call hhonest .initFresh u b h) (backed_fresh hhonest)
  have hlast := backed_kept (b := b) hafter hno
    (d := storeStep F ((slotStore F b).run acts) (.call .initFresh fs)) (by
      rw [hstep]
      exact ⟨h₁.1, h₁.2 rfl⟩)
  rw [happend]
  generalize (slotStore F b).runFrom _ acts' = d at hlast ⊢
  refine ⟨?_, fun u hu i hbit => ?_⟩
  · cases hu : d.ram with
    | none =>
        rw [Device.Meets, hu] at hlast
        exact hlast
    | some u => exact (meets_of_ram hlast hu).2
  · obtain ⟨⟨hs, hfits⟩, hb⟩ := meets_of_ram hlast hu
    obtain ⟨hon, hslot, hi⟩ := listed_slot hfits hbit
    obtain ⟨m, hm⟩ := hb u.global (hs hon) i hi hslot
    refine ⟨m, fun fs' hcalm => ⟨readMeta_calm hu hfits hbit hm hcalm, ?_⟩⟩
    rw [reply_lookup hu, lookup_iff hfits]
    exact ⟨hbit, readsEntry_calm hm hcalm, rfl⟩

theorem listed_credentials_read_demo : ∃ m,
    ((slotStore mixFido onesFirst).run
      ([.powerUp] ++ .call .initFresh [] :: [.call (.alloc someCred) []])).reply mixFido
        (.readMeta 0) [] = some (.readMeta (.ok m)) := by
  have hram : ((slotStore mixFido onesFirst).run ([.powerUp] ++ .call .initFresh [] ::
      [.call (.alloc someCred) []])).ram.map (fun u => u.bitmap.getLsbD 0) = some true := by
    decide +kernel
  obtain ⟨u, hu, hbit⟩ := Option.map_eq_some_iff.mp hram
  obtain ⟨-, hlisted⟩ := listed_credentials_read mixFido onesFirst [.powerUp] []
    [.call (.alloc someCred) []] (by simp [StoreAction.Within]) (by decide +kernel)
    (by simp [StoreCall.clears])
  obtain ⟨m, hm⟩ := hlisted u hu 0 hbit
  exact ⟨m, (hm [] (by simp)).1⟩

end Nixtropic.Fido
