import Nixtropic.Fido.Shelf
import Nixtropic.Fido.Synced

/-!
Management tokens that are bound to one RP.

The rule is enforced in each sub-command. The two that carry no token rely on
the iterator: an enumeration of RPs is only opened by a token that is bound to
none, and one of credentials lists those of an RP that its token may look at.
Every command that could bind the token ends the enumeration.
-/

namespace Nixtropic.Fido

open Crash Runs

/-- The token in use is bound to the RP. -/
def Token.BoundTo (t : Token) (rpHash : Bytes) : Prop := t.rpBound = true ∧ t.rpHash = rpHash

instance (t : Token) (rpHash : Bytes) : Decidable (t.BoundTo rpHash) :=
  inferInstanceAs (Decidable (_ ∧ _))

theorem Token.BoundTo.inUse {t : Token} {rpHash : Bytes} (h : t.BoundTo rpHash) :
    t.inUse = true := by
  have hb := h.1
  simp only [Token.rpBound, Bool.and_eq_true] at hb
  exact hb.1

theorem Token.BoundTo.matches_iff {t : Token} {rpHash other : Bytes} (h : t.BoundTo rpHash) :
    t.rpMatches other = true ↔ other = rpHash := by
  have hb := h.1
  simp only [Token.rpBound, Bool.and_eq_true] at hb
  rw [Token.rpMatches, hb.2, h.2]
  simp [eq_comm]

theorem Token.Goes.boundTo {t t' : Token} (h : t.Goes t') {rpHash : Bytes} :
    t'.BoundTo rpHash ↔ t.BoundTo rpHash := by
  rcases h with rfl | rfl <;> exact Iff.rfl

/-- The answer tells of no credential but those of the RP. -/
def Answer.OnlyOf (s : Shelf) (rpHash : Bytes) : Answer → Prop
  | .status _ => True
  | .credEntry userId credId coseKey total => ∃ slot m, s.read slot = .ok m ∧ m.rpIdHash = rpHash ∧
      credId = makeCredId slot m.nonce ∧ (userId = m.userHandle ∨ userId = credId) ∧
      s.coseKey slot m = some coseKey ∧ total ≤ (s.creds rpHash).length
  | _ => False

/-- What an enumeration may list under the token. -/
structure Confined (s : Shelf) (t : Token) (i : IterState) : Prop where
  rps : i.kind = .rps → t.rpBound = false
  creds : i.kind = .creds → t.inUse = true → t.rpMatches i.credRpHash = true
  slots : i.kind = .creds → ∀ slot ∈ i.credSlots, ∀ m, s.read slot = .ok m →
    m.rpIdHash = i.credRpHash

section Confined

variable {s : Shelf} {t t' : Token} {i : IterState} {rpHash : Bytes}

theorem confined_idle (h : i.kind = .none) : Confined s t i := by
  constructor <;> (intro hk; rw [h] at hk; cases hk)

/-- A token that goes on, or goes. -/
theorem Confined.token (h : Confined s t i) (ht : t'.inUse = true → t.Goes t') :
    Confined s t' i where
  rps hk := by
    cases hin : t'.inUse with
    | false => simp [Token.rpBound, hin]
    | true => rw [(ht hin).rpBound, h.rps hk]
  creds hk hin := by
    have hgoes := ht hin
    have hold : t.inUse = true := by rcases hgoes with rfl | rfl <;> exact hin
    rw [hgoes.rpMatches]
    exact h.creds hk hold
  slots := h.slots

theorem Confined.gen (h : Confined s t i) (gen : ℕ) : Confined s t { i with gen := gen } :=
  ⟨h.rps, h.creds, h.slots⟩

theorem Confined.keptFor (h : Confined s t i) (sub : ℕ) : Confined s t (i.keptFor sub) := by
  have either : ∀ {p : Prop} [Decidable p] {j : IterState}, Confined s t j →
      Confined s t (if p then j.reset else j) := by
    intro p _ j hj
    split
    · exact confined_idle rfl
    · exact hj
  exact either (either h)

theorem Answer.OnlyOf.fitted {a : Answer} (h : a.OnlyOf s rpHash) : a.fitted.OnlyOf s rpHash := by
  rw [Answer.fitted]
  split
  · trivial
  · exact h

theorem onlyOf_credAnswer {slot total : ℕ}
    (hrp : ∀ m, s.read slot = .ok m → m.rpIdHash = rpHash)
    (htotal : total ≤ (s.creds rpHash).length) : (s.credAnswer slot total).OnlyOf s rpHash := by
  rw [Shelf.credAnswer]
  cases hr : s.read slot with
  | ok m =>
      dsimp only
      cases hc : s.coseKey slot m with
      | none => trivial
      | some cose =>
          apply Answer.OnlyOf.fitted
          refine ⟨slot, m, hr, hrp m hr, rfl, ?_, hc, htotal⟩
          split
          · exact .inl rfl
          · exact .inr rfl
  | _ => trivial

end Confined

/-! ### What stays as it is -/

/-- The memories that credentials are kept in are as they were. -/
structure Still (b b' : Board Note) : Prop where
  rmem : b'.chip.rmem = b.chip.rmem
  ecc : b'.ecc = b.ecc

theorem Still.refl (b : Board Note) : Still b b := ⟨rfl, rfl⟩

theorem Still.trans {b₁ b₂ b₃ : Board Note} (h : Still b₁ b₂) (h' : Still b₂ b₃) : Still b₁ b₃ :=
  ⟨h'.rmem.trans h.rmem, h'.ecc.trans h.ecc⟩

theorem SameMem.still {b : Board Note} {w : World} (h : SameMem b.chip w) : Still b (b.setChip w) :=
  ⟨h.rmem, rfl⟩

theorem still_jot (b : Board Note) (n : Note) : Still b (b.jot n) := ⟨rfl, rfl⟩

/-- The store is as it was, on the chip and in RAM. -/
structure Rests (u : FidoRam) (b : Board Note) (u' : FidoRam) (b' : Board Note) : Prop where
  ram : shelfScope.ram u u'
  still : Still b b'

theorem rests_ground (v : FidoRam) (b₀ : Board Note) :
    Ground shelfScope (Rests v b₀) (Still b₀) where
  cut _ _ h := h.still
  chip _ _ _ hw h := ⟨h.ram, ⟨(funext fun slot => hw slot id).trans h.still.rmem, h.still.ecc⟩⟩
  ecc _ _ _ _ hs _ := hs.elim
  keygen _ _ _ _ hs _ := hs.elim
  counter _ _ _ h := ⟨h.ram, h.still.rmem, h.still.ecc⟩
  wait _ _ _ h := ⟨h.ram, h.still.rmem, h.still.ecc⟩
  note _ _ _ _ h := ⟨h.ram, h.still.rmem, h.still.ecc⟩
  ram _ _ _ hu h := ⟨⟨hu.1.trans h.ram.1, hu.2.1.trans h.ram.2.1, hu.2.2.trans h.ram.2.2⟩, h.still⟩

/-- What only reads. -/
def readScope : Scope where
  rmem _ := False
  ecc _ := False
  ram u u' := u' = u
  note _ := True

theorem reads_ground (v : FidoRam) (b₀ : Board Note) :
    Ground readScope (fun u b => u = v ∧ Still b₀ b) (Still b₀) where
  cut _ _ h := h.2
  chip _ _ _ hw h := ⟨h.1, (funext fun slot => hw slot id).trans h.2.rmem, h.2.ecc⟩
  ecc _ _ _ _ hs _ := hs.elim
  keygen _ _ _ _ hs _ := hs.elim
  counter _ _ _ h := ⟨h.1, h.2.rmem, h.2.ecc⟩
  wait _ _ _ h := ⟨h.1, h.2.rmem, h.2.ecc⟩
  note _ _ _ _ h := ⟨h.1, h.2.rmem, h.2.ecc⟩
  ram _ _ _ hu h := ⟨hu.trans h.1, h.2⟩

theorem Rests.refl (u : FidoRam) (b : Board Note) : Rests u b u b := ⟨⟨rfl, rfl, rfl⟩, Still.refl b⟩

section Rests

variable {F : FidoPrims} {s : Shelf} {u u' : FidoRam} {b b' : Board Note}

theorem Rests.trans {u'' : FidoRam} {b'' : Board Note} (h : Rests u b u' b')
    (h' : Rests u' b' u'' b'') : Rests u b u'' b'' :=
  ⟨⟨h'.ram.1.trans h.ram.1, h'.ram.2.1.trans h.ram.2.1, h'.ram.2.2.trans h.ram.2.2⟩,
    h.still.trans h'.still⟩

theorem Rests.shelf (h : Rests u b u' b') : shelf F u' b' = shelf F u b := by
  rw [Fido.shelf, Fido.shelf, FidoRam.bitmap, FidoRam.bitmap, FidoRam.slotsUsable,
    FidoRam.slotsUsable, h.ram.1, h.still.rmem, h.still.ecc]

theorem Rests.ready (h : Rests u b u' b') : u'.ready = u.ready := by
  rw [FidoRam.ready, FidoRam.ready, FidoRam.slotsUsable, FidoRam.slotsUsable, FidoRam.pinUsable,
    FidoRam.pinUsable, h.ram.1, h.ram.2.1, h.ram.2.2]

theorem Serves.rests (hs : Serves F s u b) (h : Rests u b u' b') : Serves F s u' b' :=
  ⟨hs.toShows.congr h.ram.1 h.still.rmem h.still.ecc, h.ready.trans hs.ready⟩

theorem Synced.rests (hs : Synced F u b) (h : Rests u b u' b') : Synced F u' b' :=
  hs.congr h.ram.1 fun _ _ => congrFun h.still.rmem _

theorem rests_setIter (i : IterState) (h : Still b b') : Rests u b (u.setIter i) b' :=
  ⟨⟨rfl, rfl, rfl⟩, h⟩

end Rests

/-! ### The sub-commands -/

/-- What a sub-command leaves that changes no credential. -/
structure Tells (F : FidoPrims) (s : Shelf) (u : FidoRam) (b : Board Note) (a : Answer)
    (u' : FidoRam) (b' : Board Note) : Prop where
  still : Still b b'
  iter : ∃ i, u' = u.setIter i ∧ Confined s u.token i
  only : ∀ rpHash, u.token.BoundTo rpHash → a.OnlyOf s rpHash

section Tells

variable {F : FidoPrims} {A : BoardFate → Prop} {s : Shelf} {u : FidoRam} {b : Board Note}

theorem tells_refusal (h : Confined s u.token u.iter) (st : Status) :
    Tells F s u b (.status st) u b := ⟨Still.refl b, ⟨u.iter, rfl, h⟩, fun _ _ => trivial⟩

theorem tells_doGetCredsMetadata (h : Confined s u.token u.iter) :
    swp (fidoBoard F) A doGetCredsMetadata (Tells F s u b) (Still b) u b := by
  rw [doGetCredsMetadata, swp_bind, swp_get]
  split
  · exact tells_refusal h _
  · rename_i hno
    exact ⟨Still.refl b, ⟨u.iter, rfl, h⟩, fun _ hR => absurd hR.1 hno⟩

theorem tells_doEnumRpsBegin (h : Confined s u.token u.iter) :
    swp (fidoBoard F) A doEnumRpsBegin (Tells F s u b) (Still b) u b := by
  rw [doEnumRpsBegin, swp_bind, swp_get]
  split
  · exact tells_refusal h _
  rename_i hno
  have hnone : u.token.rpBound = false := by simpa using hno
  have hconf : ∀ i : IterState, i.kind = .rps → Confined s u.token i := by
    intro i hk
    refine ⟨fun _ => hnone, ?_, ?_⟩ <;> (intro hk'; rw [hk] at hk'; cases hk')
  rw [swp_bind]
  apply swp_mono (keeps_buildRpList (reads_ground u b).readCred u b ⟨rfl, Still.refl b⟩) _
    fun _ h => h
  rintro slots _ b₁ ⟨rfl, h₁⟩
  rw [swp_bind]
  apply swp_setIter
  split
  · exact ⟨h₁, ⟨_, rfl, hconf _ rfl⟩, fun _ _ => trivial⟩
  rw [swp_bind]
  apply swp_mono (keeps_writeRpEntry (reads_ground _ b).readCred _ _ _ _ ⟨rfl, h₁⟩) _ fun _ h => h
  rintro a _ b₂ ⟨rfl, h₂⟩
  rw [swp_bind]
  apply swp_setIter
  exact ⟨h₂, ⟨_, rfl, hconf _ rfl⟩, fun _ hR => absurd hR.1 hno⟩

theorem tells_doEnumRpsNext (h : Confined s u.token u.iter) :
    swp (fidoBoard F) A doEnumRpsNext (Tells F s u b) (Still b) u b := by
  rw [doEnumRpsNext, swp_bind, swp_get]
  dsimp only
  split
  · exact tells_refusal h _
  rename_i hgo
  have hkind : u.iter.kind = .rps := by
    by_contra hne
    exact hgo (.inl hne)
  rw [swp_bind]
  apply swp_mono (keeps_writeRpEntry (reads_ground u b).readCred _ _ _ _ ⟨rfl, Still.refl b⟩) _
    fun _ h => h
  rintro a _ b₁ ⟨rfl, h₁⟩
  rw [swp_bind]
  apply swp_setIter
  refine ⟨h₁, ⟨_, rfl, h.rps, h.creds, h.slots⟩, fun _ hR => ?_⟩
  exact absurd (hR.1.symm.trans (h.rps hkind)) (by simp)

/-- A list of credentials names those of the RP only. -/
theorem swp_buildCredListForRp (hs : Shows F s u b) {rpHash : Bytes} {C : Board Note → Prop}
    {Q : List ℕ → FidoRam → Board Note → Prop}
    (h : ∀ l w, SameMem b.chip w → List.Sublist l ((s.creds rpHash).map Prod.fst) →
      Q l u (b.setChip w))
    (hcut : ∀ w, SameMem b.chip w → C (b.setChip w)) :
    swp (fidoBoard F) A (buildCredListForRp rpHash) Q C u b := by
  rw [buildCredListForRp, swp_bind, swp_get]
  dsimp only
  rw [swp_bind]
  refine swp_mono (swp_loop
    (fun n acc u' b' => u' = u ∧ (∃ w, SameMem b.chip w ∧ b' = b.setChip w) ∧
      List.Sublist acc ((((List.range n).filterMap s.entry).filter
        fun e => e.2.rpIdHash = rpHash).map Prod.fst))
    (fun _ _ => False) ?_ ⟨rfl, ⟨b.chip, SameMem.refl _, rfl⟩, List.nil_sublist _⟩) ?_ fun _ h => h
  · rintro i acc u' b' - ⟨rfl, ⟨w, hw, rfl⟩, hsub⟩
    -- the list of one slot more starts with the list so far
    have hmore : List.Sublist acc ((((List.range (i + 1)).filterMap s.entry).filter
        fun e => e.2.rpIdHash = rpHash).map Prod.fst) := by
      rw [Shelf.entries_succ, List.filter_append, List.map_append]
      exact hsub.trans (List.sublist_append_left _ _)
    split
    · rw [swp_bind]
      apply swp_slotsReadMeta (hs.setChip hw)
      · intro w' hw'
        cases hr : s.read i with
        | ok m =>
            refine ⟨rfl, ⟨w', hw.trans hw', rfl⟩, ?_⟩
            have he : s.entry i = some (i, m) := Shelf.entry_eq_some.mpr ⟨rfl, hr⟩
            split
            · rename_i hrp
              rw [Shelf.entries_succ, List.filter_append, List.map_append, he]
              simpa [hrp] using hsub
            · exact hmore
        | _ => exact ⟨rfl, ⟨w', hw.trans hw', rfl⟩, hmore⟩
      · exact fun _ w' hw' => ⟨rfl, ⟨w', hw.trans hw', rfl⟩, hmore⟩
      · exact fun _ w' hw' => hcut w' (hw.trans hw')
    · exact ⟨rfl, ⟨w, hw, rfl⟩, hmore⟩
  · rintro (_ | acc) u' b' hinv
    · exact hinv.elim
    · obtain ⟨rfl, ⟨w, hw, rfl⟩, hsub⟩ := hinv
      exact h acc w hw hsub

theorem tells_doEnumCredsBegin (hs : Shows F s u b) (h : Confined s u.token u.iter)
    (rpHash : Except Status Bytes) :
    swp (fidoBoard F) A (doEnumCredsBegin rpHash) (Tells F s u b) (Still b) u b := by
  cases rpHash with
  | error st => exact tells_refusal h st
  | ok rpHash =>
      rw [doEnumCredsBegin, swp_bind, swp_get]
      split
      · rename_i hrp
        rw [swp_bind]
        apply swp_setIter
        rw [swp_bind]
        apply swp_buildCredListForRp (hs.setIter _)
        · intro slots w hw hsub
          have hof : ∀ slot ∈ slots, ∀ m, s.read slot = .ok m → m.rpIdHash = rpHash := by
            intro slot hslot m hm
            obtain ⟨e, he, rfl⟩ := List.mem_map.mp (hsub.subset hslot)
            obtain ⟨hread, hhash⟩ := Shelf.mem_creds.mp he
            rw [hm] at hread
            cases hread
            exact hhash
          have hconf : ∀ i : IterState, i.kind = .creds → i.credRpHash = rpHash →
              i.credSlots = slots → Confined s u.token i := by
            rintro i hk rfl rfl
            refine ⟨fun hk' => ?_, fun _ _ => hrp, fun _ => hof⟩
            rw [hk] at hk'
            cases hk'
          rw [swp_bind]
          apply swp_setIter
          split
          · exact ⟨hw.still, ⟨_, rfl, hconf _ rfl rfl rfl⟩, fun _ _ => trivial⟩
          rename_i hne
          rw [swp_bind]
          have hout : ∀ w', SameMem w w' → ∀ a : Answer,
              (∀ R, u.token.BoundTo R → a.OnlyOf s R) → Tells F s u b a
                (((u.setIter _).setIter _).setIter { u.iter with
                  credRpHash := rpHash, credSlots := slots, credPos := 0 + 1, kind := .creds })
                (b.setChip w') :=
            fun w' hw' a ha => ⟨(hw.trans hw').still, ⟨_, rfl, hconf _ rfl rfl rfl⟩, ha⟩
          apply swp_writeCredEntry ((hs.setChip hw).setIter _ |>.setIter _)
          · intro w' hw'
            rw [swp_bind]
            apply swp_setIter
            apply hout w' hw'
            intro R hR
            obtain rfl := hR.matches_iff.mp hrp
            apply onlyOf_credAnswer
            · intro m hm
              cases slots with
              | nil => exact absurd rfl hne
              | cons slot rest => exact hof slot List.mem_cons_self m hm
            · simpa using hsub.length_le
          · intro _ w' hw'
            rw [swp_bind]
            apply swp_setIter
            exact hout w' hw' _ fun _ _ => trivial
          · exact fun _ w' hw' => (hw.trans hw').still
        · exact fun w hw => hw.still
      · exact tells_refusal h _

theorem tells_doEnumCredsNext (hs : Shows F s u b) (h : Confined s u.token u.iter) :
    swp (fidoBoard F) A doEnumCredsNext (Tells F s u b) (Still b) u b := by
  rw [doEnumCredsNext, swp_bind, swp_get]
  dsimp only
  split
  · exact tells_refusal h _
  rename_i hgo
  have hkind : u.iter.kind = .creds := by
    by_contra hne
    exact hgo (.inl hne)
  have hpos : u.iter.credPos < u.iter.credSlots.length := Nat.lt_of_not_le fun hle => hgo (.inr hle)
  have hconf : Confined s u.token { u.iter with credPos := u.iter.credPos + 1 } :=
    ⟨h.rps, h.creds, h.slots⟩
  rw [swp_bind]
  apply swp_writeCredEntry hs
  · intro w hw
    rw [swp_bind]
    apply swp_setIter
    refine ⟨hw.still, ⟨_, rfl, hconf⟩, fun R hR => ?_⟩
    obtain rfl := hR.matches_iff.mp (h.creds hkind hR.inUse)
    apply onlyOf_credAnswer _ (Nat.zero_le _)
    apply h.slots hkind
    rw [List.getD_eq_getElem _ _ hpos]
    exact List.getElem_mem hpos
  · intro _ w hw
    rw [swp_bind]
    apply swp_setIter
    exact ⟨hw.still, ⟨_, rfl, hconf⟩, fun _ _ => trivial⟩
  · exact fun _ w hw => hw.still

end Tells

end Nixtropic.Fido
