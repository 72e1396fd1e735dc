import Nixtropic.Fido.Enumerations
import Nixtropic.Fido.Fits
import Nixtropic.Lists.Groups

/-!
What the credential management reads, and what it answers from it.

While nothing happens to the calls, an entry of an enumeration is a function of
the bitmap, the metadata and the public keys: the `Shelf`. The rules say so of
every function that an enumeration is made of.
-/

namespace Nixtropic.Fido

open Crash

/-- The allocated slots, the metadata, and the public keys. -/
structure Shelf where
  bitmap : BitVec 32
  cred : ℕ → CredRead
  pub : ℕ → Option Bytes

/-- What `slots_read_meta` and the chip say at this time. -/
def shelf (F : FidoPrims) (u : FidoRam) (b : Board Note) : Shelf where
  bitmap := u.bitmap
  cred := credAt b.chip.rmem
  pub i := (b.ecc i).map F.key.pub

namespace Shelf

variable (s : Shelf)

/-- `slots_read_meta`, with nothing happening to its call. -/
def read (slot : ℕ) : MetaRead :=
  if fidoSlotsMax ≤ slot ∨ s.bitmap.getLsbD slot = false then .invalid
  else
    match s.cred slot with
    | .ok m => .ok m
    | .badMagic => .invalid
    | _ => .chip

/-- A slot with the metadata that it reads as. -/
def entry (slot : ℕ) : Option (ℕ × SlotMeta) :=
  match s.read slot with
  | .ok m => some (slot, m)
  | _ => none

/-- The credentials that can be read, in the order of their slots. -/
def entries : List (ℕ × SlotMeta) := (List.range fidoSlotsMax).filterMap s.entry

/-- The first credential of each RP. -/
def rps : List (ℕ × SlotMeta) := Lists.firsts (fun e => e.2.rpIdHash) s.entries

/-- The credentials of one RP. -/
def creds (rpHash : Bytes) : List (ℕ × SlotMeta) :=
  s.entries.filter fun e => e.2.rpIdHash = rpHash

/-- `credstore_get_pubkey` -/
def pubkey (slot : ℕ) (alg : UInt8) : Option Bytes :=
  match algOfStored alg with
  | none => none
  | some a =>
      if fidoSlotsMax ≤ slot then none
      else (s.pub slot).filter fun pub => pub.length = cosePubLen a

def rpAnswer (slot total : ℕ) : Answer :=
  match s.read slot with
  | .ok m => (Answer.rpEntry m.rpIdHash total).fitted
  | _ => .status .other

/-- The public key of a credential, as it is answered. -/
def coseKey (slot : ℕ) (m : SlotMeta) : Option Bytes :=
  (s.pubkey slot m.alg).bind fun pub => (algOfStored m.alg).bind fun a => coseWritePubkey a pub

def credAnswer (slot total : ℕ) : Answer :=
  match s.read slot with
  | .ok m =>
      match s.coseKey slot m with
      | none => .status .other
      | some cose =>
          (Answer.credEntry (if m.userHandle ≠ [] then m.userHandle else makeCredId slot m.nonce)
            (makeCredId slot m.nonce) cose total).fitted
  | _ => .status .other

/-- `do_enum_rps_begin`, for a token that is bound to no RP. -/
def rpsBegin (i : IterState) : Answer × IterState :=
  let i := { i with rpSlots := s.rps.map Prod.fst, rpPos := 0, kind := .rps }
  if i.rpSlots.length = 0 then (.status .noCredentials, i)
  else (s.rpAnswer (i.rpSlots.headD 0) i.rpSlots.length, { i with rpPos := i.rpPos + 1 })

/-- `do_enum_rps_next` -/
def rpsNext (i : IterState) : Answer × IterState :=
  if i.kind ≠ .rps ∨ i.rpSlots.length ≤ i.rpPos then (.status .notAllowed, i)
  else (s.rpAnswer (i.rpSlots.getD i.rpPos 0) 0, { i with rpPos := i.rpPos + 1 })

/-- `do_enum_creds_begin`, for a token that may look at the RP. -/
def credsBegin (rpHash : Bytes) (i : IterState) : Answer × IterState :=
  let i := { i with
    credRpHash := rpHash, credSlots := (s.creds rpHash).map Prod.fst, credPos := 0, kind := .creds }
  if i.credSlots.length = 0 then (.status .noCredentials, i)
  else (s.credAnswer (i.credSlots.headD 0) i.credSlots.length, { i with credPos := i.credPos + 1 })

/-- `do_enum_creds_next` -/
def credsNext (i : IterState) : Answer × IterState :=
  if i.kind ≠ .creds ∨ i.credSlots.length ≤ i.credPos then (.status .notAllowed, i)
  else (s.credAnswer (i.credSlots.getD i.credPos 0) 0, { i with credPos := i.credPos + 1 })

/-! ### The entries -/

theorem entry_eq_some {s : Shelf} {slot : ℕ} {e : ℕ × SlotMeta} :
    s.entry slot = some e ↔ e.1 = slot ∧ s.read slot = .ok e.2 := by
  rcases e with ⟨i, m⟩
  rw [entry]
  cases s.read slot with
  | ok m' => simp [eq_comm]
  | _ => simp

theorem read_lt {s : Shelf} {slot : ℕ} {m : SlotMeta} (h : s.read slot = .ok m) :
    slot < fidoSlotsMax ∧ s.bitmap.getLsbD slot = true ∧ s.cred slot = .ok m := by
  rw [read] at h
  split at h
  · cases h
  · rename_i hok
    simp only [not_or, Nat.not_le, Bool.not_eq_false] at hok
    refine ⟨hok.1, hok.2, ?_⟩
    cases hc : s.cred slot with
    | ok m' =>
        rw [hc] at h
        cases h
        rfl
    | _ =>
        rw [hc] at h
        cases h

theorem mem_entries {s : Shelf} {e : ℕ × SlotMeta} : e ∈ s.entries ↔ s.read e.1 = .ok e.2 := by
  rw [entries, List.mem_filterMap]
  constructor
  · rintro ⟨slot, -, h⟩
    obtain ⟨rfl, h⟩ := entry_eq_some.mp h
    exact h
  · intro h
    exact ⟨e.1, List.mem_range.mpr (read_lt h).1, entry_eq_some.mpr ⟨rfl, h⟩⟩

theorem mem_creds {s : Shelf} {rpHash : Bytes} {e : ℕ × SlotMeta} :
    e ∈ s.creds rpHash ↔ s.read e.1 = .ok e.2 ∧ e.2.rpIdHash = rpHash := by
  rw [creds, List.mem_filter, mem_entries, decide_eq_true_eq]

theorem mem_rps {s : Shelf} {e : ℕ × SlotMeta} (h : e ∈ s.rps) : s.read e.1 = .ok e.2 :=
  mem_entries.mp (Lists.mem_of_mem_firsts _ h)

theorem length_entries_le (s : Shelf) : s.entries.length ≤ fidoSlotsMax := by
  have h := List.length_filterMap_le s.entry (List.range fidoSlotsMax)
  rwa [List.length_range] at h

/-- The entries of the slots below `n`, one slot more. -/
theorem entries_succ (s : Shelf) (n : ℕ) :
    (List.range (n + 1)).filterMap s.entry =
      (List.range n).filterMap s.entry ++ (s.entry n).toList := by
  rw [List.range_succ, List.filterMap_append]
  cases h : s.entry n <;> simp [h]

end Shelf

/-- The store is open, and the shelf is what there is to read. -/
structure Shows (F : FidoPrims) (s : Shelf) (u : FidoRam) (b : Board Note) : Prop where
  usable : u.slotsUsable = true
  shelf : shelf F u b = s

theorem Shows.congr {F : FidoPrims} {s : Shelf} {u u' : FidoRam} {b b' : Board Note}
    (h : Shows F s u b) (hu : u'.slots = u.slots) (hr : b'.chip.rmem = b.chip.rmem)
    (he : b'.ecc = b.ecc) : Shows F s u' b' := by
  have husable : u'.slotsUsable = u.slotsUsable := by
    rw [FidoRam.slotsUsable, FidoRam.slotsUsable, hu]
  refine ⟨husable.trans h.usable, ?_⟩
  rw [← h.shelf, Fido.shelf, Fido.shelf, FidoRam.bitmap, FidoRam.bitmap, husable, hu, hr, he]

theorem Shows.setChip {F : FidoPrims} {s : Shelf} {u : FidoRam} {b : Board Note} {w : World}
    (h : Shows F s u b) (hw : SameMem b.chip w) : Shows F s u (b.setChip w) :=
  h.congr rfl hw.rmem rfl

theorem Shows.setIter {F : FidoPrims} {s : Shelf} {u : FidoRam} {b : Board Note} (i : IterState)
    (h : Shows F s u b) : Shows F s (u.setIter i) b := h.congr rfl rfl rfl

theorem Shows.bitmap {F : FidoPrims} {s : Shelf} {u : FidoRam} {b : Board Note}
    (h : Shows F s u b) : u.bitmap = s.bitmap := congrArg Shelf.bitmap h.shelf

/-! ### The rules -/

section Rules

variable {F : FidoPrims} {A : BoardFate → Prop} {s : Shelf} {u : FidoRam} {b : Board Note}
  {C : Board Note → Prop}

/-- Nothing happens to the calls. -/
theorem of_calm {p : Prop} (h : StormyBoard CalmBoard) : p := absurd h not_stormyBoard_calm

/-- What is read is what is there, or the call fails. -/
theorem swp_slotsReadMeta (hs : Shows F s u b) {slot : ℕ}
    {Q : MetaRead → FidoRam → Board Note → Prop}
    (hok : ∀ w, SameMem b.chip w → Q (s.read slot) u (b.setChip w))
    (herr : StormyBoard A → ∀ w, SameMem b.chip w → Q .chip u (b.setChip w))
    (hcut : StormyBoard A → ∀ w, SameMem b.chip w → C (b.setChip w)) :
    swp (fidoBoard F) A (slotsReadMeta slot) Q C u b := by
  have hbits : u.slots.bitmap = s.bitmap := by
    rw [← hs.bitmap, FidoRam.bitmap, if_pos hs.usable]
  have hcred : credAt b.chip.rmem slot = s.cred slot := congrFun (congrArg Shelf.cred hs.shelf) slot
  rw [slotsReadMeta, swp_bind, swp_get, if_neg (by simp [hs.usable]), hbits]
  rw [Shelf.read] at hok
  split
  · rename_i hno
    rw [if_pos hno] at hok
    exact hok b.chip (SameMem.refl _)
  · rename_i hno
    rw [if_neg hno] at hok
    rw [swp_bind]
    apply swp_readCred
    · intro w hw
      have hw := hok w hw
      rw [hcred]
      cases hc : s.cred slot <;> rw [hc] at hw <;> exact hw
    · exact herr
    · exact hcut

theorem swp_slotsReadMeta_calm (hs : Shows F s u b) {slot : ℕ}
    {Q : MetaRead → FidoRam → Board Note → Prop}
    (h : ∀ w, SameMem b.chip w → Q (s.read slot) u (b.setChip w)) :
    swp (fidoBoard F) CalmBoard (slotsReadMeta slot) Q C u b :=
  swp_slotsReadMeta hs h of_calm of_calm

theorem swp_credstoreGetPubkey (hs : Shows F s u b) {slot : ℕ} {alg : UInt8}
    {Q : Option Bytes → FidoRam → Board Note → Prop} (hok : Q (s.pubkey slot alg) u b)
    (herr : StormyBoard A → Q none u b) (hcut : StormyBoard A → C b) :
    swp (fidoBoard F) A (credstoreGetPubkey slot alg) Q C u b := by
  have hpub : (b.ecc slot).map F.key.pub = s.pub slot := congrFun (congrArg Shelf.pub hs.shelf) slot
  rw [Shelf.pubkey, ← hpub] at hok
  rw [credstoreGetPubkey]
  cases halg : algOfStored alg with
  | none =>
      rw [halg] at hok
      exact hok
  | some a =>
      rw [halg] at hok
      dsimp only at hok ⊢
      split
      · rename_i hslot
        rw [if_pos hslot] at hok
        exact hok
      · rename_i hslot
        rw [if_neg hslot] at hok
        rw [swp_bind]
        apply swp_tropicEccPubkeyRead
        · cases hk : b.ecc slot with
          | none =>
              rw [hk] at hok
              exact hok
          | some k =>
              rw [hk, Option.map_some, Option.filter_some] at hok
              show swp _ _ (pure _) _ _ _ _
              simpa using hok
        · exact herr
        · exact hcut

/-- A loop over the allocated slots folds over the entries. -/
theorem swp_eachEntry {β : Type} (hs : Shows F s u b) (step : β → ℕ → SlotMeta → β) {init : β}
    {Q : Option β → FidoRam → Board Note → Prop}
    (h : ∀ w, SameMem b.chip w →
      Q (some (s.entries.foldl (fun acc e => step acc e.1 e.2) init)) u (b.setChip w)) :
    swp (fidoBoard F) CalmBoard (StProg.loop fidoSlotsMax (fun i acc => do
      if u.bitmap.getLsbD i then
        match ← slotsReadMeta i with
        | .ok m => pure (some (step acc i m))
        | _ => pure (some acc)
      else pure (some acc)) init) Q C u b := by
  have hloop := swp_loop (M := fidoBoard F) (A := CalmBoard) (n := fidoSlotsMax) (C := C)
    (m := fun i acc => do
      if u.bitmap.getLsbD i then
        match ← slotsReadMeta i with
        | .ok m => pure (some (step acc i m))
        | _ => pure (some acc)
      else pure (some acc))
    (fun n acc u' b' => u' = u ∧ (∃ w, SameMem b.chip w ∧ b' = b.setChip w) ∧
      acc = ((List.range n).filterMap s.entry).foldl (fun acc e => step acc e.1 e.2) init)
    (fun _ _ => False) ?_ (b := init) (u := u) (s := b)
    ⟨rfl, ⟨b.chip, SameMem.refl _, rfl⟩, rfl⟩
  · apply swp_mono hloop _ fun _ h => h
    rintro (_ | acc) u' b' hinv
    · exact hinv.elim
    · obtain ⟨rfl, ⟨w, hw, rfl⟩, rfl⟩ := hinv
      exact h w hw
  · rintro i acc u' b' hi ⟨rfl, ⟨w, hw, rfl⟩, rfl⟩
    -- a slot that is not allocated or cannot be read adds no entry
    have skip : ∀ w', SameMem w w' → s.entry i = none →
        (u' = u' ∧ (∃ w, SameMem b.chip w ∧ (b.setChip w') = b.setChip w) ∧
          ((List.range i).filterMap s.entry).foldl (fun acc e => step acc e.1 e.2) init =
            ((List.range (i + 1)).filterMap s.entry).foldl
              (fun acc e => step acc e.1 e.2) init) := by
      intro w' hw' he
      rw [Shelf.entries_succ, he, Option.toList_none, List.append_nil]
      exact ⟨rfl, ⟨w', hw.trans hw', rfl⟩, rfl⟩
    split
    · rw [swp_bind]
      apply swp_slotsReadMeta_calm (hs.setChip hw)
      intro w' hw'
      cases hr : s.read i with
      | ok m =>
          refine ⟨rfl, ⟨w', hw.trans hw', rfl⟩, ?_⟩
          have he : s.entry i = some (i, m) := Shelf.entry_eq_some.mpr ⟨rfl, hr⟩
          rw [Shelf.entries_succ, List.foldl_append, he]
          rfl
      | _ => exact skip w' hw' (by simp [Shelf.entry, hr])
    · rename_i hbit
      apply skip w (SameMem.refl w)
      have hr : s.read i = .invalid := by
        rw [Shelf.read, if_pos (.inr (by rw [← hs.bitmap]; simpa using hbit))]
      simp [Shelf.entry, hr]

/-! ### The lists -/

/-- The array of slots and the hashes seen, as `build_rp_list` keeps them. -/
theorem foldl_rps (es : List (ℕ × SlotMeta)) :
    es.foldl (fun (acc : List ℕ × List Bytes) e =>
        if e.2.rpIdHash ∈ acc.2 then acc else (acc.1 ++ [e.1], acc.2 ++ [e.2.rpIdHash])) ([], []) =
      ((Lists.firsts (fun e => e.2.rpIdHash) es).map Prod.fst,
        (Lists.firsts (fun e => e.2.rpIdHash) es).map fun e => e.2.rpIdHash) := by
  induction es using List.reverseRecOn with
  | nil => rfl
  | append_singleton es e ih =>
      rw [List.foldl_append, ih, Lists.firsts_concat, Lists.addFirst]
      show (if _ then _ else _) = _
      split <;> simp

theorem swp_buildRpList_calm (hs : Shows F s u b) {Q : List ℕ → FidoRam → Board Note → Prop}
    (h : ∀ w, SameMem b.chip w → Q (s.rps.map Prod.fst) u (b.setChip w)) :
    swp (fidoBoard F) CalmBoard buildRpList Q C u b := by
  rw [buildRpList, swp_bind, swp_get]
  dsimp only
  rw [swp_bind]
  apply swp_eachEntry hs (fun acc i m =>
    if m.rpIdHash ∈ acc.2 then acc else (acc.1 ++ [i], acc.2 ++ [m.rpIdHash]))
  intro w hw
  rw [foldl_rps]
  exact h w hw

theorem foldl_creds (rpHash : Bytes) (es : List (ℕ × SlotMeta)) :
    es.foldl (fun (acc : List ℕ) e => if e.2.rpIdHash = rpHash then acc ++ [e.1] else acc) [] =
      (es.filter fun e => e.2.rpIdHash = rpHash).map Prod.fst := by
  induction es using List.reverseRecOn with
  | nil => rfl
  | append_singleton es e ih =>
      rw [List.foldl_append, ih, List.filter_append, List.map_append]
      show (if _ then _ else _) = _
      split <;> simp [*]

theorem swp_buildCredListForRp_calm (hs : Shows F s u b) {rpHash : Bytes}
    {Q : List ℕ → FidoRam → Board Note → Prop}
    (h : ∀ w, SameMem b.chip w → Q ((s.creds rpHash).map Prod.fst) u (b.setChip w)) :
    swp (fidoBoard F) CalmBoard (buildCredListForRp rpHash) Q C u b := by
  rw [buildCredListForRp, swp_bind, swp_get]
  dsimp only
  rw [swp_bind]
  apply swp_eachEntry hs (fun acc i m => if m.rpIdHash = rpHash then acc ++ [i] else acc)
  intro w hw
  rw [foldl_creds]
  exact h w hw

/-! ### The entries that are answered -/

theorem swp_writeRpEntry_calm (hs : Shows F s u b) {slot total : ℕ}
    {Q : Answer → FidoRam → Board Note → Prop}
    (h : ∀ w, SameMem b.chip w → Q (s.rpAnswer slot total) u (b.setChip w)) :
    swp (fidoBoard F) CalmBoard (writeRpEntry slot total) Q C u b := by
  rw [writeRpEntry, swp_bind]
  apply swp_slotsReadMeta_calm hs
  intro w hw
  have hw := h w hw
  rw [Shelf.rpAnswer] at hw
  cases hr : s.read slot <;> rw [hr] at hw <;> exact hw

/-- An entry tells of the credential in its slot, or the call fails. -/
theorem swp_writeCredEntry (hs : Shows F s u b) {slot total : ℕ}
    {Q : Answer → FidoRam → Board Note → Prop}
    (hok : ∀ w, SameMem b.chip w → Q (s.credAnswer slot total) u (b.setChip w))
    (herr : StormyBoard A → ∀ w, SameMem b.chip w → Q (.status .other) u (b.setChip w))
    (hcut : StormyBoard A → ∀ w, SameMem b.chip w → C (b.setChip w)) :
    swp (fidoBoard F) A (writeCredEntry slot total) Q C u b := by
  rw [writeCredEntry, swp_bind]
  apply swp_slotsReadMeta hs
  · intro w hw
    have hq := hok w hw
    rw [Shelf.credAnswer] at hq
    cases hr : s.read slot with
    | ok m =>
        rw [hr] at hq
        dsimp only at hq ⊢
        rw [swp_bind]
        apply swp_credstoreGetPubkey (hs.setChip hw)
        · rw [Shelf.coseKey] at hq
          cases hp : s.pubkey slot m.alg with
          | none =>
              rw [hp] at hq
              exact hq
          | some pub =>
              rw [hp, Option.bind_some] at hq
              dsimp only
              cases hc : (algOfStored m.alg).bind fun a => coseWritePubkey a pub <;>
                rw [hc] at hq <;> exact hq
        · exact fun hst => herr hst w hw
        · exact fun hst => hcut hst w hw
    | _ =>
        rw [hr] at hq
        exact hq
  · exact herr
  · exact hcut

theorem swp_writeCredEntry_calm (hs : Shows F s u b) {slot total : ℕ}
    {Q : Answer → FidoRam → Board Note → Prop}
    (h : ∀ w, SameMem b.chip w → Q (s.credAnswer slot total) u (b.setChip w)) :
    swp (fidoBoard F) CalmBoard (writeCredEntry slot total) Q C u b :=
  swp_writeCredEntry hs h of_calm of_calm

/-! ### The sub-commands -/

theorem swp_doEnumRpsBegin_calm (hs : Shows F s u b) (hrp : u.token.rpBound = false)
    {Q : Answer → FidoRam → Board Note → Prop}
    (h : ∀ w, SameMem b.chip w →
      Q (s.rpsBegin u.iter).1 (u.setIter (s.rpsBegin u.iter).2) (b.setChip w)) :
    swp (fidoBoard F) CalmBoard doEnumRpsBegin Q C u b := by
  rw [doEnumRpsBegin, swp_bind, swp_get, if_neg (by simp [hrp]), swp_bind]
  apply swp_buildRpList_calm hs
  intro w hw
  have hq := h w hw
  rw [Shelf.rpsBegin] at hq
  rw [swp_bind]
  apply swp_setIter
  split
  · rename_i hlen
    rw [if_pos hlen] at hq
    exact hq
  · rename_i hlen
    rw [if_neg hlen] at hq
    rw [swp_bind]
    apply swp_writeRpEntry_calm ((hs.setChip hw).setIter _)
    intro w' hw'
    rw [swp_bind]
    apply swp_setIter
    have hq := h w' (hw.trans hw')
    rw [Shelf.rpsBegin, if_neg hlen] at hq
    exact hq

theorem swp_doEnumRpsNext_calm (hs : Shows F s u b) {Q : Answer → FidoRam → Board Note → Prop}
    (h : ∀ w, SameMem b.chip w →
      Q (s.rpsNext u.iter).1 (u.setIter (s.rpsNext u.iter).2) (b.setChip w)) :
    swp (fidoBoard F) CalmBoard doEnumRpsNext Q C u b := by
  rw [doEnumRpsNext, swp_bind, swp_get]
  dsimp only
  rw [Shelf.rpsNext] at h
  split
  · rename_i hno
    rw [if_pos hno] at h
    exact h b.chip (SameMem.refl _)
  · rename_i hno
    rw [if_neg hno] at h
    rw [swp_bind]
    apply swp_writeRpEntry_calm hs
    intro w hw
    rw [swp_bind]
    apply swp_setIter
    exact h w hw

theorem swp_doEnumCredsBegin_calm (hs : Shows F s u b) {rpHash : Bytes}
    (hrp : u.token.rpMatches rpHash = true) {Q : Answer → FidoRam → Board Note → Prop}
    (h : ∀ w, SameMem b.chip w →
      Q (s.credsBegin rpHash u.iter).1 (u.setIter (s.credsBegin rpHash u.iter).2) (b.setChip w)) :
    swp (fidoBoard F) CalmBoard (doEnumCredsBegin (.ok rpHash)) Q C u b := by
  rw [doEnumCredsBegin, swp_bind, swp_get, if_pos hrp, swp_bind]
  apply swp_setIter
  rw [swp_bind]
  apply swp_buildCredListForRp_calm (hs.setIter _)
  intro w hw
  have hq := h w hw
  rw [Shelf.credsBegin] at hq
  rw [swp_bind]
  apply swp_setIter
  split
  · rename_i hlen
    rw [if_pos hlen] at hq
    exact hq
  · rename_i hlen
    rw [if_neg hlen] at hq
    rw [swp_bind]
    apply swp_writeCredEntry_calm ((hs.setChip hw).setIter _)
    intro w' hw'
    rw [swp_bind]
    apply swp_setIter
    have hq := h w' (hw.trans hw')
    rw [Shelf.credsBegin, if_neg hlen] at hq
    exact hq

theorem swp_doEnumCredsNext_calm (hs : Shows F s u b) {Q : Answer → FidoRam → Board Note → Prop}
    (h : ∀ w, SameMem b.chip w →
      Q (s.credsNext u.iter).1 (u.setIter (s.credsNext u.iter).2) (b.setChip w)) :
    swp (fidoBoard F) CalmBoard doEnumCredsNext Q C u b := by
  rw [doEnumCredsNext, swp_bind, swp_get]
  dsimp only
  rw [Shelf.credsNext] at h
  split
  · rename_i hno
    rw [if_pos hno] at h
    exact h b.chip (SameMem.refl _)
  · rename_i hno
    rw [if_neg hno] at h
    rw [swp_bind]
    apply swp_writeCredEntry_calm hs
    intro w hw
    rw [swp_bind]
    apply swp_setIter
    exact h w hw

end Rules

/-! ### What leaves the shelf alone -/

/-- Everything but what the shelf is read from. -/
def shelfScope : Scope where
  rmem _ := False
  ecc _ := False
  ram u u' := u'.slots = u.slots ∧ u'.storeInitted = u.storeInitted ∧ u'.o2Uncertain = u.o2Uncertain
  note _ := True

theorem shelfScope_tokens : shelfScope.Tokens := ⟨fun _ _ => ⟨rfl, rfl, rfl⟩, fun _ _ => trivial⟩

/-- The device serves the credential management, and this is what it reads. -/
structure Serves (F : FidoPrims) (s : Shelf) (u : FidoRam) (b : Board Note) : Prop extends
    Shows F s u b where
  ready : u.ready = true

theorem serves_ground (F : FidoPrims) (s : Shelf) :
    Ground shelfScope (Serves F s) (fun _ => True) where
  cut _ _ _ := trivial
  chip _ _ _ hw h := ⟨h.congr rfl (funext fun slot => hw slot id) rfl, h.ready⟩
  ecc _ _ _ _ hs _ := hs.elim
  keygen _ _ _ _ hs _ := hs.elim
  counter _ _ _ h := ⟨h.congr rfl rfl rfl, h.ready⟩
  wait _ _ _ h := ⟨h.congr rfl rfl rfl, h.ready⟩
  note _ _ _ _ h := ⟨h.congr rfl rfl rfl, h.ready⟩
  ram u u' _ hu h := by
    obtain ⟨hslots, hstore, hpin⟩ := hu
    refine ⟨h.congr hslots rfl rfl, ?_⟩
    have hready := h.ready
    rw [FidoRam.ready, FidoRam.slotsUsable, FidoRam.pinUsable] at hready ⊢
    rw [hslots, hstore, hpin]
    exact hready

theorem Serves.setIter {F : FidoPrims} {s : Shelf} {u : FidoRam} {b : Board Note} (i : IterState)
    (h : Serves F s u b) : Serves F s (u.setIter i) b :=
  (serves_ground F s).ram u _ b ⟨rfl, rfl, rfl⟩ h

theorem Serves.setChip {F : FidoPrims} {s : Shelf} {u : FidoRam} {b : Board Note} {w : World}
    (h : Serves F s u b) (hw : SameMem b.chip w) : Serves F s u (b.setChip w) :=
  ⟨h.toShows.setChip hw, h.ready⟩

/-! ### The token -/

/-- The token after a command that found it alive. -/
def Token.Goes (t t' : Token) : Prop := t' = t ∨ t' = { t with used := true }

theorem Token.Goes.rpBound {t t' : Token} (h : t.Goes t') : t'.rpBound = t.rpBound := by
  rcases h with rfl | rfl <;> rfl

theorem Token.Goes.rpMatches {t t' : Token} (h : t.Goes t') (rp : Bytes) :
    t'.rpMatches rp = t.rpMatches rp := by
  rcases h with rfl | rfl <;> rfl

section Token

variable {F : FidoPrims} {A : BoardFate → Prop} {u : FidoRam} {b : Board Note}

/-- What `check_cm_token` decides, and on what. -/
structure Decided (F : FidoPrims) (q : CmReq) (sub : ℕ) (u₀ : FidoRam) (rc : Status)
    (u : FidoRam) : Prop where
  iter : u.iter = u₀.iter
  token : u.token.inUse = true → u₀.token.Goes u.token
  ok : rc = .ok ↔ u.token.inUse = true ∧ q.Authorised F u₀.token.token sub ∧
    u₀.token.hasPerm puatPermCm = true

theorem decided_early {q : CmReq} {sub : ℕ} {rc : Status} (hrc : rc ≠ .ok)
    (hno : ¬q.Authorised F u.token.token sub) :
    swp (fidoBoard F) A (pure rc) (fun rc u' _ => Decided F q sub u rc u') (fun _ => True) u b :=
  ⟨rfl, fun _ => .inl rfl, fun h => absurd h hrc, fun h => absurd h.2.1 hno⟩

theorem swp_checkCmToken_decides {q : CmReq} {sub : ℕ} :
    swp (fidoBoard F) A (checkCmToken q sub) (fun rc u' _ => Decided F q sub u rc u')
      (fun _ => True) u b := by
  rw [checkCmToken]
  cases hauth : q.pinAuth with
  | none =>
      show swp _ _ (pure Status.puatRequired) _ _ _ _
      exact decided_early (by decide) fun h => absurd h.pinAuth (by simp [hauth])
  | some auth =>
  cases hproto : q.protocol with
  | none => exact decided_early (by decide) fun h => absurd h.protocol (by simp [hproto])
  | some proto =>
  dsimp only
  split
  · rename_i hne
    exact decided_early (by decide) fun h => hne (by simpa [hproto] using h.protocol)
  rename_i hproto1
  split
  · rename_i hlong
    exact decided_early (by decide) fun h => absurd h.params (Nat.not_le_of_lt hlong)
  rename_i hlen
  rw [swp_bind]
  apply swp_halGetTick
  intro d
  rw [swp_bind]
  apply swp_puatVerify
  · intro _
    rw [swp_bind, swp_get]
    exact ⟨rfl, (by cases ·), (by cases ·), fun h => (by cases h.1)⟩
  · intro _ hbad w
    rw [swp_bind, swp_get]
    refine ⟨rfl, fun _ => .inl rfl, (by cases ·), fun h => ?_⟩
    exact absurd (hauth.symm.trans h.2.1.pinAuth) (hbad h.1)
  · intro _ hin hparam w
    rw [swp_bind, swp_get]
    have hq : q.Authorised F u.token.token sub :=
      ⟨by rw [hproto, not_not.mp hproto1], Nat.le_of_not_lt hlen, hauth.trans hparam⟩
    have hsame : (u.setToken { u.token with used := true }).token.hasPerm puatPermCm =
        u.token.hasPerm puatPermCm := rfl
    rw [Bool.true_and, hsame]
    by_cases hperm : u.token.hasPerm puatPermCm = true
    · rw [if_pos hperm]
      exact ⟨rfl, fun _ => .inr rfl, fun _ => ⟨hin, hq, hperm⟩, fun _ => rfl⟩
    · rw [if_neg hperm]
      exact ⟨rfl, fun _ => .inr rfl, (by cases ·), fun h => absurd h.2.2 hperm⟩

/-- What decides whether a GetNext goes on. -/
theorem swp_cmContinues_decides :
    swp (fidoBoard F) A cmContinues
      (fun ok u' _ => u'.iter = u.iter ∧ (u'.token.inUse = true → u.token.Goes u'.token) ∧
        (ok = true ↔ u'.token.inUse = true ∧ u.iter.gen = u.token.generation ∧
          u.token.hasPerm puatPermCm = true)) (fun _ => True) u b := by
  rw [cmContinues, swp_bind]
  apply swp_halGetTick
  intro d
  rw [swp_bind]
  apply swp_puatInUse
  · intro _
    rw [swp_bind, swp_get]
    exact ⟨rfl, (by cases ·), (by cases ·), fun h => (by cases h.1)⟩
  · intro _
    rw [swp_bind, swp_get]
    refine ⟨rfl, fun _ => .inl rfl, ?_⟩
    simp only [Bool.and_eq_true, decide_eq_true_eq, and_assoc]

end Token

/-! ### A whole payload -/

/-- What the two resets of `cm_run` leave of the iterator. -/
def IterState.keptFor (i : IterState) (sub : ℕ) : IterState :=
  let i := if sub ≠ subEnumRpsGetNext ∧ i.kind = .rps then i.reset else i
  if sub ≠ subEnumCredsGetNext ∧ i.kind = .creds then i.reset else i

theorem keptFor_idle {i : IterState} {sub : ℕ} (hrps : sub ≠ subEnumRpsGetNext)
    (hcreds : sub ≠ subEnumCredsGetNext) : (i.keptFor sub).kind = .none := by
  cases hk : i.kind <;> simp [IterState.keptFor, hk, hrps, hcreds, IterState.reset]

theorem keptFor_next {i : IterState} {sub : ℕ} (h : i.kind.nextSub = some sub) :
    i.keptFor sub = i := by
  cases hk : i.kind with
  | none =>
      rw [hk] at h
      cases h
  | rps =>
      rw [hk] at h
      cases h
      simp [IterState.keptFor, hk]
  | creds =>
      rw [hk] at h
      cases h
      simp [IterState.keptFor, hk]

theorem swp_cmRun_kept {F : FidoPrims} {A : BoardFate → Prop} {u : FidoRam} {b : Board Note}
    {q : CmReq} {sub : ℕ} {Q : Answer → FidoRam → Board Note → Prop} {C : Board Note → Prop}
    (h : swp (fidoBoard F) A (cmSwitch F q sub) Q C (u.setIter (u.iter.keptFor sub)) b) :
    swp (fidoBoard F) A (cmRun F q sub) Q C u b := by
  rw [cmRun, swp_bind]
  apply swp_setIter
  rw [swp_bind]
  apply swp_setIter
  exact h

/-- `slots_count_used` -/
def Shelf.countUsed (s : Shelf) : ℕ := ((List.range 32).filter fun i => s.bitmap.getLsbD i).length

/-- The `switch` of `credmgmt_handle_cbor` but for the deletion. -/
def Shelf.sub (s : Shelf) (t : Token) (q : CmReq) (sub : ℕ) (i : IterState) : Answer × IterState :=
  if sub = subGetCredsMetadata then
    (if t.rpBound then .status .pinAuthInvalid
      else (Answer.credsMetadata s.countUsed (fidoSlotsMax - s.countUsed)).fitted, i)
  else if sub = subEnumRpsBegin then
    if t.rpBound then (.status .pinAuthInvalid, i) else s.rpsBegin i
  else if sub = subEnumRpsGetNext then s.rpsNext i
  else if sub = subEnumCredsBegin then
    match q.rpHash with
    | .error e => (.status e, i)
    | .ok rpHash =>
        if t.rpMatches rpHash then s.credsBegin rpHash i else (.status .pinAuthInvalid, i)
  else if sub = subEnumCredsGetNext then s.credsNext i
  else (.status .invalidCommand, i)

/-- The sub-command is authorised, or its enumeration goes on. -/
def CmReq.Goes (F : FidoPrims) (q : CmReq) (sub : ℕ) (u : FidoRam) : Prop :=
  u.token.hasPerm puatPermCm = true ∧
    if sub ≠ subEnumRpsGetNext ∧ sub ≠ subEnumCredsGetNext then q.Authorised F u.token.token sub
    else u.iter.gen = u.token.generation

/-- The iterator that the sub-command finds. -/
def IterState.begun (i : IterState) (sub gen : ℕ) : IterState :=
  (if sub ≠ subEnumRpsGetNext ∧ sub ≠ subEnumCredsGetNext then { i with gen := gen } else i).keptFor
    sub

theorem code_status {rc : Status} (h : rc ≠ .ok) : (Answer.status rc).code ≠ Status.ok.code := by
  cases rc <;> first | exact absurd rfl h | decide

/-- What a sub-command does that deletes nothing. -/
structure Concludes (F : FidoPrims) (s : Shelf) (q : CmReq) (sub : ℕ) (u : FidoRam) (a : Answer)
    (u' : FidoRam) : Prop where
  token : u'.token.inUse = true → u.token.Goes u'.token
  went : u'.token.inUse = true → q.Goes F sub u →
    (a, u'.iter) = s.sub u.token q sub (u.iter.begun sub u.token.generation)
  stayed : ¬(u'.token.inUse = true ∧ q.Goes F sub u) → a.code ≠ Status.ok.code ∧
    u'.iter = if sub ≠ subEnumRpsGetNext ∧ sub ≠ subEnumCredsGetNext then u.iter else u.iter.reset

section Payload

variable {F : FidoPrims} {s : Shelf} {u : FidoRam} {b : Board Note}

theorem swp_cmSwitch_calm (hs : Serves F s u b) {q : CmReq} {sub : ℕ}
    (hdel : sub ≠ subDeleteCredential) {C : Board Note → Prop}
    {Q : Answer → FidoRam → Board Note → Prop}
    (h : ∀ w, SameMem b.chip w →
      Q (s.sub u.token q sub u.iter).1 (u.setIter (s.sub u.token q sub u.iter).2) (b.setChip w)) :
    swp (fidoBoard F) CalmBoard (cmSwitch F q sub) Q C u b := by
  have hhere := h b.chip (SameMem.refl _)
  rw [cmSwitch]
  by_cases h1 : sub = subGetCredsMetadata
  · simp only [Shelf.sub, if_pos h1] at hhere ⊢
    have hcount : u.countUsed = s.countUsed := by rw [FidoRam.countUsed, hs.bitmap, Shelf.countUsed]
    rw [doGetCredsMetadata, swp_bind, swp_get, hcount]
    split
    · rename_i hrp
      rw [if_pos hrp] at hhere
      exact hhere
    · rename_i hrp
      rw [if_neg hrp] at hhere
      exact hhere
  rw [if_neg h1]
  by_cases h2 : sub = subEnumRpsBegin
  · simp only [Shelf.sub, if_neg h1, if_pos h2] at h hhere ⊢
    cases hrp : u.token.rpBound with
    | true =>
        rw [hrp, if_pos rfl] at hhere
        rw [doEnumRpsBegin, swp_bind, swp_get, if_pos hrp]
        exact hhere
    | false =>
        rw [hrp] at h
        exact swp_doEnumRpsBegin_calm hs.toShows hrp h
  rw [if_neg h2]
  by_cases h3 : sub = subEnumRpsGetNext
  · simp only [Shelf.sub, if_neg h1, if_neg h2, if_pos h3] at h ⊢
    exact swp_doEnumRpsNext_calm hs.toShows h
  rw [if_neg h3]
  by_cases h4 : sub = subEnumCredsBegin
  · simp only [Shelf.sub, if_neg h1, if_neg h2, if_neg h3, if_pos h4] at h hhere ⊢
    cases hq : q.rpHash with
    | error e =>
        rw [hq] at hhere
        exact hhere
    | ok rpHash =>
        rw [hq] at h hhere
        dsimp only at h hhere
        cases hrp : u.token.rpMatches rpHash with
        | true =>
            rw [hrp] at h
            exact swp_doEnumCredsBegin_calm hs.toShows hrp h
        | false =>
            rw [hrp] at hhere
            rw [doEnumCredsBegin, swp_bind, swp_get, if_neg (by simp [hrp])]
            exact hhere
  rw [if_neg h4]
  by_cases h5 : sub = subEnumCredsGetNext
  · simp only [Shelf.sub, if_neg h1, if_neg h2, if_neg h3, if_neg h4, if_pos h5] at h ⊢
    exact swp_doEnumCredsNext_calm hs.toShows h
  rw [if_neg h5, if_neg hdel]
  simp only [Shelf.sub, if_neg h1, if_neg h2, if_neg h3, if_neg h4, if_neg h5] at hhere
  exact hhere

theorem swp_cmRun_calm (hs : Serves F s u b) {q : CmReq} {sub : ℕ}
    (hdel : sub ≠ subDeleteCredential) {C : Board Note → Prop}
    {Q : Answer → FidoRam → Board Note → Prop}
    (h : ∀ w, SameMem b.chip w → Q (s.sub u.token q sub (u.iter.keptFor sub)).1
      (u.setIter (s.sub u.token q sub (u.iter.keptFor sub)).2) (b.setChip w)) :
    swp (fidoBoard F) CalmBoard (cmRun F q sub) Q C u b := by
  apply swp_cmRun_kept
  exact swp_cmSwitch_calm (hs.setIter _) hdel h

theorem sub_goes {t t' : Token} (h : t.Goes t') (q : CmReq) (sub : ℕ) (i : IterState) :
    s.sub t' q sub i = s.sub t q sub i := by
  rw [Shelf.sub, Shelf.sub, h.rpBound]
  simp only [h.rpMatches]

theorem swp_credmgmtHandleCbor_calm (hs : Serves F s u b) {q : CmReq} {sub : ℕ}
    (hsub : q.sub = some sub) (hdel : sub ≠ subDeleteCredential) {C : Board Note → Prop}
    (hC : ∀ b, C b) :
    swp (fidoBoard F) CalmBoard (credmgmtHandleCbor F (.ok q))
      (fun a u' b' => Serves F s u' b' ∧ Concludes F s q sub u a u') C u b := by
  rw [credmgmtHandleCbor]
  dsimp only
  rw [hsub]
  dsimp only
  split
  · rename_i hbegin
    rw [swp_bind]
    apply swp_mono (swp_and (((serves_ground F s).checkCmToken shelfScope_tokens q sub) u b hs)
      swp_checkCmToken_decides) _ fun b' _ => hC b'
    rintro rc u₁ b₁ ⟨hs₁, hd⟩
    split
    · rename_i hrc
      refine ⟨hs₁, hd.token, fun hin hgo => ?_, fun _ => ⟨code_status hrc, ?_⟩⟩
      · rw [CmReq.Goes, if_pos hbegin] at hgo
        exact absurd (hd.ok.mpr ⟨hin, hgo.2, hgo.1⟩) hrc
      · rw [if_pos hbegin]
        exact hd.iter
    · rename_i hrc
      obtain ⟨hin, hauth, hperm⟩ := hd.ok.mp (not_not.mp hrc)
      have hgoes := hd.token hin
      have hgen : u₁.token.generation = u.token.generation := by
        rcases hgoes with h | h <;> rw [h]
      rw [swp_bind, swp_get, swp_bind]
      apply swp_setIter
      apply swp_cmRun_calm (hs₁.setIter _) hdel
      intro w hw
      refine ⟨((hs₁.setIter _).setIter _).setChip hw, fun _ => hgoes, fun _ _ => ?_, fun hno => ?_⟩
      · rw [setIter_token, sub_goes hgoes, IterState.begun, if_pos hbegin, ← hd.iter, ← hgen]
        rfl
      · exact absurd ⟨hin, hperm, by rw [if_pos hbegin]; exact hauth⟩ hno
  · rename_i hnext
    rw [swp_bind]
    apply swp_mono (swp_and (((serves_ground F s).cmContinues shelfScope_tokens) u b hs)
      swp_cmContinues_decides) _ fun b' _ => hC b'
    rintro ok u₁ b₁ ⟨hs₁, hiter, hgoes, hok⟩
    cases ok with
    | true =>
        obtain ⟨hin, hgen, hperm⟩ := hok.mp rfl
        rw [if_pos rfl]
        apply swp_cmRun_calm hs₁ hdel
        intro w hw
        refine ⟨(hs₁.setIter _).setChip hw, hgoes, fun _ _ => ?_, fun hno => ?_⟩
        · rw [sub_goes (hgoes hin), IterState.begun, if_neg hnext, hiter]
          rfl
        · exact absurd ⟨hin, hperm, by rw [if_neg hnext]; exact hgen⟩ hno
    | false =>
        rw [if_neg Bool.false_ne_true, swp_bind]
        apply swp_setIter
        refine ⟨hs₁.setIter _, hgoes, fun hin hgo => ?_, fun _ => ⟨code_notAllowed, ?_⟩⟩
        · rw [CmReq.Goes, if_neg hnext] at hgo
          exact absurd (hok.mpr ⟨hin, hgo.2, hgo.1⟩) Bool.false_ne_true
        · rw [if_neg hnext, ← hiter]
          rfl

/-- A payload of the credential management gets to its handler. -/
theorem swp_cmPayload {A : BoardFate → Prop} {c : Except Status CmReq} {C : Board Note → Prop}
    {Q : Answer → FidoRam → Board Note → Prop} (hready : u.ready = true)
    (h : swp (fidoBoard F) A (credmgmtHandleCbor F c)
      (fun a u' b' => Q a u' (b'.jot (.answer ⟨.credentialMgmt c, true⟩ a))) C (u.setGa .zero)
      (b.jot (.request ⟨.credentialMgmt c, true⟩))) :
    swp (fidoBoard F) A (fidoHidCborDispatch F ⟨.credentialMgmt c, true⟩) Q C u b := by
  have hempty : ¬(Command.credentialMgmt c).isEmpty = true := Bool.false_ne_true
  have hcm : (Command.credentialMgmt c).isCredentialMgmt = true := rfl
  have hga : ¬(Command.credentialMgmt c).isAssertion = true := Bool.false_ne_true
  have hopen : ¬((Command.credentialMgmt c).isOpen = false ∧ (u.setGa .zero).ready = false) :=
    fun hno => Bool.false_ne_true (hno.2.symm.trans hready)
  rw [fidoHidCborDispatch, swp_bind]
  apply swp_leave
  rw [swp_bind, dispatch, if_neg hempty, swp_bind, endEnumeration, if_pos hcm, swp_pure, swp_bind,
    endIteration, if_neg hga]
  apply swp_setGa
  rw [serveChecked, if_neg (fun h => Bool.false_ne_true h.symm), swp_bind, swp_get, if_neg hopen]
  apply swp_mono h _ fun _ h => h
  intro a u' b' hq
  rw [swp_bind]
  exact swp_leave hq

/-- A payload of the credential management that deletes nothing. -/
theorem swp_payload_calm (hs : Serves F s u b) {q : CmReq} {sub : ℕ} (hsub : q.sub = some sub)
    (hdel : sub ≠ subDeleteCredential) {C : Board Note → Prop} (hC : ∀ b, C b) :
    swp (fidoBoard F) CalmBoard (fidoHidCborDispatch F ⟨.credentialMgmt (.ok q), true⟩)
      (fun a u' b' => Serves F s u' b' ∧ Concludes F s q sub u a u') C u b := by
  have g := serves_ground F s
  have hjot : ∀ {u b n}, Serves F s u b → Serves F s u (b.jot n) := fun h => g.note _ _ _ trivial h
  apply swp_cmPayload hs.ready
  have hs₁ : Serves F s (u.setGa .zero) (b.jot (.request ⟨.credentialMgmt (.ok q), true⟩)) :=
    g.ram u _ _ ⟨rfl, rfl, rfl⟩ (hjot hs)
  apply swp_mono (swp_credmgmtHandleCbor_calm hs₁ hsub hdel hC) _ fun _ h => h
  rintro a u' b' ⟨hs', ho⟩
  exact ⟨hjot hs', ho.token, ho.went, ho.stayed⟩

end Payload

end Nixtropic.Fido
