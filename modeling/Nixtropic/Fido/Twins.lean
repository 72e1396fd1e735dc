import Nixtropic.Fido.Bound

/-!
Two devices whose stores agree on the credentials of one RP.

Both hold the same management token, bound to that RP, and take the same
requests; nothing happens to their calls, but time goes by on each at its own
pace. A device under such a token cannot show what else its store holds: what
both answer with OK is the same.
-/

namespace Nixtropic.Fido

open Crash Runs

/-- The same credentials of the RP, in the same slots and with the same keys. -/
structure Shelf.AgreeOn (rpHash : Bytes) (s s' : Shelf) : Prop where
  creds : s'.creds rpHash = s.creds rpHash
  pub : ∀ e ∈ s.creds rpHash, s'.pub e.1 = s.pub e.1

/-- The same token in use, bound to the RP. -/
structure Token.AgreeOn (rpHash : Bytes) (t t' : Token) : Prop where
  bound : t.BoundTo rpHash
  bound' : t'.BoundTo rpHash
  token : t'.token = t.token
  perms : t'.perms = t.perms

/-- Both devices are on and serve the credential management, under the same
token, over stores that agree on the RP. -/
structure Alike (F : FidoPrims) (rpHash : Bytes) (u : FidoRam) (b : Board Note) (u' : FidoRam)
    (b' : Board Note) : Prop where
  ready : u.ready = true
  ready' : u'.ready = true
  token : u.token.AgreeOn rpHash u'.token
  shelf : (shelf F u b).AgreeOn rpHash (shelf F u' b')

/-- What a request asks of the credential management. -/
def Request.asksCm (r : Request) : Option (CmReq × ℕ) :=
  match r.cborValid, r.command with
  | true, .credentialMgmt (.ok q) => q.sub.map fun sub => (q, sub)
  | _, _ => none

/-- The status of a request that asks for nothing. -/
def Request.refusedCm (r : Request) : Status :=
  match r.cborValid, r.command with
  | false, _ => .invalidCbor
  | true, .credentialMgmt (.error st) => st
  | _, _ => .missingParameter

section Shelf

variable {s s' : Shelf} {rpHash : Bytes} {slot : ℕ}

theorem mem_creds_slots : slot ∈ (s.creds rpHash).map Prod.fst ↔
    ∃ m, s.read slot = .ok m ∧ m.rpIdHash = rpHash := by
  constructor
  · intro h
    obtain ⟨e, he, rfl⟩ := List.mem_map.mp h
    exact ⟨e.2, Shelf.mem_creds.mp he⟩
  · rintro ⟨m, hm⟩
    exact List.mem_map.mpr ⟨(slot, m), Shelf.mem_creds.mpr hm, rfl⟩

/-- A credential of the RP is answered the same. -/
theorem Shelf.AgreeOn.credAnswer (h : s.AgreeOn rpHash s')
    (hslot : slot ∈ (s.creds rpHash).map Prod.fst) (total : ℕ) :
    s'.credAnswer slot total = s.credAnswer slot total := by
  obtain ⟨m, hm⟩ := mem_creds_slots.mp hslot
  have he : (slot, m) ∈ s.creds rpHash := Shelf.mem_creds.mpr hm
  have hm' : s'.read slot = .ok m := (Shelf.mem_creds.mp (h.creds ▸ he)).1
  have hpub : s'.pub slot = s.pub slot := h.pub _ he
  have hkey : s'.coseKey slot m = s.coseKey slot m := by
    rw [Shelf.coseKey, Shelf.coseKey, Shelf.pubkey, Shelf.pubkey, hpub]
  rw [Shelf.credAnswer, Shelf.credAnswer, hm.1, hm']
  dsimp only
  rw [hkey]

end Shelf

/-! ### The iterators -/

/-- Both iterators list the credentials of the RP, at the same place, or no
enumeration is open. -/
def Paced (rpHash : Bytes) (s : Shelf) (t t' : Token) (i i' : IterState) : Prop :=
  i.kind = .none ∧ i'.kind = .none ∨
    (i.kind = .creds ∧ i'.kind = .creds) ∧ (i.gen = t.generation ∧ i'.gen = t'.generation) ∧
      i.credSlots = (s.creds rpHash).map Prod.fst ∧ i'.credSlots = i.credSlots ∧
      i'.credPos = i.credPos

section Paced

variable {F : FidoPrims} {rpHash : Bytes} {s s' : Shelf} {t t' : Token} {i i' : IterState}

/-- The sub-commands on iterators that are in step. -/
theorem sub_agree (hs : s.AgreeOn rpHash s') (ht : t.AgreeOn rpHash t') (q : CmReq) (sub : ℕ)
    (hgen : i.gen = t.generation ∧ i'.gen = t'.generation) (hi : Paced rpHash s t t' i i') :
    (s'.sub t' q sub i').1 = (s.sub t q sub i).1 ∧
      Paced rpHash s t t' (s.sub t q sub i).2 (s'.sub t' q sub i').2 := by
  have hlen : (s'.creds rpHash).map Prod.fst = (s.creds rpHash).map Prod.fst := by rw [hs.creds]
  by_cases h1 : sub = subGetCredsMetadata
  · simp only [Shelf.sub, if_pos h1, if_pos ht.bound.1, if_pos ht.bound'.1]
    exact ⟨trivial, hi⟩
  by_cases h2 : sub = subEnumRpsBegin
  · simp only [Shelf.sub, if_neg h1, if_pos h2, if_pos ht.bound.1, if_pos ht.bound'.1]
    exact ⟨trivial, hi⟩
  by_cases h3 : sub = subEnumRpsGetNext
  · have hno : ∀ (s : Shelf) (i : IterState), i.kind ≠ .rps →
      s.rpsNext i = (.status .notAllowed, i) :=
      fun s i hk => by rw [Shelf.rpsNext, if_pos (.inl hk)]
    have hk : i.kind ≠ .rps ∧ i'.kind ≠ .rps := by
      rcases hi with ⟨hk, hk'⟩ | ⟨⟨hk, hk'⟩, -⟩ <;> simp [hk, hk']
    simp only [Shelf.sub, if_neg h1, if_neg h2, if_pos h3, hno s i hk.1, hno s' i' hk.2]
    exact ⟨trivial, hi⟩
  by_cases h4 : sub = subEnumCredsBegin
  · simp only [Shelf.sub, if_neg h1, if_neg h2, if_neg h3, if_pos h4]
    cases q.rpHash with
    | error e => exact ⟨rfl, hi⟩
    | ok other =>
        dsimp only
        by_cases hrp : other = rpHash
        · subst hrp
          rw [if_pos (ht.bound.matches_iff.mpr rfl), if_pos (ht.bound'.matches_iff.mpr rfl)]
          rw [Shelf.credsBegin, Shelf.credsBegin]
          dsimp only
          rw [hlen]
          split
          · exact ⟨rfl, .inr ⟨⟨rfl, rfl⟩, hgen, rfl, rfl, rfl⟩⟩
          · rename_i hne
            refine ⟨hs.credAnswer ?_ _, .inr ⟨⟨rfl, rfl⟩, hgen, rfl, rfl, rfl⟩⟩
            cases hl : (s.creds other).map Prod.fst with
            | nil => exact absurd (congrArg List.length hl) hne
            | cons slot rest => exact List.mem_cons_self
        · have hno : t.rpMatches other ≠ true := fun h => hrp (ht.bound.matches_iff.mp h)
          have hno' : t'.rpMatches other ≠ true := fun h => hrp (ht.bound'.matches_iff.mp h)
          rw [if_neg hno, if_neg hno']
          exact ⟨rfl, hi⟩
  by_cases h5 : sub = subEnumCredsGetNext
  · simp only [Shelf.sub, if_neg h1, if_neg h2, if_neg h3, if_neg h4, if_pos h5]
    rw [Shelf.credsNext, Shelf.credsNext]
    rcases hi with ⟨hk, hk'⟩ | ⟨⟨hk, hk'⟩, hg, hslots, hslots', hpos⟩
    · have hno : i.kind ≠ .creds := by simp [hk]
      have hno' : i'.kind ≠ .creds := by simp [hk']
      rw [if_pos (.inl hno'), if_pos (.inl hno)]
      exact ⟨rfl, .inl ⟨hk, hk'⟩⟩
    · rw [hk, hk', hslots', hpos]
      split
      · exact ⟨rfl, .inr ⟨⟨hk, hk'⟩, hg, hslots, hslots', hpos⟩⟩
      · rename_i hgo
        have hlt : i.credPos < i.credSlots.length := by
          simp only [ne_eq, not_true_eq_false, false_or, Nat.not_le] at hgo
          exact hgo
        refine ⟨hs.credAnswer ?_ _, .inr ⟨⟨rfl, rfl⟩, hg, hslots, rfl, rfl⟩⟩
        rw [← hslots, List.getD_eq_getElem _ _ hlt]
        exact List.getElem_mem hlt
  · simp only [Shelf.sub, if_neg h1, if_neg h2, if_neg h3, if_neg h4, if_neg h5]
    exact ⟨trivial, hi⟩

/-- An iterator keeps the generation that it was opened under. -/
theorem keptFor_gen (i : IterState) (sub : ℕ) : (i.keptFor sub).gen = i.gen := by
  have either : ∀ {p : Prop} [Decidable p] (j : IterState),
      (if p then j.reset else j).gen = j.gen := by
    intro p _ j
    split <;> rfl
  exact (either _).trans (either i)

theorem keptFor_none (sub : ℕ) (h : i.kind = .none) : i.keptFor sub = i := by
  simp [IterState.keptFor, h]

/-- Iterators in step stay so when the sub-command is not their next one. -/
theorem Paced.keptFor (h : Paced rpHash s t t' i i') (sub : ℕ) :
    Paced rpHash s t t' (i.keptFor sub) (i'.keptFor sub) := by
  rcases h with ⟨hk, hk'⟩ | ⟨⟨hk, hk'⟩, h⟩
  · rw [keptFor_none sub hk, keptFor_none sub hk']
    exact .inl ⟨hk, hk'⟩
  · by_cases hsub : sub = subEnumCredsGetNext
    · rw [keptFor_next (by rw [hk, hsub]; rfl), keptFor_next (by rw [hk', hsub]; rfl)]
      exact .inr ⟨⟨hk, hk'⟩, h⟩
    · left
      simp [IterState.keptFor, hk, hk', hsub, IterState.reset]

theorem Paced.goes {v v' : Token} (h : Paced rpHash s t t' i i') (hv : t.Goes v)
    (hv' : t'.Goes v') : Paced rpHash s v v' i i' := by
  have hgen : ∀ {t v : Token}, t.Goes v → v.generation = t.generation := by
    rintro t v (rfl | rfl) <;> rfl
  rw [Paced, hgen hv, hgen hv']
  exact h

/-- Which sub-commands go on is the same for both. -/
theorem goes_agree {u u' : FidoRam} (ht : u.token.AgreeOn rpHash u'.token) {q : CmReq} {sub : ℕ}
    (hnext : ¬(sub ≠ subEnumRpsGetNext ∧ sub ≠ subEnumCredsGetNext) →
      u.iter.gen = u.token.generation ∧ u'.iter.gen = u'.token.generation) :
    q.Goes F sub u ↔ q.Goes F sub u' := by
  have hperm : u'.token.hasPerm puatPermCm = u.token.hasPerm puatPermCm := by
    rw [Token.hasPerm, Token.hasPerm, ht.perms, ht.bound.inUse, ht.bound'.inUse]
  rw [CmReq.Goes, CmReq.Goes, hperm, ht.token]
  by_cases hsub : sub ≠ subEnumRpsGetNext ∧ sub ≠ subEnumCredsGetNext
  · rw [if_pos hsub, if_pos hsub]
  · rw [if_neg hsub, if_neg hsub]
    simp [hnext hsub]

end Paced

/-! ### One device -/

/-- What becomes of a deletion. -/
structure Erases (F : FidoPrims) (q : CmReq) (u : FidoRam) (b : Board Note) (a : Answer)
    (u' : FidoRam) (b' : Board Note) : Prop where
  status : ∃ st, a = .status st
  token : u'.token.inUse = true → u.token.Goes u'.token
  went : u'.token.inUse = true → q.Goes F subDeleteCredential u → u'.iter.kind = .none
  stayed : ¬(u'.token.inUse = true ∧ q.Goes F subDeleteCredential u) →
    a.code ≠ Status.ok.code ∧ u'.iter = u.iter ∧ Rests u b u' b'

/-- What becomes of a payload of the credential management, while nothing
happens to its calls. -/
def Taken (F : FidoPrims) (r : Request) (u : FidoRam) (b : Board Note) (a : Answer)
    (u' : FidoRam) (b' : Board Note) : Prop :=
  match r.asksCm with
  | none => a = .status r.refusedCm ∧ u'.iter = u.iter ∧ u'.token = u.token ∧ Rests u b u' b'
  | some (q, sub) =>
      if sub = subDeleteCredential then Erases F q u b a u' b'
      else Serves F (shelf F u b) u' b' ∧ Concludes F (shelf F u b) q sub u a u'

/-- Everything but the token and the iterator. -/
def beyondToken : Scope where
  rmem _ := True
  ecc _ := True
  ram u u' := u'.token = u.token ∧ u'.iter = u.iter
  note _ := True

theorem beyondToken_base : beyondToken.Base where
  creds := ⟨fun _ _ => trivial, fun _ _ => trivial⟩
  storeInitted _ _ := ⟨rfl, rfl⟩
  mutating _ _ := ⟨rfl, rfl⟩
  pin _ _ := ⟨rfl, rfl⟩
  note _ _ := trivial
  o1 := ⟨fun _ _ => trivial, fun _ _ => ⟨rfl, rfl⟩⟩
  o2 := ⟨fun _ _ => trivial, fun _ _ => ⟨rfl, rfl⟩⟩

theorem sameToken_ground (t : Token) (i : IterState) :
    Ground beyondToken (fun u _ => u.token = t ∧ u.iter = i) (fun _ => True) where
  cut _ _ _ := trivial
  chip _ _ _ _ h := h
  ecc _ _ _ _ _ h := h
  keygen _ _ _ _ _ h := h
  counter _ _ _ h := h
  wait _ _ _ h := h
  note _ _ _ _ h := h
  ram _ _ _ hu h := ⟨hu.1.trans h.1, hu.2.trans h.2⟩

section Taken

variable {F : FidoPrims} {A : BoardFate → Prop} {u : FidoRam} {b : Board Note}

theorem swp_doDeleteCredential_status (credId : Except Status Bytes) :
    swp (fidoBoard F) A (doDeleteCredential F credId) (fun a _ _ => ∃ st, a = .status st)
      (fun _ => True) u b := by
  cases credId with
  | error st => exact ⟨st, rfl⟩
  | ok credId =>
      apply swp_bind_any _ fun _ => trivial
      rintro (_ | slot) u₁ b₁
      · exact ⟨_, rfl⟩
      · apply swp_bind_any _ fun _ => trivial
        intro r u₂ b₂
        cases r with
        | ok m =>
            rw [swp_bind, swp_get]
            split
            · apply swp_bind_any _ fun _ => trivial
              rintro (_ | _) _ _ <;> exact ⟨_, rfl⟩
            · exact ⟨_, rfl⟩
        | _ => exact ⟨_, rfl⟩

theorem swp_deletion {q : CmReq} (hsub : q.sub = some subDeleteCredential) :
    swp (fidoBoard F) A (credmgmtHandleCbor F (.ok q)) (Erases F q u b) (fun _ => True) u b := by
  have hbegin : subDeleteCredential ≠ subEnumRpsGetNext ∧
      subDeleteCredential ≠ subEnumCredsGetNext := by decide
  rw [credmgmtHandleCbor]
  dsimp only
  rw [hsub]
  dsimp only
  rw [if_pos hbegin, swp_bind]
  apply swp_mono (swp_and ((rests_ground u b).checkCmToken shelfScope_tokens q _ u b
    (Rests.refl u b)) swp_checkCmToken_decides) _ fun _ _ => trivial
  rintro rc u₁ b₁ ⟨hr, hd⟩
  split
  · rename_i hrc
    refine ⟨⟨_, rfl⟩, hd.token, fun hin hgo => ?_, fun _ => ⟨code_status hrc, hd.iter, hr⟩⟩
    rw [CmReq.Goes, if_pos hbegin] at hgo
    exact absurd (hd.ok.mpr ⟨hin, hgo.2, hgo.1⟩) hrc
  · rename_i hrc
    obtain ⟨hin, hauth, hperm⟩ := hd.ok.mp (not_not.mp hrc)
    have hgo : q.Goes F subDeleteCredential u := ⟨hperm, by rw [if_pos hbegin]; exact hauth⟩
    rw [swp_bind, swp_get, swp_bind]
    apply swp_setIter
    apply swp_cmRun_kept
    have hswitch : cmSwitch F q subDeleteCredential = doDeleteCredential F q.credId := rfl
    rw [hswitch]
    apply swp_mono (swp_and (((sameToken_ground _ _).around beyondToken_base).doDeleteCredential
      q.credId _ b₁ ⟨rfl, rfl⟩) (swp_doDeleteCredential_status q.credId)) _ fun _ _ => trivial
    rintro a u₂ b₂ ⟨⟨ht, hi⟩, hst⟩
    have hsame : u₂.token = u₁.token := ht
    refine ⟨hst, fun _ => hsame ▸ hd.token hin, fun _ _ => ?_, fun hno => ?_⟩
    · rw [hi]
      exact keptFor_idle hbegin.1 hbegin.2
    · exact absurd ⟨hsame ▸ hin, hgo⟩ hno

theorem swp_taken (hready : u.ready = true) (c : Except Status CmReq) (valid : Bool) :
    swp (fidoBoard F) CalmBoard (fidoHidCborDispatch F ⟨.credentialMgmt c, valid⟩)
      (Taken F ⟨.credentialMgmt c, valid⟩ u b) (fun _ => True) u b := by
  cases valid with
  | false =>
      apply swp_cmPayload_refused (.inl rfl)
      exact fun b' hb => ⟨rfl, rfl, rfl, ⟨rfl, rfl, rfl⟩, hb⟩
  | true =>
  -- the parameters ask for no sub-command
  have refuse : Request.asksCm ⟨.credentialMgmt c, true⟩ = none →
      credmgmtHandleCbor F c = pure (.status (Request.refusedCm ⟨.credentialMgmt c, true⟩)) →
      swp (fidoBoard F) CalmBoard (fidoHidCborDispatch F ⟨.credentialMgmt c, true⟩)
        (Taken F ⟨.credentialMgmt c, true⟩ u b) (fun _ => True) u b := by
    intro hasks hc
    apply swp_cmPayload hready
    rw [hc]
    show Taken F _ u b _ _ _
    rw [Taken, hasks]
    exact ⟨rfl, rfl, rfl, ⟨rfl, rfl, rfl⟩, rfl, rfl⟩
  cases c with
  | error st => exact refuse rfl rfl
  | ok q =>
  cases hsub : q.sub with
  | none =>
      apply refuse
      · simp [Request.asksCm, hsub]
      · rw [credmgmtHandleCbor]
        simp [hsub, Request.refusedCm]
  | some sub =>
  have hasks : Request.asksCm ⟨.credentialMgmt (.ok q), true⟩ = some (q, sub) := by
    simp [Request.asksCm, hsub]
  have htaken : ∀ {a u' b'}, (if sub = subDeleteCredential then Erases F q u b a u' b'
      else Serves F (shelf F u b) u' b' ∧ Concludes F (shelf F u b) q sub u a u') →
      Taken F ⟨.credentialMgmt (.ok q), true⟩ u b a u' b' := by
    intro a u' b' h
    rw [Taken, hasks]
    exact h
  by_cases hdel : sub = subDeleteCredential
  · subst hdel
    apply swp_cmPayload hready
    apply swp_mono (swp_deletion hsub) _ fun _ h => h
    intro a u' b' he
    apply htaken
    rw [if_pos rfl]
    refine ⟨he.status, he.token, he.went, fun hno => ?_⟩
    obtain ⟨hcode, hi, hr⟩ := he.stayed hno
    exact ⟨hcode, hi, hr.ram, hr.still.rmem, hr.still.ecc⟩
  · apply swp_mono (swp_payload_calm (serves_ready hready) hsub hdel fun _ =>
      trivial) _ fun _ h => h
    intro a u' b' h
    apply htaken
    rw [if_neg hdel]
    exact h

end Taken

/-! ### Both devices -/

/-- The request asks for a deletion. -/
def Request.Deletes (r : Request) : Prop := ∃ q, r.asksCm = some (q, subDeleteCredential)

section Step

variable {F : FidoPrims} {rpHash : Bytes} {u u' v v' : FidoRam} {b b' d d' : Board Note}
  {r : Request} {a a' : Answer}

/-- A GetNext where no enumeration is open. -/
theorem Concludes.closed {s : Shelf} {q : CmReq} {sub : ℕ} (h : Concludes F s q sub u a v)
    (hnext : ¬(sub ≠ subEnumRpsGetNext ∧ sub ≠ subEnumCredsGetNext)) (hk : u.iter.kind = .none) :
    a.code ≠ Status.ok.code ∧ v.iter.kind = .none := by
  by_cases hgo : v.token.inUse = true ∧ q.Goes F sub u
  · have hw := h.went hgo.1 hgo.2
    rw [IterState.begun, if_neg hnext, keptFor_none sub hk] at hw
    have hno : s.sub u.token q sub u.iter = (.status .notAllowed, u.iter) := by
      obtain ⟨k, hk'⟩ := exists_nextSub hnext
      have hrps : s.rpsNext u.iter = (.status .notAllowed, u.iter) := by
        rw [Shelf.rpsNext, if_pos (.inl (by simp [hk]))]
      have hcreds : s.credsNext u.iter = (.status .notAllowed, u.iter) := by
        rw [Shelf.credsNext, if_pos (.inl (by simp [hk]))]
      cases k with
      | none => cases hk'
      | rps =>
          cases hk'
          exact hrps
      | creds =>
          cases hk'
          exact hcreds
    rw [hno] at hw
    obtain ⟨rfl, hi⟩ := Prod.mk.inj hw
    exact ⟨code_notAllowed, by rw [hi, hk]⟩
  · obtain ⟨hcode, hi⟩ := h.stayed hgo
    rw [if_neg hnext] at hi
    exact ⟨hcode, by rw [hi]; rfl⟩

/-- A sub-command that deletes nothing, on both devices. -/
theorem outcome_agree (h : Alike F rpHash u b u' b')
    (hp : Paced rpHash (shelf F u b) u.token u'.token u.iter u'.iter) {q : CmReq} {sub : ℕ}
    (h₁ : Concludes F (shelf F u b) q sub u a v) (h₂ : Concludes F (shelf F u' b') q sub u' a' v') :
    (a.code = Status.ok.code → a'.code = Status.ok.code → a' = a) ∧
      (v.token.inUse = true → v'.token.inUse = true →
        (a.code = Status.ok.code ↔ a'.code = Status.ok.code) ∧
          Paced rpHash (shelf F u b) v.token v'.token v.iter v'.iter) := by
  by_cases hclosed : ¬(sub ≠ subEnumRpsGetNext ∧ sub ≠ subEnumCredsGetNext) ∧
      u.iter.kind = .none ∧ u'.iter.kind = .none
  · obtain ⟨hnext, hk, hk'⟩ := hclosed
    obtain ⟨hcode, hv⟩ := h₁.closed hnext hk
    obtain ⟨hcode', hv'⟩ := h₂.closed hnext hk'
    exact ⟨fun hok => absurd hok hcode, fun _ _ =>
      ⟨⟨fun hok => absurd hok hcode, fun hok => absurd hok hcode'⟩, .inl ⟨hv, hv'⟩⟩⟩
  have hopen : ¬(sub ≠ subEnumRpsGetNext ∧ sub ≠ subEnumCredsGetNext) →
      u.iter.gen = u.token.generation ∧ u'.iter.gen = u'.token.generation := by
    intro hnext
    rcases hp with hk | ⟨-, hgen, -⟩
    · exact absurd ⟨hnext, hk⟩ hclosed
    · exact hgen
  have hgoes : q.Goes F sub u ↔ q.Goes F sub u' := goes_agree h.token hopen
  -- the iterators that the sub-command finds are in step
  have hbegun : Paced rpHash (shelf F u b) u.token u'.token
        (u.iter.begun sub u.token.generation) (u'.iter.begun sub u'.token.generation) ∧
      (u.iter.begun sub u.token.generation).gen = u.token.generation ∧
      (u'.iter.begun sub u'.token.generation).gen = u'.token.generation := by
    rw [IterState.begun, IterState.begun, keptFor_gen, keptFor_gen]
    by_cases hsub : sub ≠ subEnumRpsGetNext ∧ sub ≠ subEnumCredsGetNext
    · rw [if_pos hsub, if_pos hsub]
      exact ⟨.inl ⟨keptFor_idle hsub.1 hsub.2, keptFor_idle hsub.1 hsub.2⟩, rfl, rfl⟩
    · rw [if_neg hsub, if_neg hsub]
      exact ⟨hp.keptFor sub, hopen hsub⟩
  obtain ⟨hsame, hpaced⟩ := sub_agree h.shelf h.token q sub hbegun.2 hbegun.1
  have both : v.token.inUse = true → v'.token.inUse = true → q.Goes F sub u →
      a' = a ∧ Paced rpHash (shelf F u b) v.token v'.token v.iter v'.iter := by
    intro hin hin' hgo
    obtain ⟨rfl, hi⟩ := Prod.mk.inj (h₁.went hin hgo)
    obtain ⟨rfl, hi'⟩ := Prod.mk.inj (h₂.went hin' (hgoes.mp hgo))
    rw [hi, hi']
    exact ⟨hsame, hpaced.goes (h₁.token hin) (h₂.token hin')⟩
  constructor
  · intro hok hok'
    have hgo : v.token.inUse = true ∧ q.Goes F sub u := by
      by_contra hno
      exact (h₁.stayed hno).1 hok
    have hgo' : v'.token.inUse = true ∧ q.Goes F sub u' := by
      by_contra hno
      exact (h₂.stayed hno).1 hok'
    exact (both hgo.1 hgo'.1 hgo.2).1
  · intro hin hin'
    by_cases hgo : q.Goes F sub u
    · obtain ⟨rfl, hpaced⟩ := both hin hin' hgo
      exact ⟨Iff.rfl, hpaced⟩
    · obtain ⟨hcode, hi⟩ := h₁.stayed fun h => hgo h.2
      obtain ⟨hcode', hi'⟩ := h₂.stayed fun h => hgo (hgoes.mpr h.2)
      refine ⟨⟨fun hok => absurd hok hcode, fun hok => absurd hok hcode'⟩, ?_⟩
      rw [hi, hi']
      by_cases hsub : sub ≠ subEnumRpsGetNext ∧ sub ≠ subEnumCredsGetNext
      · rw [if_pos hsub, if_pos hsub]
        exact hp.goes (h₁.token hin) (h₂.token hin')
      · rw [if_neg hsub, if_neg hsub]
        exact .inl ⟨rfl, rfl⟩

/-- A deletion, on both devices. -/
theorem erases_agree (h : Alike F rpHash u b u' b')
    (hp : Paced rpHash (shelf F u b) u.token u'.token u.iter u'.iter) {q : CmReq}
    (h₁ : Erases F q u b a v d) (h₂ : Erases F q u' b' a' v' d') :
    (a.code = Status.ok.code → a'.code = Status.ok.code → a' = a) ∧
      (v.token.inUse = true → v'.token.inUse = true →
        Paced rpHash (shelf F v d) v.token v'.token v.iter v'.iter) := by
  have hgoes : q.Goes F subDeleteCredential u ↔ q.Goes F subDeleteCredential u' :=
    goes_agree h.token fun hno => absurd (by decide) hno
  constructor
  · intro hok hok'
    obtain ⟨st, rfl⟩ := h₁.status
    obtain ⟨st', rfl⟩ := h₂.status
    have hst : st = .ok := by
      by_contra hne
      exact code_status hne hok
    have hst' : st' = .ok := by
      by_contra hne
      exact code_status hne hok'
    rw [hst, hst']
  · intro hin hin'
    by_cases hgo : q.Goes F subDeleteCredential u
    · exact .inl ⟨h₁.went hin hgo, h₂.went hin' (hgoes.mp hgo)⟩
    · obtain ⟨-, hi, hr⟩ := h₁.stayed fun h => hgo h.2
      obtain ⟨-, hi', -⟩ := h₂.stayed fun h => hgo (hgoes.mpr h.2)
      rw [hr.shelf, hi, hi']
      exact hp.goes (h₁.token hin) (h₂.token hin')

theorem taken_agree (h : Alike F rpHash u b u' b')
    (hp : Paced rpHash (shelf F u b) u.token u'.token u.iter u'.iter)
    (h₁ : Taken F r u b a v d) (h₂ : Taken F r u' b' a' v' d') :
    (a.code = Status.ok.code → a'.code = Status.ok.code → a' = a) ∧
      (v.token.inUse = true → v'.token.inUse = true →
        (¬r.Deletes → (a.code = Status.ok.code ↔ a'.code = Status.ok.code)) ∧
          Paced rpHash (shelf F v d) v.token v'.token v.iter v'.iter) := by
  rw [Taken] at h₁ h₂
  cases hasks : r.asksCm with
  | none =>
      rw [hasks] at h₁ h₂
      obtain ⟨rfl, hi, ht, hr⟩ := h₁
      obtain ⟨rfl, hi', ht', -⟩ := h₂
      refine ⟨fun _ _ => rfl, fun _ _ => ⟨fun _ => Iff.rfl, ?_⟩⟩
      rw [hr.shelf, hi, hi', ht, ht']
      exact hp
  | some asked =>
      obtain ⟨q, sub⟩ := asked
      rw [hasks] at h₁ h₂
      dsimp only at h₁ h₂
      by_cases hdel : sub = subDeleteCredential
      · subst hdel
        rw [if_pos rfl] at h₁ h₂
        obtain ⟨hsame, hpaced⟩ := erases_agree h hp h₁ h₂
        exact ⟨hsame, fun hin hin' => ⟨fun hno => absurd ⟨q, hasks⟩ hno, hpaced hin hin'⟩⟩
      · rw [if_neg hdel] at h₁ h₂
        obtain ⟨hsame, hboth⟩ := outcome_agree h hp h₁.2 h₂.2
        refine ⟨hsame, fun hin hin' => ?_⟩
        rw [h₁.1.shelf]
        exact ⟨fun _ => (hboth hin hin').1, (hboth hin hin').2⟩

end Step

/-- What the device answers to a request, if it does. -/
def Device.answer (F : FidoPrims) (d : Device) (r : Request) (fs : List BoardFate) :
    Option Answer :=
  match d.ram with
  | none => none
  | some u =>
      match run (fidoBoard F) ((fidoHidCborDispatch F r).run u) fs d.board with
      | .done (a, _) _ => some a
      | .cut _ => none

/-- The device is on and has a token in use. -/
def Device.HasToken (d : Device) : Prop := ∃ u, d.ram = some u ∧ u.token.inUse = true

/-- No enumeration of the credential management is open. -/
def Device.NoEnumeration (d : Device) : Prop := ∀ u, d.ram = some u → u.iter.kind = .none

/-- Both devices are on, under the same bound token, and agree on the RP. -/
def Device.Alike (F : FidoPrims) (rpHash : Bytes) (d d' : Device) : Prop :=
  ∃ u u', d.ram = some u ∧ d'.ram = some u' ∧ Fido.Alike F rpHash u d.board u' d'.board

/-- A request that both devices get, with the fates of the calls on each. -/
structure TwinRequest where
  request : Request
  fates : List BoardFate
  fates' : List BoardFate

def TwinRequest.Calm (a : TwinRequest) : Prop :=
  (∀ f ∈ a.fates, CalmBoard f) ∧ ∀ f ∈ a.fates', CalmBoard f

/-- Two devices that get the same requests. -/
def twins (F : FidoPrims) (d d' : Device) : System (Device × Device) TwinRequest where
  init := (d, d')
  step p a := (p.1.step F (.request a.request a.fates), p.2.step F (.request a.request a.fates'))

section Twins

variable {F : FidoPrims} {rpHash : Bytes}

theorem twins_nil (d d' : Device) : (twins F d d').run [] = (d, d') := rfl

/-- A device that nothing happens to answers. -/
theorem device_answers {d : Device} {u : FidoRam} (hu : d.ram = some u) {r : Request}
    {fs : List BoardFate} (hfs : ∀ f ∈ fs, CalmBoard f) {Q : Answer → FidoRam → Board Note → Prop}
    (h : swp (fidoBoard F) CalmBoard (fidoHidCborDispatch F r) Q (fun _ => True) u d.board) :
    ∃ a u' b', d.answer F r fs = some a ∧ d.step F (.request r fs) = ⟨some u', b'⟩ ∧ Q a u' b' := by
  have hrun := run_of_swp calm_quiet
    (swp_and h (swp_uncut (fun f hf o b => calm_uncut hf o b) _ u d.board)) hfs
  rcases d with ⟨ram, b⟩
  subst hu
  simp only [Device.answer, Device.step]
  cases hout : run (fidoBoard F) ((fidoHidCborDispatch F r).run u) fs b with
  | done x b' =>
      rw [hout] at hrun
      exact ⟨x.1, x.2, b', rfl, rfl, hrun.1⟩
  | cut b' =>
      rw [hout] at hrun
      exact hrun.2.elim

/-- What both iterators come to, while the devices are alike. -/
def InStep (F : FidoPrims) (rpHash : Bytes) (p : Device × Device) : Prop :=
  ∀ u u', p.1.ram = some u → p.2.ram = some u' → Alike F rpHash u p.1.board u' p.2.board →
    Paced rpHash (shelf F u p.1.board) u.token u'.token u.iter u'.iter

theorem inStep_step {d d' : Device} {p : Device × Device} {a : TwinRequest}
    (hp : InStep F rpHash p) (halike : p.1.Alike F rpHash p.2) (ha : a.Calm) :
    InStep F rpHash ((twins F d d').step p a) := by
  obtain ⟨u, u', hu, hu', h⟩ := halike
  have hpaced := hp u u' hu hu' h
  cases hr : a.request.command.isCredentialMgmt with
  | false =>
      obtain ⟨x, w, e, -, hstep, hx⟩ := device_answers hu ha.1 (swp_otherPayload hr)
      obtain ⟨x', w', e', -, hstep', hx'⟩ := device_answers hu' ha.2 (swp_otherPayload hr)
      have hboth : (twins F d d').step p a = (⟨some w, e⟩, ⟨some w', e'⟩) := Prod.ext hstep hstep'
      rw [hboth]
      rintro _ _ ⟨⟩ ⟨⟩ -
      split at hx
      · rename_i hempty
        rw [if_pos hempty] at hx'
        rw [hx.2.2.shelf, hx.1, hx.2.1, hx'.1, hx'.2.1]
        exact hpaced
      · rename_i hempty
        rw [if_neg hempty] at hx'
        exact .inl ⟨hx, hx'⟩
  | true =>
      obtain ⟨c, valid, hreq⟩ := eq_credentialMgmt hr
      obtain ⟨x, w, e, -, hstep, hx⟩ := device_answers hu ha.1 (hreq ▸ swp_taken h.ready c valid)
      obtain ⟨x', w', e', -, hstep', hx'⟩ :=
        device_answers hu' ha.2 (hreq ▸ swp_taken h.ready' c valid)
      have hboth : (twins F d d').step p a = (⟨some w, e⟩, ⟨some w', e'⟩) := Prod.ext hstep hstep'
      rw [hboth]
      rintro _ _ ⟨⟩ ⟨⟩ hafter
      have htoken := hafter.token
      exact ((taken_agree h hpaced hx hx').2 htoken.bound.inUse htoken.bound'.inUse).2

theorem inStep_run {d d' : Device} (hd : d.NoEnumeration) (hd' : d'.NoEnumeration)
    {acts : List TwinRequest} (hacts : ∀ a ∈ acts, a.Calm)
    (halike : ∀ pre a, pre ++ [a] <+: acts →
      ((twins F d d').run pre).1.Alike F rpHash ((twins F d d').run pre).2) :
    InStep F rpHash ((twins F d d').run acts) := by
  apply System.run_keeps_of (C := fun p a => p.1.Alike F rpHash p.2 ∧ a.Calm)
  · exact fun u u' hu hu' _ => .inl ⟨hd u hu, hd' u' hu'⟩
  · exact fun p a hp h => inStep_step hp h.1 h.2
  · intro pre a hpre
    exact ⟨halike pre a hpre, hacts a (hpre.subset (by simp))⟩

end Twins

/-- Whatever becomes of the payload, it tells of the credentials of the RP only
and touches no other. -/
structure StaysInside (F : FidoPrims) (rpHash : Bytes) (u : FidoRam) (b : Board Note)
    (c : Except Status CmReq) (valid : Bool) (fs : List BoardFate) : Prop where
  ends : (run (fidoBoard F)
    ((fidoHidCborDispatch F ⟨.credentialMgmt c, valid⟩).run u) fs b).Satisfies
    (fun x b' => x.1.OnlyOf (shelf F u b) rpHash ∧ Spares F (shelf F u b) rpHash b b')
    (fun b' => Spares F (shelf F u b) rpHash b b')

/-- A management token that is bound to an RP stays inside it. At any time, a
payload of the credential management tells of the credentials of that RP only
and touches no other, also where calls fail or the power goes. And two devices
that agree on the RP cannot be told apart by what they both answer with OK, from
the command that left the token bound on. -/
theorem bound_token_confined (F : FidoPrims) (rpHash : Bytes) :
    (∀ (b : Board Note) (acts : List Action) (u : FidoRam) (c : Except Status CmReq) (valid : Bool)
        (fs : List BoardFate), (∀ a ∈ acts, a.Within (Honest F)) →
      ((device F b).run acts).ram = some u → u.token.BoundTo rpHash → (∀ f ∈ fs, Honest F f) →
      StaysInside F rpHash u ((device F b).run acts).board c valid fs) ∧
    ∀ (d d' : Device) (acts : List TwinRequest), d.NoEnumeration → d'.NoEnumeration →
      (∀ a ∈ acts, a.Calm) →
      (∀ pre a, pre ++ [a] <+: acts →
        ((twins F d d').run pre).1.Alike F rpHash ((twins F d d').run pre).2) →
      ∀ pre a c valid, pre ++ [a] <+: acts → a.request = ⟨.credentialMgmt c, valid⟩ →
        ∃ x x', ((twins F d d').run pre).1.answer F a.request a.fates = some x ∧
          ((twins F d d').run pre).2.answer F a.request a.fates' = some x' ∧
          (x.code = Status.ok.code → x'.code = Status.ok.code → x' = x) ∧
          (((twins F d d').run (pre ++ [a])).1.HasToken →
            ((twins F d d').run (pre ++ [a])).2.HasToken → ¬a.request.Deletes →
            (x.code = Status.ok.code ↔ x'.code = Status.ok.code)) := by
  constructor
  · intro b acts u c valid fs hacts hu hbound hfs
    have hkempt := kempt_run F b hacts rfl hu
    have hquiet : Honest F (fidoBoard F).quiet := trivial
    have h := run_of_swp hquiet (held_payload (fun _ h => h) hkempt c valid) hfs
    constructor
    cases hrun : run (fidoBoard F) ((fidoHidCborDispatch F ⟨.credentialMgmt c, valid⟩).run u) fs
        ((device F b).run acts).board with
    | done x b' =>
        rw [hrun] at h
        exact ⟨h.only rpHash hbound, h.spares rpHash hbound⟩
    | cut b' =>
        rw [hrun] at h
        exact h rpHash hbound
  · intro d d' acts hd hd' hacts halike pre a c valid hpre hreq
    have hcalm := hacts a (hpre.subset (by simp))
    have hstep : InStep F rpHash ((twins F d d').run pre) := by
      apply inStep_run hd hd'
      · exact fun a ha => hacts a (hpre.subset (List.mem_append_left _ ha))
      · exact fun pre' a' h => halike pre' a' (h.trans ((List.prefix_append pre [a]).trans hpre))
    obtain ⟨u, u', hu, hu', h⟩ := halike pre a hpre
    obtain ⟨x, v, e, hx, hv, htaken⟩ :=
      device_answers hu hcalm.1 (hreq ▸ swp_taken h.ready c valid)
    obtain ⟨x', v', e', hx', hv', htaken'⟩ :=
      device_answers hu' hcalm.2 (hreq ▸ swp_taken h.ready' c valid)
    obtain ⟨hsame, hboth⟩ := taken_agree h (hstep u u' hu hu' h) htaken htaken'
    refine ⟨x, x', hx, hx', hsame, ?_⟩
    have hafter : (twins F d d').run (pre ++ [a]) = (⟨some v, e⟩, ⟨some v', e'⟩) := by
      rw [System.run_concat]
      exact Prod.ext hv hv'
    rw [hafter]
    rintro ⟨_, ⟨⟩, hin⟩ ⟨_, ⟨⟩, hin'⟩ hdel
    exact (hboth hin hin').1 hdel

/-! ### Two runs of the model -/

/-- A passkey of one RP and one of another, a PIN, and a token that is bound to
the first RP. -/
def demoBoundTo (other : UInt8) : List Action :=
  let stored : List Action :=
    [.powerUp [], .request (demoMake 1 1) [], .request (demoMake other 1) []]
  stored ++ [.request ((device mixFido blankBoard).run stored).demoSetPin [],
    .request (demoGetToken puatPermCm (some [1])) []]

def demoTwin (other : UInt8) : Device := (device mixFido blankBoard).run (demoBoundTo other)

def demoTwinRam (other : UInt8) : FidoRam := (demoTwin other).ram.getD .boot

def demoRp : Bytes := mixFido.chip.sha256 [1]

/-- The credentials of the first RP, one by one. -/
def demoListRp : CmReq where
  sub := some subEnumCredsBegin
  params := []
  protocol := some 1
  pinAuth := some (tokenMac mixFido (demoTwin 2).demoToken [UInt8.ofNat subEnumCredsBegin])
  rpHash := .ok demoRp
  credId := .error .missingParameter

def demoTwinRequest : TwinRequest := ⟨⟨.credentialMgmt (.ok demoListRp), true⟩, [], []⟩

theorem demoBoundTo_within : ∀ a ∈ demoBoundTo 2, a.Within (Honest mixFido) := by
  intro a ha
  simp only [demoBoundTo, List.mem_append, List.mem_cons, List.not_mem_nil, or_false] at ha
  rcases ha with (rfl | rfl | rfl) | rfl | rfl <;> exact fun _ hf => nomatch hf

/-- What the two devices are checked for. -/
theorem demoTwins_facts :
    ((device mixFido blankBoard).run (demoBoundTo 2)).ram = some (demoTwinRam 2) ∧
      (demoTwin 3).ram = some (demoTwinRam 3) ∧
      (∀ other ∈ [(2 : UInt8), 3], (demoTwinRam other).ready = true ∧
        (demoTwinRam other).iter.kind = .none ∧ (demoTwinRam other).token.BoundTo demoRp ∧
        ((demoTwin other).answer mixFido demoTwinRequest.request []).map Answer.code =
          some Status.ok.code) ∧
      (demoTwinRam 3).token = (demoTwinRam 2).token ∧
      (shelf mixFido (demoTwinRam 3) (demoTwin 3).board).creds demoRp =
        (shelf mixFido (demoTwinRam 2) (demoTwin 2).board).creds demoRp ∧
      ∀ e ∈ (shelf mixFido (demoTwinRam 2) (demoTwin 2).board).creds demoRp,
        (shelf mixFido (demoTwinRam 3) (demoTwin 3).board).pub e.1 =
          (shelf mixFido (demoTwinRam 2) (demoTwin 2).board).pub e.1 := by
  decide +kernel

theorem demoTwins_quiet : (demoTwin 2).NoEnumeration ∧ (demoTwin 3).NoEnumeration := by
  obtain ⟨hon, hon', hboth, -⟩ := demoTwins_facts
  constructor
  · intro u hu
    obtain rfl := Option.some.inj (hon.symm.trans hu)
    exact (hboth 2 (by simp)).2.1
  · intro u hu
    obtain rfl := Option.some.inj (hon'.symm.trans hu)
    exact (hboth 3 (by simp)).2.1

theorem demoTwinRequest_calm : ∀ a ∈ [demoTwinRequest], a.Calm := by
  intro a ha
  rw [List.mem_singleton] at ha
  subst ha
  exact ⟨nofun, nofun⟩

theorem demoTwins_alike : (demoTwin 2).Alike mixFido demoRp (demoTwin 3) := by
  obtain ⟨hon, hon', hboth, htoken, hcreds, hpub⟩ := demoTwins_facts
  obtain ⟨hready, -, hbound, -⟩ := hboth 2 (by simp)
  obtain ⟨hready', -, hbound', -⟩ := hboth 3 (by simp)
  exact ⟨_, _, hon, hon', hready, hready',
    ⟨hbound, hbound', congrArg Token.token htoken, congrArg Token.perms htoken⟩, hcreds, hpub⟩

theorem demoTwins_alike_run : ∀ pre a, pre ++ [a] <+: [demoTwinRequest] →
    ((twins mixFido (demoTwin 2) (demoTwin 3)).run pre).1.Alike mixFido demoRp
      ((twins mixFido (demoTwin 2) (demoTwin 3)).run pre).2 := by
  intro pre a hpre
  have hnil : pre = [] := by
    have hlen := hpre.length_le
    simp only [List.length_append, List.length_cons, List.length_nil] at hlen
    exact List.eq_nil_of_length_eq_zero (by omega)
  rw [hnil, twins_nil]
  dsimp only
  exact demoTwins_alike

theorem same_of_ok {o o' : Option Answer} {P : Answer → Answer → Prop}
    (h : ∃ x x', o = some x ∧ o' = some x' ∧
      (x.code = Status.ok.code → x'.code = Status.ok.code → x' = x) ∧ P x x')
    (hok : o.map Answer.code = some Status.ok.code)
    (hok' : o'.map Answer.code = some Status.ok.code) :
    ∃ x, o = some x ∧ o' = some x ∧ x.code = Status.ok.code := by
  obtain ⟨x, x', rfl, rfl, hsame, -⟩ := h
  have hcode : x.code = Status.ok.code := Option.some.inj hok
  exact ⟨x, rfl, congrArg some (hsame hcode (Option.some.inj hok')), hcode⟩

theorem bound_token_confined_demo :
    StaysInside mixFido demoRp (demoTwinRam 2)
      ((device mixFido blankBoard).run (demoBoundTo 2)).board
        (.ok demoListRp) true [] ∧
      ∃ x, (demoTwin 2).answer mixFido demoTwinRequest.request demoTwinRequest.fates = some x ∧
        (demoTwin 3).answer mixFido demoTwinRequest.request demoTwinRequest.fates' = some x ∧
          x.code = Status.ok.code := by
  obtain ⟨hon, -, hboth, -⟩ := demoTwins_facts
  constructor
  · exact (bound_token_confined mixFido demoRp).1 blankBoard (demoBoundTo 2) (demoTwinRam 2)
      (.ok demoListRp) true [] demoBoundTo_within hon (hboth 2 (by simp)).2.2.1
        (List.forall_mem_nil _)
  · have h := (bound_token_confined mixFido demoRp).2 (demoTwin 2) (demoTwin 3) [demoTwinRequest]
      demoTwins_quiet.1 demoTwins_quiet.2 demoTwinRequest_calm demoTwins_alike_run
        [] demoTwinRequest
      (.ok demoListRp) true List.prefix_rfl rfl
    rw [twins_nil] at h
    dsimp only at h
    exact same_of_ok h (hboth 2 (by simp)).2.2.2 (hboth 3 (by simp)).2.2.2

end Nixtropic.Fido
