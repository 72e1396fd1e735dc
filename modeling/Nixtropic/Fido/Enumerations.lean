import Nixtropic.Fido.TimedCommands
import Nixtropic.Runs.System

/-!
The enumerations of the credential management are strict.

The Begin of an enumeration is authorised by a token, and its GetNext commands
carry none. `Begun` reads off the notes that such a Begin was authorised and
what came since; the iterator and the generation of the token are one way of
remembering it.
-/

namespace Nixtropic.Fido

open Crash Runs

/-! ### Enumerations in the notes -/

/-- The payload that was dispatched last. -/
def asked : History → Option Request
  | [] => none
  | e :: es =>
      match e.note with
      | .request r => some r
      | _ => asked es

/-- The sub-command of a credential-management request that was parsed. -/
def Request.cmSub (r : Request) : Option ℕ :=
  match r.command with
  | .credentialMgmt (.ok q) => q.sub
  | _ => none

def IterKind.beginSub : IterKind → Option ℕ
  | .none => Option.none
  | .rps => some subEnumRpsBegin
  | .creds => some subEnumCredsBegin

def IterKind.nextSub : IterKind → Option ℕ
  | .none => Option.none
  | .rps => some subEnumRpsGetNext
  | .creds => some subEnumCredsGetNext

theorem cmSub_credentialMgmt (q : CmReq) (valid : Bool) :
    (⟨.credentialMgmt (.ok q), valid⟩ : Request).cmSub = q.sub := rfl

theorem nextSub_inj {k k' : IterKind} {sub : ℕ} (h : k.nextSub = some sub)
    (h' : k'.nextSub = some sub) : k = k' := by
  rw [← h'] at h
  cases k <;> cases k' <;> first | rfl | exact absurd h (by decide)

theorem exists_nextSub {sub : ℕ} (h : ¬(sub ≠ subEnumRpsGetNext ∧ sub ≠ subEnumCredsGetNext)) :
    ∃ k : IterKind, k.nextSub = some sub := by
  by_cases hrps : sub = subEnumRpsGetNext
  · exact ⟨.rps, congrArg some hrps.symm⟩
  · have hcreds : sub = subEnumCredsGetNext := not_not.mp fun h' => h ⟨hrps, h'⟩
    exact ⟨.creds, congrArg some hcreds.symm⟩

theorem ne_of_nextSub {k : IterKind} {sub : ℕ} (hrps : sub ≠ subEnumRpsGetNext)
    (hcreds : sub ≠ subEnumCredsGetNext) : k.nextSub ≠ some sub := by
  cases k with
  | none => nofun
  | rps => exact fun h => hrps (Option.some.inj h).symm
  | creds => exact fun h => hcreds (Option.some.inj h).symm

/-- A Begin of this kind was authorised with the token in force. Since then
the token was neither replaced nor spent, and no payload was dispatched but
the GetNext of this kind. -/
inductive Begun (F : FidoPrims) (k : IterKind) (token : Bytes) : History → Prop where
  | verified {e : Entry Note} {es : History} {q : CmReq} {sub : ℕ} {l : Live}
      (hr : asked es = some ⟨.credentialMgmt (.ok q), true⟩) (hsub : q.sub = some sub)
      (hk : k.beginSub = some sub) (hl : liveOf es = some l) (htoken : l.token = token)
      (hn : e.note = .puatVerify (some (tokenMac F token (UInt8.ofNat sub :: q.params)))
        (UInt8.ofNat sub :: q.params) true) :
      Begun F k token (e :: es)
  | later {e : Entry Note} {es : History} (h : Begun F k token es)
      (hends : e.note.endsToken = false) (hspends : e.note.spends = false)
      (hr : ∀ r, e.note = .request r → r.cmSub = k.nextSub) : Begun F k token (e :: es)

/-- The token behind the Begin is the one in force, and it holds cm. -/
def Running (F : FidoPrims) (k : IterKind) (es : History) : Prop :=
  ∃ l, Begun F k l.token es ∧ liveOf es = some l ∧ l.spent = false ∧
    l.perms &&& puatPermCm = puatPermCm

/-- What an answer may be, after the other notes. -/
def Note.Strict (F : FidoPrims) (n : Note) (es : History) : Prop :=
  match n with
  | .answer r a => ∀ k sub, k.nextSub = some sub → r.cmSub = some sub →
      a.code = Status.ok.code → Running F k es
  | _ => True

/-- Every GetNext of an enumeration that answered OK continued its own Begin. -/
inductive Strict (F : FidoPrims) : History → Prop where
  | nil : Strict F []
  | cons {e : Entry Note} {es : History} (hn : e.note.Strict F es) (h : Strict F es) :
      Strict F (e :: es)

/-! ### Which payloads the iterator notices -/

/-- An entry of the enumeration is left. -/
def IterState.Left (i : IterState) : Prop :=
  match i.kind with
  | .none => False
  | .rps => i.rpPos < i.rpSlots.length
  | .creds => i.credPos < i.credSlots.length

/-- The variables let the enumeration go on. -/
structure FidoRam.Enumerating (u : FidoRam) : Prop where
  left : u.iter.Left
  gen : u.iter.gen = u.token.generation
  cm : u.token.hasPerm puatPermCm = true

/-- The request carries what `check_cm_token` asks for. -/
structure CmReq.Authorised (F : FidoPrims) (token : Bytes) (q : CmReq) (sub : ℕ) : Prop where
  protocol : q.protocol = some 1
  params : q.params.length ≤ cmParamsMax
  pinAuth : q.pinAuth = some (tokenMac F token (UInt8.ofNat sub :: q.params))

/-- The payload gets as far as the resets of the iterator. -/
def Request.Noticed (F : FidoPrims) (token : Bytes) (r : Request) : Prop :=
  match r.command with
  | .empty => False
  | .credentialMgmt c => r.cborValid = true ∧ ∃ q sub, c = .ok q ∧ q.sub = some sub ∧
      (sub = subEnumRpsGetNext ∨ sub = subEnumCredsGetNext ∨ q.Authorised F token sub)
  | _ => True

/-- While an enumeration is open, every payload is one that is noticed. -/
def Device.Notices (F : FidoPrims) (d : Device) : Action → Prop
  | .powerUp _ => True
  | .request r _ => ∀ u, d.ram = some u → u.ready = true → u.Enumerating →
      r.Noticed F u.token.token

/-- The enumeration that the variables let go on is the one in the notes. -/
structure Enumerates (F : FidoPrims) (u : FidoRam) (b : Board Note) : Prop where
  running : u.ready = true → u.Enumerating → Running F u.iter.kind b.notes
  strict : Strict F b.notes

section Notes

variable {F : FidoPrims} {k : IterKind} {e : Entry Note} {es : History} {u : FidoRam}
  {b : Board Note}

theorem live_after {l : Live} (hends : e.note.endsToken = false)
    (hspends : e.note.spends = false) : ∃ l', Live.after e (some l) = some l' ∧
      l'.token = l.token ∧ l'.spent = l.spent ∧ l'.perms = l.perms := by
  rcases e with ⟨n, t, rmem, ecc⟩
  cases n with
  | powerUp => cases hends
  | puatReset => cases hends
  | puatBegin token perms rp => cases hends
  | puatConsume => cases hspends
  | puatVerify param msg ok => cases ok <;> exact ⟨_, rfl, rfl, rfl, rfl⟩
  | _ => exact ⟨_, rfl, rfl, rfl, rfl⟩

theorem Running.cons (h : Running F k es) (hends : e.note.endsToken = false)
    (hspends : e.note.spends = false)
    (hr : ∀ r, e.note = .request r → r.cmSub = k.nextSub) : Running F k (e :: es) := by
  obtain ⟨l, hbegun, hlive, hspent, hperms⟩ := h
  obtain ⟨l', hafter, htoken, hspent', hperms'⟩ := live_after (l := l) hends hspends
  refine ⟨l', ?_, ?_, hspent'.trans hspent, by rw [hperms', hperms]⟩
  · rw [htoken]
    exact hbegun.later hends hspends hr
  · rw [liveOf, hlive, hafter]

/-- An answer that is no OK to a GetNext. -/
theorem enumerates_answer {r : Request} {a : Answer}
    (hno : ∀ k sub, k.nextSub = some sub → r.cmSub = some sub → a.code = Status.ok.code →
      Running F k b.notes)
    (hrun : u.ready = true → u.Enumerating → Running F u.iter.kind b.notes)
    (hs : Strict F b.notes) : Enumerates F u (b.jot (.answer r a)) :=
  ⟨fun hready he => (hrun hready he).cons rfl rfl (fun _ h => by cases h), .cons hno hs⟩

theorem not_enumerating (h : u.iter.kind = .none) : ¬u.Enumerating := by
  intro he
  have hleft := he.left
  rw [IterState.Left, h] at hleft
  exact hleft

end Notes

/-! ### Reading the store -/

section Commands

variable {F : FidoPrims} {A : BoardFate → Prop} {u : FidoRam} {b : Board Note}
  {C : Board Note → Prop}

/-- Nothing but the chip. -/
def chipScope : Scope where
  rmem _ := True
  ecc _ := True
  ram u u' := u' = u
  note _ := False

theorem reading_ground (v : FidoRam) (es : History) :
    Ground chipScope (fun u b => u = v ∧ b.notes = es) (fun b => b.notes = es) where
  cut _ _ h := h.2
  chip _ _ _ _ h := h
  ecc _ _ _ _ _ h := h
  keygen _ _ _ _ _ h := h
  counter _ _ _ h := h
  wait _ _ _ h := h
  note _ _ _ hn := hn.elim
  ram _ _ _ hu h := ⟨hu.trans h.1, h.2⟩

/-- A program that only reads. -/
theorem swp_reading {α : Type} {m : FidoM α} {Q : α → FidoRam → Board Note → Prop}
    {es : History}
    (hm : Keeps (fidoBoard F) A (fun u' b' => u' = u ∧ b'.notes = es) (fun b' => b'.notes = es) m)
    (hb : b.notes = es) (hQ : ∀ a b', b'.notes = es → Q a u b') (hC : ∀ b', b'.notes = es → C b') :
    swp (fidoBoard F) A m Q C u b := by
  apply swp_mono (hm u b ⟨rfl, hb⟩) _ hC
  rintro a _ b' ⟨rfl, h⟩
  exact hQ a b' h

/-- The variables with another iterator. -/
def FidoRam.setIter (u : FidoRam) (i : IterState) : FidoRam := { u with iter := i }

@[simp] theorem setIter_token (i : IterState) : (u.setIter i).token = u.token := rfl
@[simp] theorem setIter_iter (i : IterState) : (u.setIter i).iter = i := rfl

theorem swp_setIter {f : IterState → IterState} {Q : PUnit → FidoRam → Board Note → Prop}
    (h : Q ⟨⟩ (u.setIter (f u.iter)) b) : swp (fidoBoard F) A (setIter f) Q C u b := h

/-- What a Begin does to the iterator, and to nothing else. -/
def Begins (k : IterKind) (es : History) (u : FidoRam) (b : Board Note) : Prop :=
  (u.iter.kind = .none ∨ u.iter.kind = k) ∧ b.notes = es

theorem swp_doEnumRpsBegin {es : History} (hk : u.iter.kind = .none) (hb : b.notes = es) :
    swp (fidoBoard F) A doEnumRpsBegin (fun _ u' b' => Begins .rps es u' b')
      (fun b' => b'.notes = es) u b := by
  rw [doEnumRpsBegin, swp_bind, swp_get]
  split
  · exact ⟨.inl hk, hb⟩
  rw [swp_bind]
  apply swp_reading (keeps_buildRpList (reading_ground u es).readCred) hb _ fun _ h => h
  intro slots b₁ h₁
  rw [swp_bind]
  apply swp_setIter
  split
  · exact ⟨.inr rfl, h₁⟩
  rw [swp_bind]
  apply swp_reading (keeps_writeRpEntry (reading_ground _ es).readCred _ _) h₁ _ fun _ h => h
  intro a b₂ h₂
  rw [swp_bind]
  apply swp_setIter
  exact ⟨.inr rfl, h₂⟩

theorem swp_doEnumCredsBegin {es : History} (rpHash : Except Status Bytes)
    (hk : u.iter.kind = .none) (hb : b.notes = es) :
    swp (fidoBoard F) A (doEnumCredsBegin rpHash) (fun _ u' b' => Begins .creds es u' b')
      (fun b' => b'.notes = es) u b := by
  cases rpHash with
  | error s => exact ⟨.inl hk, hb⟩
  | ok rpHash =>
      rw [doEnumCredsBegin, swp_bind, swp_get]
      split
      · rw [swp_bind]
        apply swp_setIter
        rw [swp_bind]
        apply swp_reading (keeps_buildCredListForRp (reading_ground _ es).readCred _) hb _
          fun _ h => h
        intro slots b₁ h₁
        rw [swp_bind]
        apply swp_setIter
        split
        · exact ⟨.inr rfl, h₁⟩
        rw [swp_bind]
        apply swp_reading (keeps_writeCredEntry (reading_ground _ es).readCred
          (reading_ground _ es).pubkeyRead _ _) h₁ _ fun _ h => h
        intro a b₂ h₂
        rw [swp_bind]
        apply swp_setIter
        exact ⟨.inr rfl, h₂⟩
      · exact ⟨.inl hk, hb⟩

/-- A GetNext answers only while its enumeration has an entry left. -/
theorem swp_doEnumRpsNext {es : History} (hb : b.notes = es) :
    swp (fidoBoard F) A doEnumRpsNext
      (fun a u' b' => b'.notes = es ∧ u'.iter.kind = u.iter.kind ∧ u'.token = u.token ∧
        u'.iter.gen = u.iter.gen ∧ (u'.iter.Left → u.iter.Left) ∧
        (a.code = Status.ok.code → u.iter.kind = .rps ∧ u.iter.Left))
      (fun b' => b'.notes = es) u b := by
  rw [doEnumRpsNext, swp_bind, swp_get]
  dsimp only
  split
  · exact ⟨hb, rfl, rfl, rfl, id, fun hok => absurd hok code_notAllowed⟩
  rename_i hgo
  have hkind : u.iter.kind = .rps := by
    by_contra hne
    exact hgo (.inl hne)
  have hleft : u.iter.Left := by
    rw [IterState.Left, hkind]
    exact Nat.lt_of_not_le fun h => hgo (.inr h)
  rw [swp_bind]
  apply swp_reading (keeps_writeRpEntry (reading_ground u es).readCred _ _) hb _ fun _ h => h
  intro a b₁ h₁
  rw [swp_bind]
  apply swp_setIter
  exact ⟨h₁, rfl, rfl, rfl, fun _ => hleft, fun _ => ⟨hkind, hleft⟩⟩

theorem swp_doEnumCredsNext {es : History} (hb : b.notes = es) :
    swp (fidoBoard F) A doEnumCredsNext
      (fun a u' b' => b'.notes = es ∧ u'.iter.kind = u.iter.kind ∧ u'.token = u.token ∧
        u'.iter.gen = u.iter.gen ∧ (u'.iter.Left → u.iter.Left) ∧
        (a.code = Status.ok.code → u.iter.kind = .creds ∧ u.iter.Left))
      (fun b' => b'.notes = es) u b := by
  rw [doEnumCredsNext, swp_bind, swp_get]
  dsimp only
  split
  · exact ⟨hb, rfl, rfl, rfl, id, fun hok => absurd hok code_notAllowed⟩
  rename_i hgo
  have hkind : u.iter.kind = .creds := by
    by_contra hne
    exact hgo (.inl hne)
  have hleft : u.iter.Left := by
    rw [IterState.Left, hkind]
    exact Nat.lt_of_not_le fun h => hgo (.inr h)
  rw [swp_bind]
  apply swp_reading (keeps_writeCredEntry (reading_ground u es).readCred
    (reading_ground u es).pubkeyRead _ _) hb _ fun _ h => h
  intro a b₁ h₁
  rw [swp_bind]
  apply swp_setIter
  exact ⟨h₁, rfl, rfl, rfl, fun _ => hleft, fun _ => ⟨hkind, hleft⟩⟩

/-! ### The token -/

theorem hasPerm_live {t : Token} {now : ℕ} {l : Live} {perm : UInt8} (h : Tracks t now (some l))
    (hp : t.hasPerm perm = true) : l.spent = false ∧ l.perms &&& perm = perm := by
  obtain ⟨hin, -, -, -, hperms, -⟩ := h
  rw [Token.hasPerm, hin, hperms, Bool.true_and, Bool.and_eq_true, decide_eq_true_eq,
    decide_eq_true_eq] at hp
  obtain ⟨hmask, hne⟩ := hp
  cases hspent : l.spent with
  | true =>
      rw [hspent, if_pos rfl, UInt8.zero_and] at hmask
      exact absurd hmask.symm hne
  | false =>
      rw [hspent, if_neg Bool.false_ne_true] at hmask
      exact ⟨rfl, hmask⟩

theorem hasPerm_cleared (t : Token) (perm : UInt8) : t.cleared.hasPerm perm = false := rfl

/-- What `check_cm_token` finds out: the sub-command is authorised with a token
that holds cm, or no enumeration that was open is open still. -/
structure Checked (F : FidoPrims) (q : CmReq) (sub : ℕ) (u₀ : FidoRam) (rc : Status)
    (u : FidoRam) (b : Board Note) : Prop where
  iter : u.iter = u₀.iter
  strict : Strict F b.notes
  ok : rc = .ok → ∀ k, k.beginSub = some sub → Running F k b.notes
  refused : rc ≠ .ok → u.Enumerating → u₀.Enumerating ∧ ¬q.Authorised F u₀.token.token sub

/-- The request is refused before the token is looked at. -/
theorem swp_refusedEarly {q : CmReq} {sub : ℕ} {rc : Status} (hs : Strict F b.notes)
    (hrc : rc ≠ .ok) (hno : ¬q.Authorised F u.token.token sub) :
    swp (fidoBoard F) A (pure rc) (fun rc u' b' => Checked F q sub u rc u' b') C u b :=
  ⟨rfl, hs, fun h => absurd h hrc, fun _ he => ⟨he, hno⟩⟩

/-- The token verified, and it holds cm. -/
theorem running_verified {q : CmReq} {sub : ℕ} {k : IterKind} {t : Token} (hT : TimeInv u b)
    (hin : u.token.inUse = true) (hasked : asked b.notes = some ⟨.credentialMgmt (.ok q), true⟩)
    (hsub : q.sub = some sub) (hk : k.beginSub = some sub)
    (hv : Tracks t b.now (liveOf (b.jot (.puatVerify
      (some (tokenMac F u.token.token (UInt8.ofNat sub :: q.params)))
      (UInt8.ofNat sub :: q.params) true)).notes))
    (hperm : t.hasPerm puatPermCm = true) :
    Running F k (b.jot (.puatVerify (some (tokenMac F u.token.token (UInt8.ofNat sub :: q.params)))
      (UInt8.ofNat sub :: q.params) true)).notes := by
  have htracks := hT.token
  cases hl : liveOf b.notes with
  | none =>
      rw [hl] at htracks
      simp [htracks.1] at hin
  | some l =>
      rw [hl] at htracks
      have htoken : u.token.token = l.token := htracks.2.1
      rw [liveOf_jot, hl] at hv
      obtain ⟨hspent, hcm⟩ := hasPerm_live hv hperm
      rw [htoken]
      refine ⟨{ l with used := true }, .verified hasked hsub hk hl rfl rfl, ?_, hspent, hcm⟩
      rw [liveOf_jot, hl]
      rfl

theorem swp_checkCmToken {q : CmReq} {sub : ℕ} (hT : TimeInv u b)
    (hasked : asked b.notes = some ⟨.credentialMgmt (.ok q), true⟩) (hsub : q.sub = some sub)
    (hs : Strict F b.notes) :
    swp (fidoBoard F) A (checkCmToken q sub) (fun rc u' b' => Checked F q sub u rc u' b')
      (fun b' => Strict F b'.notes) u b := by
  rw [checkCmToken]
  cases hauth : q.pinAuth with
  | none =>
      show swp _ _ (pure Status.puatRequired) _ _ _ _
      exact swp_refusedEarly hs (by decide) fun h => absurd h.pinAuth (by simp [hauth])
  | some auth =>
  cases hproto : q.protocol with
  | none => exact swp_refusedEarly hs (by decide) fun h => absurd h.protocol (by simp [hproto])
  | some proto =>
  dsimp only
  split
  · rename_i hne
    exact swp_refusedEarly hs (by decide) fun h => hne (by simpa [hproto] using h.protocol)
  split
  · rename_i hlong
    exact swp_refusedEarly hs (by decide) fun h => absurd h.params (Nat.not_le_of_lt hlong)
  rw [swp_bind]
  apply swp_halGetTick
  intro d
  have hd : TimeInv u ((b.wait d).jot .puatExpire) :=
    (timeInv_ground.wait u b d hT).plain rfl
  have hsd : Strict F ((b.wait d).jot .puatExpire).notes := Strict.cons trivial hs
  have hlives := fun he => inTime_of_lives (timeInv_ground.wait u b d hT) he
  have haskedd : asked ((b.wait d).jot .puatExpire).notes = asked b.notes := rfl
  rw [hasked] at haskedd
  rw [swp_bind]
  apply swp_puatVerify
  · -- the token has expired, and its generation goes with it
    intro _
    rw [swp_bind, swp_get]
    simp only [Bool.false_and, Bool.false_eq_true, if_false]
    refine ⟨rfl, Strict.cons trivial (Strict.cons trivial hsd), nofun, fun _ he => ?_⟩
    have hperm := he.cm
    rw [setToken_token, hasPerm_cleared] at hperm
    cases hperm
  · intro _ hbad w
    rw [swp_bind, swp_get]
    simp only [Bool.false_and, Bool.false_eq_true, if_false]
    refine ⟨rfl, Strict.cons trivial hsd, nofun,
      fun _ he => ⟨he, fun hq => ?_⟩⟩
    have hperm := he.cm
    rw [Token.hasPerm, Bool.and_eq_true, Bool.and_eq_true] at hperm
    exact hbad hperm.1.1 (hauth.symm.trans hq.pinAuth)
  · intro he hin hparam w
    rw [swp_bind, swp_get]
    have hv := (hd.setChip w).verifyOk ((hlives he).setChip w) hin (some auth)
      (UInt8.ofNat sub :: q.params)
    cases hperm : (u.setToken { u.token with used := true }).token.hasPerm puatPermCm with
    | false =>
        simp only [Bool.and_false, Bool.false_eq_true, if_false]
        refine ⟨rfl, Strict.cons trivial hsd, nofun,
          fun _ he' => ?_⟩
        rw [he'.cm] at hperm
        cases hperm
    | true =>
        simp only [Bool.and_true, if_true]
        refine ⟨rfl, Strict.cons trivial hsd, fun _ k hk => ?_,
          fun h => absurd rfl h⟩
        rw [hparam] at hv ⊢
        exact running_verified (hd.setChip w) hin haskedd hsub hk hv.token hperm

/-- The GetNext goes on only while the token behind the Begin does. -/
theorem swp_cmContinues {k : IterKind}
    (hrun : u.iter.kind = k → u.Enumerating → Running F k b.notes) (hs : Strict F b.notes) :
    swp (fidoBoard F) A cmContinues
      (fun ok u' b' => Strict F b'.notes ∧
        (ok = true → u'.iter.kind = k → u'.iter.Left → Running F k b'.notes))
      (fun b' => Strict F b'.notes) u b := by
  rw [cmContinues, swp_bind]
  apply swp_halGetTick
  intro d
  have hsd : Strict F ((b.wait d).jot .puatExpire).notes := Strict.cons trivial hs
  rw [swp_bind]
  apply swp_puatInUse
  · intro _
    rw [swp_bind, swp_get]
    exact ⟨Strict.cons trivial (Strict.cons trivial hsd), fun h => by cases h⟩
  · intro _
    rw [swp_bind, swp_get]
    refine ⟨Strict.cons trivial hsd, fun hok hk hleft => ?_⟩
    simp only [Bool.and_eq_true, decide_eq_true_eq] at hok
    obtain ⟨⟨-, hgen⟩, hcm⟩ := hok
    have hnow : Running F k b.notes := hrun hk ⟨hleft, hgen, hcm⟩
    exact (hnow.cons (e := ⟨.puatExpire, _, _, _⟩) rfl rfl fun _ h => by cases h).cons rfl rfl
      fun _ h => by cases h

/-! ### The sub-commands -/

variable (F) in
/-- The `switch` of `credmgmt_handle_cbor`. -/
def cmSwitch (q : CmReq) (sub : ℕ) : FidoM Answer :=
  if sub = subGetCredsMetadata then doGetCredsMetadata
  else if sub = subEnumRpsBegin then doEnumRpsBegin
  else if sub = subEnumRpsGetNext then doEnumRpsNext
  else if sub = subEnumCredsBegin then doEnumCredsBegin q.rpHash
  else if sub = subEnumCredsGetNext then doEnumCredsNext
  else if sub = subDeleteCredential then doDeleteCredential F q.credId
  else pure (.status .invalidCommand)

/-- What the two resets leave of an iterator. -/
def Kept (i₀ : IterState) (sub : ℕ) (i : IterState) : Prop :=
  i.kind = .none ∨ i = i₀ ∧ i.kind.nextSub = some sub

theorem swp_cmRun {q : CmReq} {sub : ℕ} {Q : Answer → FidoRam → Board Note → Prop}
    (h : ∀ i, Kept u.iter sub i → swp (fidoBoard F) A (cmSwitch F q sub) Q C (u.setIter i) b) :
    swp (fidoBoard F) A (cmRun F q sub) Q C u b := by
  rw [cmRun, swp_bind]
  apply swp_setIter
  rw [swp_bind]
  apply swp_setIter
  apply h
  rw [setIter_iter]
  cases hk : u.iter.kind with
  | none => simp [Kept, hk]
  | rps =>
      by_cases hsub : sub = subEnumRpsGetNext
      · subst hsub
        right
        simp [hk, IterKind.nextSub]
      · left
        simp [hsub, IterState.reset]
  | creds =>
      by_cases hsub : sub = subEnumCredsGetNext
      · subst hsub
        right
        simp [hk, IterKind.nextSub]
      · left
        simp [hk, hsub, IterState.reset]

/-- Everything but the iterator and the answers. -/
def idleScope (F : FidoPrims) : Scope where
  rmem _ := True
  ecc _ := True
  ram u u' := u'.iter = u.iter
  note n := ∀ es, n.Strict F es

theorem idleScope_base : (idleScope F).Base where
  o1 := ⟨fun _ _ => trivial, fun _ _ => rfl⟩
  o2 := ⟨fun _ _ => trivial, fun _ _ => rfl⟩
  creds := ⟨fun _ _ => trivial, fun _ _ => trivial⟩
  storeInitted _ _ := rfl
  mutating _ _ := rfl
  pin _ _ := rfl
  note n hn es := by cases n <;> trivial

theorem idleScope_tokens : (idleScope F).Tokens where
  ram _ _ := rfl
  note n hn es := by cases n <;> trivial

theorem idleScope_resets : (idleScope F).Resets := ⟨fun _ => trivial, fun _ => trivial⟩

theorem idleScope_assertions : (idleScope F).Assertions :=
  ⟨fun _ _ => rfl, fun _ => trivial, fun _ => trivial, fun _ => trivial⟩

/-- No enumeration is open. -/
def Idle (F : FidoPrims) (u : FidoRam) (b : Board Note) : Prop :=
  u.iter.kind = .none ∧ Strict F b.notes

theorem idle_ground : Ground (idleScope F) (Idle F) (fun b => Strict F b.notes) where
  cut _ _ h := h.2
  chip _ _ _ _ h := h
  ecc _ _ _ _ _ h := h
  keygen _ _ _ _ _ h := h
  counter _ _ _ h := h
  wait _ _ _ h := h
  note _ _ _ hn h := ⟨h.1, .cons (hn _) h.2⟩
  ram _ _ _ hu h := ⟨(congrArg IterState.kind hu).trans h.1, h.2⟩

theorem idle_around : Around F A (idleScope F) (Idle F) (fun b => Strict F b.notes) :=
  idle_ground.around idleScope_base

theorem Idle.enumerates {r : Request} {a : Answer} (h : Idle F u b)
    (hno : ∀ (k : IterKind) sub, k.nextSub = some sub → r.cmSub = some sub →
      a.code ≠ Status.ok.code) :
    Enumerates F u (b.jot (.answer r a)) :=
  enumerates_answer (fun k sub hk hr hok => absurd hok (hno k sub hk hr))
    (fun _ he => absurd he (not_enumerating h.1)) h.2

/-- What a sub-command does, if it was authorised. -/
theorem swp_cmSwitch_begun {q : CmReq} {sub : ℕ} (hk : u.iter.kind = .none)
    (hrps : sub ≠ subEnumRpsGetNext) (hcreds : sub ≠ subEnumCredsGetNext)
    (hrun : ∀ k, k.beginSub = some sub → Running F k b.notes) (hs : Strict F b.notes) :
    swp (fidoBoard F) A (cmSwitch F q sub)
      (fun _ u' b' => Strict F b'.notes ∧ (u'.Enumerating → Running F u'.iter.kind b'.notes))
      (fun b' => Strict F b'.notes) u b := by
  have begun : ∀ k u' b', k.beginSub = some sub → Begins k b.notes u' b' →
      Strict F b'.notes ∧ (u'.Enumerating → Running F u'.iter.kind b'.notes) := by
    rintro k u' b' hsub ⟨hnone | hkind, hn⟩
    · exact ⟨hn ▸ hs, fun he => absurd he (not_enumerating hnone)⟩
    · rw [hn, hkind]
      exact ⟨hs, fun _ => hrun k hsub⟩
  have idle : ∀ u' b', Idle F u' b' →
      Strict F b'.notes ∧ (u'.Enumerating → Running F u'.iter.kind b'.notes) :=
    fun u' b' h => ⟨h.2, fun he => absurd he (not_enumerating h.1)⟩
  rw [cmSwitch]
  split
  · exact swp_mono (keeps_doGetCredsMetadata u b ⟨hk, hs⟩) (fun _ => idle) fun _ h => h
  split
  · rename_i hsub
    apply swp_mono (swp_doEnumRpsBegin hk rfl) (fun _ u' b' h => begun .rps u' b' (hsub ▸ rfl) h)
    exact fun b' h => h ▸ hs
  split
  · rename_i hsub
    apply swp_mono (swp_doEnumCredsBegin q.rpHash hk rfl)
      (fun _ u' b' h => begun .creds u' b' (hsub ▸ rfl) h)
    exact fun b' h => h ▸ hs
  split
  · exact swp_mono ((idle_around.commands idleScope_tokens).doDeleteCredential
      q.credId u b ⟨hk, hs⟩) (fun _ => idle) fun _ h => h
  · exact idle u b ⟨hk, hs⟩

/-- A GetNext of the kind `k`, if its token goes on. -/
theorem swp_cmSwitch_next {k : IterKind} {q : CmReq} {sub : ℕ} (hk : k.nextSub = some sub)
    (hkind : u.iter.kind = .none ∨ u.iter.kind = k)
    (hrun : u.iter.kind = k → u.iter.Left → Running F k b.notes) (hs : Strict F b.notes) :
    swp (fidoBoard F) A (cmSwitch F q sub)
      (fun a u' b' => Strict F b'.notes ∧ (u'.Enumerating → Running F u'.iter.kind b'.notes) ∧
        (a.code = Status.ok.code → Running F k b'.notes))
      (fun b' => Strict F b'.notes) u b := by
  have went : ∀ (a : Answer) (u' : FidoRam) (b' : Board Note), b'.notes = b.notes →
      u'.iter.kind = u.iter.kind → (u'.iter.Left → u.iter.Left) →
      (a.code = Status.ok.code → u.iter.kind = k ∧ u.iter.Left) →
      Strict F b'.notes ∧ (u'.Enumerating → Running F u'.iter.kind b'.notes) ∧
        (a.code = Status.ok.code → Running F k b'.notes) := by
    intro a u' b' hn hsame hleft hok
    rw [hn]
    refine ⟨hs, fun he => ?_, fun h => hrun (hok h).1 (hok h).2⟩
    rcases hkind with hnone | hkind
    · exact absurd he (not_enumerating (hsame.trans hnone))
    · rw [hsame, hkind]
      exact hrun hkind (hleft he.left)
  cases k with
  | none => cases hk
  | rps =>
      cases hk
      apply swp_mono (swp_doEnumRpsNext (b := b) rfl) _ fun b' h => h ▸ hs
      rintro a u' b' ⟨hn, hsame, -, -, hleft, hok⟩
      exact went a u' b' hn hsame hleft hok
  | creds =>
      cases hk
      apply swp_mono (swp_doEnumCredsNext (b := b) rfl) _ fun b' h => h ▸ hs
      rintro a u' b' ⟨hn, hsame, -, -, hleft, hok⟩
      exact went a u' b' hn hsame hleft hok

/-! ### The dispatcher -/

/-- A sub-command with a token. -/
def cmChecked (F : FidoPrims) (q : CmReq) (sub : ℕ) : FidoM Answer := do
  let rc ← checkCmToken q sub
  if rc ≠ .ok then pure (.status rc)
  else do
    let gen := (← get).token.generation
    setIter fun i => { i with gen := gen }
    cmRun F q sub

/-- A GetNext. -/
def cmNext (F : FidoPrims) (q : CmReq) (sub : ℕ) : FidoM Answer := do
  if ← cmContinues then cmRun F q sub
  else do
    credmgmtResetIterator
    pure (.status .notAllowed)

theorem cmSub_eq {q : CmReq} {sub sub' : ℕ} (hsub : q.sub = some sub)
    (h : (⟨.credentialMgmt (.ok q), true⟩ : Request).cmSub = some sub') : sub' = sub := by
  rw [cmSub_credentialMgmt, hsub] at h
  exact (Option.some.inj h).symm

theorem swp_cmChecked {q : CmReq} {sub : ℕ} (hT : TimeInv u b)
    (hasked : asked b.notes = some ⟨.credentialMgmt (.ok q), true⟩) (hs : Strict F b.notes)
    (hnoticed : u.Enumerating →
      (⟨.credentialMgmt (.ok q), true⟩ : Request).Noticed F u.token.token)
    (hsub : q.sub = some sub) (hrps : sub ≠ subEnumRpsGetNext)
    (hcreds : sub ≠ subEnumCredsGetNext) :
    swp (fidoBoard F) A (cmChecked F q sub)
      (fun a u' b' => Enumerates F u' (b'.jot (.answer ⟨.credentialMgmt (.ok q), true⟩ a)))
      (fun b' => Strict F b'.notes) u b := by
  have hno : ∀ (k : IterKind) sub', k.nextSub = some sub' →
      (⟨.credentialMgmt (.ok q), true⟩ : Request).cmSub = some sub' → False := by
    intro k sub' hk h
    rw [cmSub_eq hsub h] at hk
    exact ne_of_nextSub hrps hcreds hk
  rw [cmChecked, swp_bind]
  apply swp_mono (swp_checkCmToken hT hasked hsub hs) _ fun _ h => h
  intro rc u₁ b₁ h₁
  split
  · rename_i hrc
    refine enumerates_answer (fun k sub' hk h => (hno k sub' hk h).elim) (fun _ he => ?_) h₁.strict
    obtain ⟨he₀, hrefused⟩ := h₁.refused hrc he
    obtain ⟨-, q', sub', hq, hsub', hwhich⟩ := hnoticed he₀
    cases hq
    rw [hsub] at hsub'
    cases hsub'
    rcases hwhich with h | h | h
    · exact absurd h hrps
    · exact absurd h hcreds
    · exact absurd h hrefused
  · rename_i hrc
    have hbegun := h₁.ok (not_not.mp hrc)
    rw [swp_bind, swp_get, swp_bind]
    apply swp_setIter
    apply swp_cmRun
    intro i hi
    have hidle : i.kind = .none := by
      rcases hi with h | ⟨-, h⟩
      · exact h
      · exact absurd h (ne_of_nextSub hrps hcreds)
    apply swp_mono (swp_cmSwitch_begun (u := (u₁.setIter _).setIter i) hidle hrps hcreds hbegun
      h₁.strict) _ fun _ h => h
    rintro a u₂ b₂ ⟨hs₂, hrun₂⟩
    exact enumerates_answer (fun k sub' hk h => (hno k sub' hk h).elim) (fun _ => hrun₂) hs₂

theorem swp_cmNext {k : IterKind} {q : CmReq} {sub : ℕ} (hs : Strict F b.notes)
    (hsub : q.sub = some sub) (hk : k.nextSub = some sub)
    (hrun : u.iter.kind = k → u.Enumerating → Running F k b.notes) :
    swp (fidoBoard F) A (cmNext F q sub)
      (fun a u' b' => Enumerates F u' (b'.jot (.answer ⟨.credentialMgmt (.ok q), true⟩ a)))
      (fun b' => Strict F b'.notes) u b := by
  rw [cmNext, swp_bind]
  apply swp_mono (swp_cmContinues hrun hs) _ fun _ h => h
  rintro ok u₁ b₁ ⟨hs₁, hrun₁⟩
  cases ok with
  | true =>
      apply swp_cmRun
      intro i hi
      have hkind : i.kind = .none ∨ i.kind = k := by
        rcases hi with h | ⟨-, h⟩
        · exact .inl h
        · exact .inr (nextSub_inj h hk)
      have hgoes : i.kind = k → i.Left → Running F k b₁.notes := by
        intro hik hleft
        rcases hi with h | ⟨rfl, -⟩
        · rw [IterState.Left, h] at hleft
          exact hleft.elim
        · exact hrun₁ rfl hik hleft
      apply swp_mono (swp_cmSwitch_next (u := u₁.setIter i) hk hkind hgoes hs₁) _ fun _ h => h
      rintro a u₂ b₂ ⟨hs₂, hrun₂, hok₂⟩
      refine enumerates_answer (fun k' sub' hk' h hok => ?_) (fun _ => hrun₂) hs₂
      rw [cmSub_eq hsub h] at hk'
      rw [nextSub_inj hk' hk]
      exact hok₂ hok
  | false =>
      simp only [Bool.false_eq_true, if_false]
      rw [swp_bind]
      apply swp_setIter
      exact Idle.enumerates ⟨rfl, hs₁⟩ fun _ _ _ _ => code_notAllowed

/-- A request of the credential management, noted already. -/
theorem swp_credmgmtHandleCbor {c : Except Status CmReq} (hT : TimeInv u b)
    (hasked : asked b.notes = some ⟨.credentialMgmt c, true⟩) (hs : Strict F b.notes)
    (hnoticed : u.Enumerating → (⟨.credentialMgmt c, true⟩ : Request).Noticed F u.token.token)
    (hrun : ∀ k sub, (⟨.credentialMgmt c, true⟩ : Request).cmSub = some sub →
      k.nextSub = some sub → u.iter.kind = k → u.Enumerating → Running F k b.notes) :
    swp (fidoBoard F) A (credmgmtHandleCbor F c)
      (fun a u' b' => Enumerates F u' (b'.jot (.answer ⟨.credentialMgmt c, true⟩ a)))
      (fun b' => Strict F b'.notes) u b := by
  cases c with
  | error s =>
      refine enumerates_answer (fun _ _ _ h => by cases h) (fun _ he => ?_) hs
      obtain ⟨-, q, sub, hq, -⟩ := hnoticed he
      cases hq
  | ok q =>
  rw [credmgmtHandleCbor]
  cases hsub : q.sub with
  | none =>
      refine enumerates_answer (fun _ _ _ h => ?_) (fun _ he => ?_) hs
      · rw [cmSub_credentialMgmt, hsub] at h
        cases h
      · obtain ⟨-, q', sub, hq, hsub', -⟩ := hnoticed he
        cases hq
        simp [hsub] at hsub'
  | some sub =>
  dsimp only
  split
  · rename_i hnext
    exact swp_cmChecked hT hasked hs hnoticed hsub hnext.1 hnext.2
  · rename_i hnext
    obtain ⟨k, hk⟩ := exists_nextSub hnext
    exact swp_cmNext hs hsub hk (hrun k sub hsub hk)

/-- Any other command finds the enumeration ended. -/
theorem swp_serveChecked_idle {r : Request} (hr : r.command.isCredentialMgmt = false)
    (h : Idle F u b) :
    swp (fidoBoard F) A (serveChecked F r) (fun a u' b' => Enumerates F u' (b'.jot (.answer r a)))
      (fun b' => Strict F b'.notes) u b := by
  have hno : r.cmSub = none := by
    rcases r with ⟨c, valid⟩
    cases c <;> first | rfl | cases hr
  have done : ∀ (a : Answer) u' b', Idle F u' b' → Enumerates F u' (b'.jot (.answer r a)) := by
    intro a u' b' h'
    refine h'.enumerates fun k sub _ hsub => ?_
    rw [hno] at hsub
    cases hsub
  have keeps : Keeps (fidoBoard F) A (Idle F) (fun b' => Strict F b'.notes) (serve F r.command) :=
    idle_around.serve idleScope_tokens idleScope_resets
      (fun _ => idleScope_assertions) fun hc => by simp [hc] at hr
  rw [serveChecked]
  split
  · exact done _ _ _ h
  rw [swp_bind, swp_get]
  split
  · exact done _ _ _ h
  · exact swp_mono (keeps u b h) done fun _ h => h

theorem swp_serveChecked_enumerates {c : Except Status CmReq} {valid : Bool} (hT : TimeInv u b)
    (hasked : asked b.notes = some ⟨.credentialMgmt c, valid⟩) (hs : Strict F b.notes)
    (hnoticed : u.ready = true → u.Enumerating →
      (⟨.credentialMgmt c, valid⟩ : Request).Noticed F u.token.token)
    (hrun : ∀ k sub, (⟨.credentialMgmt c, valid⟩ : Request).cmSub = some sub →
      k.nextSub = some sub → u.iter.kind = k → u.ready = true → u.Enumerating →
      Running F k b.notes) :
    swp (fidoBoard F) A (serveChecked F ⟨.credentialMgmt c, valid⟩)
      (fun a u' b' => Enumerates F u' (b'.jot (.answer ⟨.credentialMgmt c, valid⟩ a)))
      (fun b' => Strict F b'.notes) u b := by
  rw [serveChecked]
  split
  · rename_i hinvalid
    refine enumerates_answer (fun _ _ _ _ h => absurd h code_invalidCbor) (fun hready he => ?_) hs
    exact absurd (hnoticed hready he).1 (by simpa using hinvalid)
  rename_i hvalid
  have hvalid : valid = true := by simpa using hvalid
  subst hvalid
  rw [swp_bind, swp_get]
  split
  · rename_i hno
    refine enumerates_answer (fun _ _ _ _ h => absurd h code_notAllowed) (fun hready _ => ?_) hs
    simp [hno.2] at hready
  · rename_i hgo
    have hready : u.ready = true := by
      cases hu : u.ready with
      | true => rfl
      | false => exact absurd ⟨rfl, hu⟩ hgo
    exact swp_credmgmtHandleCbor hT hasked hs (hnoticed hready)
      fun k sub hsub hk hkind he => hrun k sub hsub hk hkind hready he

theorem swp_dispatch_enumerates {r : Request} (hT : TimeInv u b) (hasked : asked b.notes = some r)
    (hs : Strict F b.notes)
    (hnoticed : u.ready = true → u.Enumerating → r.Noticed F u.token.token)
    (hrun : ∀ k sub, r.cmSub = some sub → k.nextSub = some sub → u.iter.kind = k →
      u.ready = true → u.Enumerating → Running F k b.notes) :
    swp (fidoBoard F) A (dispatch F r) (fun a u' b' => Enumerates F u' (b'.jot (.answer r a)))
      (fun b' => Strict F b'.notes) u b := by
  rcases r with ⟨c, valid⟩
  rw [dispatch]
  split
  · rename_i hempty
    refine enumerates_answer (fun _ _ _ _ h => absurd h code_invalidLength) (fun hready he => ?_) hs
    have hno := hnoticed hready he
    cases c <;> first | exact hno.elim | cases hempty
  rw [swp_bind, endEnumeration]
  cases hc : c.isCredentialMgmt with
  | false =>
      simp only [Bool.false_eq_true, if_false]
      apply swp_setIter
      rw [swp_bind]
      have hidle : Idle F (u.setIter u.iter.reset) b := ⟨rfl, hs⟩
      have keeps : Keeps (fidoBoard F) A (Idle F) (fun b' => Strict F b'.notes) (endIteration c) :=
        keeps_ite (keeps_pure _) (keeps_modify fun _ _ h => h)
      apply swp_mono (keeps _ _ hidle) _ fun _ h => h
      exact fun _ u' b' h => swp_serveChecked_idle hc h
  | true =>
      cases c with
      | credentialMgmt c =>
          simp only [if_true]
          rw [swp_pure, swp_bind]
          have hopen : (u.setGa .zero).Enumerating → u.Enumerating :=
            fun he => ⟨he.left, he.gen, he.cm⟩
          have hT₁ : TimeInv (u.setGa .zero) b := timeInv_assertionReset (F := F) (A := A) u b hT
          exact swp_serveChecked_enumerates hT₁ hasked hs (fun hr he => hnoticed hr (hopen he))
            fun k sub hsub hk hkind hr he => hrun k sub hsub hk hkind hr (hopen he)
      | _ => cases hc

theorem enumerates_dispatch {r : Request} (hT : TimeInv u b) (h : Enumerates F u b)
    (hnoticed : u.ready = true → u.Enumerating → r.Noticed F u.token.token) :
    swp (fidoBoard F) A (fidoHidCborDispatch F r)
      (fun _ u' b' => TimeInv u' b' ∧ Enumerates F u' b')
      (fun b' => OffInv b' ∧ Strict F b'.notes) u b := by
  apply swp_and (timeInv_fidoHidCborDispatch r u b hT)
  rw [fidoHidCborDispatch, swp_bind]
  apply swp_leave
  rw [swp_bind]
  have hs : Strict F (b.jot (.request r)).notes := Strict.cons trivial h.strict
  have hrun : ∀ k sub, r.cmSub = some sub → k.nextSub = some sub → u.iter.kind = k →
      u.ready = true → u.Enumerating → Running F k (b.jot (.request r)).notes := by
    rintro k sub hsub hk rfl hready he
    refine (h.running hready he).cons rfl rfl fun r' hr' => ?_
    cases hr'
    exact hsub.trans hk.symm
  apply swp_mono (swp_dispatch_enumerates (hT.plain rfl) rfl hs hnoticed hrun) _ fun _ h => h
  intro a u' b' h'
  rw [swp_bind]
  exact swp_leave h'

/-- Power-up forgets the enumeration. -/
theorem enumerates_bringUp (hoff : OffInv b) (hs : Strict F b.notes) :
    swp (fidoBoard F) A (bringUp F) (fun _ u' b' => TimeInv u' b' ∧ Enumerates F u' b')
      (fun b' => OffInv b' ∧ Strict F b'.notes) .boot b := by
  apply swp_and (timeInv_bringUp hoff)
  rw [bringUp, swp_bind]
  apply swp_leave
  have hboot : Idle F .boot (b.jot .powerUp) := ⟨rfl, .cons trivial hs⟩
  apply swp_mono (idle_around.initialised idleScope_tokens _ _ hboot) _ fun _ h => h
  exact fun _ _ _ h => ⟨fun _ he => absurd he (not_enumerating h.1), h.2⟩

end Commands

/-! ### Runs -/

variable {F : FidoPrims}

/-- What holds of the device between two actions. -/
def Device.Strictly (F : FidoPrims) (d : Device) : Prop :=
  match d.ram with
  | some u => TimeInv u d.board ∧ Enumerates F u d.board
  | none => OffInv d.board ∧ Strict F d.board.notes

theorem Device.Strictly.off {d : Device} (h : d.Strictly F) :
    OffInv d.board ∧ Strict F d.board.notes := by
  rcases d with ⟨_ | u, b⟩
  · exact h
  · have hu : TimeInv u b ∧ Enumerates F u b := h
    exact ⟨hu.1.timely, hu.2.strict⟩

theorem strictly_settle {α : Type} {o : Outcome (α × FidoRam) (Board Note)}
    (h : o.Satisfies (fun x b => TimeInv x.2 b ∧ Enumerates F x.2 b)
      fun b => OffInv b ∧ Strict F b.notes) : (Device.settle o).Strictly F := by
  cases o with
  | done x b => exact h
  | cut b => exact h

theorem strictly_step {d : Device} (a : Action) (h : d.Strictly F) (hn : d.Notices F a) :
    (Device.step F d a).Strictly F := by
  cases a with
  | powerUp fs =>
      have hoff : OffInv { d.board with now := 0 } := h.off.1
      have hs : Strict F { d.board with now := 0 }.notes := h.off.2
      apply strictly_settle
      exact run_of_swp (A := fun _ => True) trivial (enumerates_bringUp hoff hs) fun _ _ => trivial
  | request r fs =>
      rcases d with ⟨_ | u, b⟩
      · exact h
      · have hu : TimeInv u b ∧ Enumerates F u b := h
        apply strictly_settle
        exact run_of_swp (A := fun _ => True) trivial (enumerates_dispatch hu.1 hu.2 (hn u rfl))
          fun _ _ => trivial

/-- Over every run that notices every payload while an enumeration is open, cut
and failing calls included, a GetNext continues only its own Begin, with the
token that authorised it. -/
theorem enumerations_strict (F : FidoPrims) (b : Board Note) (acts : List Action)
    (hn : ∀ pre a, pre ++ [a] <+: acts → ((device F b).run pre).Notices F a) :
    Strict F ((device F b).run acts).board.notes := by
  have hinit : (device F b).init.Strictly F := ⟨fun _ => trivial, .nil⟩
  have h : ((device F b).run acts).Strictly F :=
    System.run_keeps_of hinit (fun _ a h => strictly_step a h) hn
  exact h.off.2

/-! ### Runs of the model -/

/-- Two passkeys of two RPs, a PIN, and a token with cm. -/
def demoStored : List Action :=
  [.powerUp [], .request (demoMake 1 1) [], .request (demoMake 2 1) []]

def demoGuarded : List Action :=
  demoStored ++ [.request ((device mixFido blankBoard).run demoStored).demoSetPin []]

def demoManaged : List Action := demoGuarded ++ [.request (demoGetToken puatPermCm none) []]

/-- A sub-command under a token. -/
def demoCm (token : Bytes) (sub : ℕ) : Action :=
  .request {
    command := .credentialMgmt (.ok {
      sub := some sub
      params := []
      protocol := some 1
      pinAuth := some (tokenMac mixFido token [UInt8.ofNat sub])
      rpHash := .error .missingParameter
      credId := .error .missingParameter })
    cborValid := true } []

/-- The enumeration of the RPs begins. -/
def demoEnumerated : List Action :=
  demoManaged ++ [demoCm ((device mixFido blankBoard).run demoManaged).demoToken subEnumRpsBegin]

/-- The last note is the answer OK to a GetNext of this kind. -/
def answersEnum (k : IterKind) : History → Bool
  | [] => false
  | e :: _ =>
      match e.note with
      | .answer r a => decide (r.cmSub = k.nextSub) && decide (a.code = Status.ok.code)
      | _ => false

/-- Nothing is open before the first Begin. -/
theorem Device.notices_of_idle {d : Device} {a : Action}
    (h : d.ram.all (fun u => decide (u.iter.kind = .none)) = true) : d.Notices F a := by
  cases a with
  | powerUp fs => trivial
  | request r fs =>
      intro u hu _ he
      rw [hu, Option.all_some, decide_eq_true_eq] at h
      exact absurd he (not_enumerating h)

theorem enumerations_strict_demo :
    answersEnum .rps ((device mixFido blankBoard).run
        (demoEnumerated ++ [demoCm [] subEnumRpsGetNext])).board.notes = true ∧
      Strict mixFido ((device mixFido blankBoard).run
        (demoEnumerated ++ [demoCm [] subEnumRpsGetNext])).board.notes := by
  have hn : ∀ pre a, pre ++ [a] <+: demoEnumerated ++ [demoCm [] subEnumRpsGetNext] →
      ((device mixFido blankBoard).run pre).Notices mixFido a := by
    refine System.forall_runFrom_cons (C := Device.Notices mixFido) trivial ?_
    iterate 4
      refine System.forall_runFrom_cons (C := Device.Notices mixFido) (fun _ _ _ _ => trivial) ?_
    refine System.forall_runFrom_cons (C := Device.Notices mixFido)
      (Device.notices_of_idle (by decide +kernel)) ?_
    refine System.forall_runFrom_cons (C := Device.Notices mixFido) ?_ System.forall_runFrom_nil
    exact fun _ _ _ _ => ⟨rfl, _, _, rfl, rfl, .inl rfl⟩
  exact ⟨by decide +kernel, enumerations_strict mixFido blankBoard _ hn⟩

/-- What `Begun` comes to, without the macs. -/
def reachesBegin (k : IterKind) : History → Bool
  | [] => false
  | e :: es =>
      match e.note with
      | .puatVerify _ _ true =>
          decide ((asked es).bind Request.cmSub = k.beginSub) || reachesBegin k es
      | .request r => decide (r.cmSub = k.nextSub) && reachesBegin k es
      | _ => reachesBegin k es

theorem Begun.reaches {F : FidoPrims} {k : IterKind} {token : Bytes} {es : History}
    (h : Begun F k token es) : reachesBegin k es = true := by
  induction h with
  | verified hr hsub hk _ _ hn =>
      simp [reachesBegin, hn, hr, hk, cmSub_credentialMgmt, hsub]
  | @later e es _ _ _ hr ih =>
      rcases e with ⟨n, t, rmem, ecc⟩
      cases n with
      | request r => simpa [reachesBegin, ih] using hr r rfl
      | puatVerify param msg ok => cases ok <;> simp [reachesBegin, ih]
      | _ => exact ih

theorem not_strict {F : FidoPrims} {k : IterKind} {es : History} (hn : answersEnum k es = true)
    (hk : k ≠ .none) (hstale : reachesBegin k es.tail = false) : ¬Strict F es := by
  intro h
  cases h with
  | nil => cases hn
  | @cons e es hlast =>
      rcases e with ⟨n, t, rmem, ecc⟩
      cases n with
      | answer r a =>
          simp only [answersEnum, Bool.and_eq_true, decide_eq_true_eq] at hn
          obtain ⟨sub, hsub⟩ : ∃ sub, k.nextSub = some sub := by
            cases k with
            | none => exact absurd rfl hk
            | rps => exact ⟨_, rfl⟩
            | creds => exact ⟨_, rfl⟩
          obtain ⟨l, hbegun, -⟩ := hlast k sub hsub (hn.1.trans hsub) hn.2
          rw [List.tail_cons, hbegun.reaches] at hstale
          cases hstale
      | _ => cases hn

/-- A sub-command that is refused for its pinUvAuthParam does not end the
enumeration before it. -/
theorem refused_command_continues :
    ¬Strict mixFido ((device mixFido blankBoard).run (demoEnumerated ++
      [demoCm [] subGetCredsMetadata, demoCm [] subEnumRpsGetNext])).board.notes :=
  not_strict (k := .rps) (by decide +kernel) nofun (by decide +kernel)

end Nixtropic.Fido
