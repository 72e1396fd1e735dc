import Nixtropic.Fido.TimedCommands
import Nixtropic.Runs.System

/-!
GetNextAssertion continues its own GetAssertion.

What was asked and answered so far is in the notes. `openedOf` reads off them
the last GetAssertion that answered OK and the payloads dispatched since; what
`s_ga` holds is one way of remembering it.
-/

namespace Nixtropic.Fido

open Crash Runs

/-! ### The last GetAssertion in the notes -/

def Request.isGetAssertion (r : Request) : Bool :=
  match r.command with
  | .getAssertion _ => true
  | _ => false

/-- A GetAssertion that answered OK, and the payloads dispatched since then,
newest first. -/
structure Opened where
  request : Request
  answer : Answer
  since : List Request

def openedOf : History → Option Opened
  | [] => none
  | e :: es =>
      match e.note with
      | .powerUp => none
      | .request r => (openedOf es).map fun o => { o with since := r :: o.since }
      | .answer r a =>
          if r.isGetAssertion ∧ a.code = Status.ok.code then some ⟨r, a, []⟩ else openedOf es
      | _ => openedOf es

def Answer.authData : Answer → Bytes
  | .attestation authData => authData
  | .assertion _ authData _ _ _ => authData
  | _ => []

/-- The number of credentials that an assertion stands for. -/
def Answer.credentials : Answer → ℕ
  | .assertion _ _ _ _ number => number.getD 1
  | _ => 0

/-- An answer to GetNextAssertion continues `o`: nothing else was dispatched
since, there was a credential left, and what was signed last is for the same
RP, hash and flags. -/
structure Continues (F : FidoPrims) (o : Opened) (a : Answer) (es : History) : Prop where
  only : ∀ r ∈ o.since, r.isGetNext = true
  within : o.since.length ≤ o.answer.credentials - 1
  same : ∃ q flags slot, o.request.command = .getAssertion (.ok q) ∧
    o.answer.authData.take 33 = F.chip.sha256 q.rpId ++ [flags] ∧
    a.authData.take 33 = F.chip.sha256 q.rpId ++ [flags] ∧
    es.head?.map Entry.note = some (.sign slot (a.authData ++ q.clientHash))

/-- What an answer may be, after the other notes. -/
def Note.Continued (F : FidoPrims) (n : Note) (es : History) : Prop :=
  match n with
  | .answer r a => r.isGetNext = true → a.code = Status.ok.code →
      ∃ o, openedOf es = some o ∧ Continues F o a es
  | _ => True

/-- Every GetNextAssertion that answered OK continued its own GetAssertion. -/
inductive Continued (F : FidoPrims) : History → Prop where
  | nil : Continued F []
  | cons {e : Entry Note} {es : History} (hn : e.note.Continued F es) (h : Continued F es) :
      Continued F (e :: es)

/-! ### Which payloads the iteration notices -/

/-- The payload gets past the checks that stand before both resets of `s_ga`. -/
def Request.heard (r : Request) : Bool :=
  !r.command.isEmpty && (r.cborValid || !r.command.isAssertion)

/-- While credentials are left, every payload is one that is noticed. -/
def Device.Hears (d : Device) : Action → Prop
  | .powerUp _ => True
  | .request r _ => ∀ u, d.ram = some u → u.ready = true → u.ga.active = true →
      u.ga.pos < u.ga.count → r.heard = true

/-- The iteration that `s_ga` remembers is the one in the notes. -/
structure Remembers (F : FidoPrims) (g : GaState) (o : Opened) : Prop where
  only : ∀ r ∈ o.since, r.isGetNext = true
  within : o.since.length < g.pos
  count : g.count = o.answer.credentials
  same : ∃ q, o.request.command = .getAssertion (.ok q) ∧ g.rpHash = F.chip.sha256 q.rpId ∧
    g.clientHash = q.clientHash ∧ o.answer.authData.take 33 = g.rpHash ++ [g.flags]

structure Iterates (F : FidoPrims) (u : FidoRam) (b : Board Note) : Prop where
  remembers : u.ready = true → u.ga.active = true → u.ga.pos < u.ga.count →
    ∃ o, openedOf b.notes = some o ∧ Remembers F u.ga o
  continued : Continued F b.notes

section Commands

variable {F : FidoPrims} {A : BoardFate → Prop} {u : FidoRam} {b : Board Note}

/-- The notes about requests as a whole. -/
def Note.outer : Note → Bool
  | .powerUp => true
  | .request _ => true
  | .answer _ _ => true
  | _ => false

/-- Everything but `s_ga` and the notes about requests. -/
def gaScope : Scope where
  rmem _ := True
  ecc _ := True
  ram u u' := u'.ga = u.ga
  note n := n.outer = false

theorem gaScope_whole : gaScope.Whole where
  o1 := ⟨fun _ _ => trivial, fun _ _ => rfl⟩
  o2 := ⟨fun _ _ => trivial, fun _ _ => rfl⟩
  creds := ⟨fun _ _ => trivial, fun _ _ => trivial⟩
  storeInitted _ _ := rfl
  mutating _ _ := rfl
  pin _ _ := rfl
  iter _ _ := rfl
  note n hn := by cases n <;> first | rfl | simp [Note.quiet] at hn

theorem gaScope_tokens : gaScope.Tokens where
  ram _ _ := rfl
  note n hn := by cases n <;> first | rfl | simp [Note.ofToken] at hn

theorem openedOf_jot {n : Note} (hn : n.outer = false) :
    openedOf (b.jot n).notes = openedOf b.notes := by
  cases n <;> first | rfl | simp [Note.outer] at hn

theorem Continued.jot (h : Continued F b.notes) {n : Note} (hn : n.outer = false) :
    Continued F (b.jot n).notes := by
  refine .cons ?_ h
  cases n <;> trivial

/-- `s_ga` satisfies `G`, and nothing is said about requests. -/
def Within (F : FidoPrims) (o : Option Opened) (G : GaState → Prop) (u : FidoRam)
    (b : Board Note) : Prop :=
  G u.ga ∧ openedOf b.notes = o ∧ Continued F b.notes

theorem within_ground (o : Option Opened) (G : GaState → Prop) :
    Ground gaScope (Within F o G) (fun b => Continued F b.notes) where
  cut _ _ h := h.2.2
  chip _ _ _ _ h := h
  ecc _ _ _ _ _ h := h
  keygen _ _ _ _ _ h := h
  counter _ _ _ h := h
  wait _ _ _ h := h
  note _ _ _ hn h := ⟨h.1, (openedOf_jot hn).trans h.2.1, h.2.2.jot hn⟩
  ram _ _ _ hu h := ⟨hu ▸ h.1, h.2⟩

theorem within_around (o : Option Opened) (G : GaState → Prop) :
    Around F A gaScope (Within F o G) (fun b => Continued F b.notes) :=
  (within_ground o G).around gaScope_whole.toBase

theorem within_commands (o : Option Opened) (G : GaState → Prop) :
    Commands F A (Within F o G) (fun b => Continued F b.notes) :=
  (within_around o G).commands gaScope_tokens

/-! ### A signature -/

/-- An assertion over `authData` that was signed last. -/
def Signed (rpHash : Bytes) (flags : UInt8) (clientHash : Bytes) (number : ℕ) (a : Answer)
    (es : History) : Prop :=
  a.authData.take 33 = rpHash ++ [flags] ∧ (1 < number → a.credentials = number) ∧
    ∃ slot, es.head?.map Entry.note = some (.sign slot (a.authData ++ clientHash))

theorem buildAuthdata_take {rpHash ad : Bytes} {flags : UInt8} {sc max : ℕ} {credId pub : Bytes}
    (hrp : rpHash.length = 32) (h : buildAuthdata rpHash flags sc credId pub max = some ad) :
    ad.take 33 = rpHash ++ [flags] := by
  simp only [buildAuthdata, Option.ite_none_left_eq_some, Option.some.injEq] at h
  obtain ⟨-, rfl⟩ := h
  rw [List.append_assoc, List.take_append_of_le_length (by simp [hrp]), List.take_of_length_le]
  simp [hrp]

/-- Signing leaves its own note last. -/
theorem swp_credstoreSign {slot : ℕ} {alg : UInt8} {msg : Bytes}
    {Q : Option Bytes → FidoRam → Board Note → Prop} {C : Board Note → Prop}
    (h : ∀ r, Q r u (b.jot (.sign slot msg))) (hcut : C (b.jot (.sign slot msg))) :
    swp (fidoBoard F) A (credstoreSign slot alg msg) Q C u b := by
  rw [credstoreSign, swp_bind]
  apply swp_leave
  split
  · exact h none
  cases algOfStored alg with
  | none => exact h none
  | some a =>
      cases a with
      | eddsa =>
          rw [swp_bind]
          apply swp_sign (.inl rfl) _ fun _ => hcut
          rintro (_ | _) <;> exact h _
      | es256 =>
          rw [swp_bind]
          apply swp_sign (.inr rfl) _ fun _ => hcut
          rintro (_ | _) <;> exact h _

/-- An answer that is OK fitted into its buffer. -/
theorem fitted_of_ok {a : Answer} (h : a.fitted.code = Status.ok.code) : a.fitted = a := by
  rw [Answer.fitted] at h ⊢
  split
  · rename_i hlong
    rw [if_pos hlong] at h
    exact absurd h (by decide)
  · rfl

theorem signed_gaAnswer {slot slot' : ℕ} {m : SlotMeta} {rpHash ad sig clientHash : Bytes}
    {flags : UInt8} {sc n : ℕ} {es : History} (hrp : rpHash.length = 32)
    (had : buildAuthdata rpHash flags sc [] [] 69 = some ad)
    (hnote : es.head?.map Entry.note = some (.sign slot' (ad ++ clientHash)))
    (hok : (gaAnswer slot m ad sig n).code = Status.ok.code) :
    Signed rpHash flags clientHash n (gaAnswer slot m ad sig n) es := by
  rw [gaAnswer] at hok ⊢
  rw [fitted_of_ok hok]
  refine ⟨buildAuthdata_take hrp had, fun hn => ?_, slot', hnote⟩
  simp [Answer.credentials, hn]

/-- An answer that is OK was signed for. -/
theorem swp_gaSignRespond_signed {o : Option Opened} {G : GaState → Prop} {slot : ℕ}
    {rpHash : Bytes} (hrp : rpHash.length = 32) (flags : UInt8) (clientHash : Bytes) (n : ℕ)
    (h : Within F o G u b) :
    swp (fidoBoard F) A (gaSignRespond F slot rpHash flags clientHash n)
      (fun a u' b' => Within F o G u' b' ∧
        (a.code = Status.ok.code → Signed rpHash flags clientHash n a b'.notes))
      (fun b' => Continued F b'.notes) u b := by
  have g := within_ground (F := F) o G
  have hno : ∀ {s : Status}, s = .other ∨ s = .noCredentials →
      (Answer.status s).code ≠ Status.ok.code := by
    rintro _ (rfl | rfl) <;> decide
  rw [gaSignRespond, swp_bind]
  apply swp_mono ((within_commands o G).slotsReadMeta slot u b h) _ fun _ h => h
  intro r u₁ b₁ h₁
  cases r with
  | invalid => exact ⟨h₁, fun hc => absurd hc (hno (.inl rfl))⟩
  | chip => exact ⟨h₁, fun hc => absurd hc (hno (.inl rfl))⟩
  | ok m =>
      dsimp only
      split
      · exact ⟨h₁, fun hc => absurd hc (hno (.inr rfl))⟩
      split
      · exact ⟨h₁, fun hc => absurd hc (hno (.inl rfl))⟩
      rw [swp_bind]
      apply swp_mono (((within_ground o G).credstoreSigncountNext
        (within_around o G).init) u₁ b₁ h₁) _ fun _ h => h
      intro sc u₂ b₂ h₂
      cases sc with
      | none => exact ⟨h₂, fun hc => absurd hc (hno (.inl rfl))⟩
      | some sc =>
          cases had : buildAuthdata rpHash flags sc [] [] 69 with
          | none =>
              dsimp only
              rw [had]
              exact ⟨h₂, fun hc => absurd hc (hno (.inl rfl))⟩
          | some ad =>
              dsimp only
              rw [had, swp_bind]
              have h₃ : Within F o G u₂ (b₂.jot (.sign slot (ad ++ clientHash))) :=
                g.note _ _ _ rfl h₂
              apply swp_credstoreSign _ h₃.2.2
              intro sig
              cases sig with
              | none => exact ⟨h₃, fun hc => absurd hc (hno (.inl rfl))⟩
              | some sig =>
                  have hnote : (b₂.jot (.sign slot (ad ++ clientHash))).notes.head?.map Entry.note =
                      some (.sign slot (ad ++ clientHash)) := rfl
                  rw [swp_pure]
                  exact ⟨h₃, signed_gaAnswer hrp had hnote⟩

/-! ### GetAssertion -/

/-- `s_ga` was set by a GetAssertion that answers `a`. -/
def SetBy (F : FidoPrims) (r : Request) (a : Answer) (g : GaState) : Prop :=
  g.active = true → a.code = Status.ok.code ∧ Remembers F g ⟨r, a, []⟩

theorem swp_gaFinish_set {o : Option Opened} {q : GaReq} {r : Request} {flags : UInt8}
    {slots : List ℕ} (hr : r.command = .getAssertion (.ok q))
    (hallow : q.allow.isSome = true → slots.length ≤ 1)
    (h : Within F o (fun g => g.active = false) u b) :
    swp (fidoBoard F) A (gaFinish F q (F.chip.sha256 q.rpId) flags slots)
      (fun a u' b' => Within F o (SetBy F r a) u' b') (fun b' => Continued F b'.notes) u b := by
  rw [gaFinish, swp_bind]
  apply swp_mono (swp_gaSignRespond_signed (F.chip.sha256_length _) flags q.clientHash _ h) _
    fun _ h => h
  rintro a u₁ b₁ ⟨⟨hactive, ho, hc⟩, hsigned⟩
  split
  · rename_i hmore
    obtain ⟨hok, hlen⟩ := hmore
    -- only a search without an allow list finds several credentials
    have hnone : q.allow.isSome = false := by
      cases hs : q.allow.isSome with
      | false => rfl
      | true => exact absurd (hallow hs) (by omega)
    obtain ⟨hflags, hnumber, -⟩ := hsigned hok
    simp only [hnone, Bool.false_eq_true, if_false] at hnumber
    rw [swp_bind]
    apply swp_setGa
    rw [swp_bind]
    apply swp_halGetTick
    intro d
    rw [swp_bind]
    apply swp_setGa
    rw [swp_bind]
    apply swp_leave
    refine ⟨fun _ => ⟨hok, ?_⟩, ho, hc.jot (b := b₁.wait d) rfl⟩
    exact ⟨fun _ hs => absurd hs List.not_mem_nil, Nat.zero_lt_one, (hnumber hlen).symm,
      q, hr, rfl, rfl, hflags⟩
  · exact ⟨fun ha => by simp [hactive] at ha, ho, hc⟩

theorem swp_getAssertion_set {o : Option Opened} {q : Except Status GaReq} {r : Request}
    (hr : r.command = .getAssertion q) (ho : openedOf b.notes = o) (hc : Continued F b.notes) :
    swp (fidoBoard F) A (ctap2GetAssertion F q) (fun a u' b' => Within F o (SetBy F r a) u' b')
      (fun b' => Continued F b'.notes) u b := by
  apply (within_commands o fun g => g.active = false).swp_getAssertion
  · exact fun _ => keeps_modify fun _ _ h => h
  · exact fun s u b h => ⟨fun ha => by simp [h.1] at ha, h.2⟩
  · rintro q' flags slots u b rfl _ hallow h
    exact swp_gaFinish_set hr hallow h
  · exact ⟨rfl, ho, hc⟩

/-! ### GetNextAssertion -/

/-- What GetNextAssertion does to an iteration and answers. -/
structure Went (F : FidoPrims) (o : Option Opened) (a : Answer) (u : FidoRam) (b : Board Note) :
    Prop where
  remembers : u.ga.active = true → u.ga.pos < u.ga.count →
    ∃ o', o = some o' ∧ o'.since.length < u.ga.pos ∧ Remembers F u.ga o'
  opened : openedOf b.notes = o
  continued : Continued F b.notes
  answer : a.code = Status.ok.code → ∃ o', o = some o' ∧ Continues F o' a b.notes

/-- The payload of the GetNextAssertion itself is already counted in `since`. -/
theorem swp_getNextAssertion_went {r : Request} {o : Option Opened} (hr : r.isGetNext = true)
    (hmem : u.ga.active = true → u.ga.pos < u.ga.count → ∃ o', o = some o' ∧ Remembers F u.ga o')
    (ho : openedOf b.notes = o.map fun o => { o with since := r :: o.since })
    (hc : Continued F b.notes) :
    swp (fidoBoard F) A (ctap2GetNextAssertion F)
      (fun a u' b' => Went F (o.map fun o => { o with since := r :: o.since }) a u' b')
      (fun b' => Continued F b'.notes) u b := by
  have hno : (Answer.status .notAllowed).code ≠ Status.ok.code := by decide
  rw [ctap2GetNextAssertion, swp_bind, swp_get]
  dsimp only
  split
  · rename_i hend
    refine ⟨fun ha hp => ?_, ho, hc, fun h => absurd h hno⟩
    rcases hend with hoff | hend
    · simp [hoff] at ha
    · exact absurd hp (Nat.not_lt_of_le hend)
  rename_i hgo
  have hactive : u.ga.active = true := by
    cases ha : u.ga.active with
    | true => rfl
    | false => exact absurd (.inl ha) hgo
  have hleft : u.ga.pos < u.ga.count := Nat.lt_of_not_le fun h => hgo (.inr h)
  obtain ⟨o', rfl, hrem⟩ := hmem hactive hleft
  rw [swp_bind]
  apply swp_halGetTick
  intro d
  rw [swp_bind]
  apply swp_leave
  split
  · rw [swp_bind]
    apply swp_setGa
    exact ⟨(fun h => by cases h), ho, hc.jot (b := b.wait d) (n := .gaCheck) rfl, fun h =>
      absurd h hno⟩
  rw [swp_bind]
  apply swp_leave
  rw [swp_bind]
  apply swp_setGa
  rw [swp_bind]
  apply swp_halGetTick
  intro d'
  rw [swp_bind]
  apply swp_setGa
  rw [swp_bind]
  apply swp_leave
  obtain ⟨q, hq, hrp, hhash, hflags⟩ := hrem.same
  have honly : ∀ x ∈ r :: o'.since, x.isGetNext = true := by
    intro x hx
    rcases List.mem_cons.mp hx with rfl | hx
    · exact hr
    · exact hrem.only x hx
  have hlen : u.ga.rpHash.length = 32 := by rw [hrp, F.chip.sha256_length]
  have hin : Within F (some { o' with since := r :: o'.since })
      (fun g => g.pos = u.ga.pos + 1 ∧ g.count = u.ga.count ∧ g.rpHash = u.ga.rpHash ∧
        g.clientHash = u.ga.clientHash ∧ g.flags = u.ga.flags)
      ((u.setGa { u.ga with pos := u.ga.pos + 1 }).setGa { u.ga with
        pos := u.ga.pos + 1, lastMs :=
          ((((b.wait d).jot .gaCheck).jot .gaNext).now + d') % 2 ^ 32 })
      (((((b.wait d).jot .gaCheck).jot .gaNext).wait d').jot .gaStamp) :=
    ⟨⟨rfl, rfl, rfl, rfl, rfl⟩, ho, ((hc.jot (b := b.wait d) rfl).jot
      (b := (b.wait d).jot .gaCheck) rfl).jot
      (b := (((b.wait d).jot .gaCheck).jot .gaNext).wait d') rfl⟩
  apply swp_mono (swp_gaSignRespond_signed hlen u.ga.flags u.ga.clientHash 0 hin) _ fun _ h => h
  rintro a u₁ b₁ ⟨⟨⟨hpos, hcount, hrp₁, hhash₁, hflags₁⟩, ho₁, hc₁⟩, hsigned⟩
  have hwithin := hrem.within
  refine ⟨fun _ _ => ⟨_, rfl, ?_, honly, ?_, hcount.trans hrem.count,
    q, hq, hrp₁.trans hrp, hhash₁.trans hhash, ?_⟩, ho₁, hc₁, fun hok => ⟨_, rfl, honly, ?_, ?_⟩⟩
  · simp only [List.length_cons]
    omega
  · simp only [List.length_cons]
    omega
  · rw [hrp₁, hflags₁]
    exact hflags
  · have hcount := hrem.count
    simp only [List.length_cons]
    omega
  · obtain ⟨htake, -, slot, hnote⟩ := hsigned hok
    rw [hrp] at htake hflags
    rw [hhash] at hnote
    exact ⟨q, u.ga.flags, slot, hq, hflags, htake, hnote⟩

/-! ### The dispatcher -/

theorem openedOf_answer {r : Request} {a : Answer} :
    openedOf (b.jot (.answer r a)).notes =
      if r.isGetAssertion = true ∧ a.code = Status.ok.code then some ⟨r, a, []⟩
      else openedOf b.notes := rfl

theorem iterates_of_inactive {r : Request} {a : Answer}
    (hr : r.isGetNext = true → a.code ≠ Status.ok.code)
    (hoff : u.ready = true → u.ga.active = true → u.ga.count ≤ u.ga.pos)
    (hc : Continued F b.notes) : Iterates F u (b.jot (.answer r a)) :=
  ⟨fun hready ha hp => absurd hp (Nat.not_lt_of_le (hoff hready ha)),
    Continued.cons (fun hget hok => absurd hok (hr hget)) hc⟩

/-- The commands that end the iteration. -/
theorem swp_serveChecked_other {r : Request} {o : Option Opened}
    (hr : r.command.isAssertion = false) (h : Within F o (fun g => g.active = false) u b) :
    swp (fidoBoard F) A (serveChecked F r) (fun a u' b' => Iterates F u' (b'.jot (.answer r a)))
      (fun b' => Continued F b'.notes) u b := by
  have hnext : r.isGetNext = false := by
    rcases r with ⟨c, valid⟩
    cases c <;> first | rfl | cases hr
  have done : ∀ a u' b', Within F o (fun g => g.active = false) u' b' →
      Iterates F u' (b'.jot (.answer r a)) := by
    intro a u' b' h'
    refine iterates_of_inactive (fun hget => ?_) (fun _ ha => ?_) h'.2.2
    · simp [hnext] at hget
    · simp [h'.1] at ha
  rw [serveChecked]
  split
  · exact done _ _ _ h
  rw [swp_bind, swp_get]
  split
  · exact done _ _ _ h
  · have keeps : Keeps (fidoBoard F) A (Within F o fun g => g.active = false)
        (fun b' => Continued F b'.notes) (serve F r.command) :=
      (within_around o _).serve gaScope_tokens ⟨rfl, rfl⟩ (fun ha => by simp [ha] at hr)
        fun _ => gaScope_whole.iter
    exact swp_mono (keeps u b h) done fun _ h => h

/-- GetAssertion and GetNextAssertion, the payload being noted already. -/
theorem swp_serveChecked_assertion {r : Request} {o : Option Opened}
    (hr : r.command.isAssertion = true)
    (hheard : u.ready = true → u.ga.active = true → u.ga.pos < u.ga.count → r.cborValid = true)
    (hmem : u.ready = true → u.ga.active = true → u.ga.pos < u.ga.count →
      ∃ o', o = some o' ∧ Remembers F u.ga o')
    (ho : openedOf b.notes = o.map fun o => { o with since := r :: o.since })
    (hc : Continued F b.notes) :
    swp (fidoBoard F) A (serveChecked F r) (fun a u' b' => Iterates F u' (b'.jot (.answer r a)))
      (fun b' => Continued F b'.notes) u b := by
  rw [serveChecked]
  split
  · rename_i hinvalid
    refine iterates_of_inactive (fun _ => code_invalidCbor) (fun hready ha => ?_) hc
    -- an open iteration would have noticed the payload
    apply Nat.le_of_not_lt
    intro hp
    simp [hheard hready ha hp] at hinvalid
  rw [swp_bind, swp_get]
  rcases r with ⟨c, valid⟩
  cases c with
  | getAssertion q =>
      dsimp only
      split
      · rename_i hno
        exact iterates_of_inactive (fun hget => by cases hget)
          (fun hready _ => by simp [hno.2] at hready) hc
      · apply swp_mono (swp_getAssertion_set
          (r := ⟨.getAssertion q, valid⟩) rfl ho hc) _ fun _ h => h
        rintro a u' b' ⟨hset, -, hc'⟩
        have hnext : (⟨.getAssertion q, valid⟩ : Request).isGetNext = true → False := fun h => by
          cases h
        refine ⟨fun _ ha _ => ?_, Continued.cons (fun hget => (hnext hget).elim) hc'⟩
        obtain ⟨hok, hrem⟩ := hset ha
        exact ⟨_, by rw [openedOf_answer, if_pos ⟨rfl, hok⟩], hrem⟩
  | getNextAssertion =>
      dsimp only
      split
      · rename_i hno
        exact iterates_of_inactive (fun _ => code_notAllowed)
          (fun hready _ => by simp [hno.2] at hready) hc
      · rename_i hgo
        have hready : u.ready = true := by
          cases hu : u.ready with
          | true => rfl
          | false => exact absurd ⟨rfl, hu⟩ hgo
        apply swp_mono (swp_getNextAssertion_went rfl (hmem hready) ho hc) _ fun _ h => h
        intro a u' b' h'
        refine ⟨fun _ ha hp => ?_, Continued.cons (fun _ hok => ?_) h'.continued⟩
        · obtain ⟨o', hsome, -, hrem⟩ := h'.remembers ha hp
          refine ⟨o', ?_, hrem⟩
          rw [openedOf_answer, if_neg (fun hget => by cases hget.1), h'.opened, hsome]
        · obtain ⟨o', hsome, hcont⟩ := h'.answer hok
          exact ⟨o', h'.opened.trans hsome, hcont⟩
  | _ => cases hr

/-- A payload that is noted already; `o` is what the notes were before. -/
theorem swp_dispatch_iterates {r : Request} {o : Option Opened}
    (hheard : u.ready = true → u.ga.active = true → u.ga.pos < u.ga.count → r.heard = true)
    (hmem : u.ready = true → u.ga.active = true → u.ga.pos < u.ga.count →
      ∃ o', o = some o' ∧ Remembers F u.ga o')
    (ho : openedOf b.notes = o.map fun o => { o with since := r :: o.since })
    (hc : Continued F b.notes) :
    swp (fidoBoard F) A (dispatch F r) (fun a u' b' => Iterates F u' (b'.jot (.answer r a)))
      (fun b' => Continued F b'.notes) u b := by
  rw [dispatch]
  split
  · rename_i hempty
    refine iterates_of_inactive (fun _ => code_invalidLength) (fun hready ha => ?_) hc
    apply Nat.le_of_not_lt
    intro hp
    have hr := hheard hready ha hp
    simp [Request.heard, hempty] at hr
  have hiter : swp (fidoBoard F) A (endEnumeration r.command)
      (fun _ u' b' => u'.ready = u.ready ∧ u'.ga = u.ga ∧ b' = b)
      (fun b' => Continued F b'.notes) u b := by
    rw [endEnumeration]
    split <;> exact ⟨rfl, rfl, rfl⟩
  rw [swp_bind]
  apply swp_mono hiter _ fun _ h => h
  rintro _ u₁ _ ⟨hready, hga, rfl⟩
  rw [← hready, ← hga] at hheard hmem
  rw [swp_bind, endIteration]
  cases hr : r.command.isAssertion with
  | false => exact swp_serveChecked_other hr ⟨rfl, ho, hc⟩
  | true =>
      refine swp_serveChecked_assertion hr (fun hu ha hp => ?_) hmem ho hc
      have h := hheard hu ha hp
      simp only [Request.heard, hr, Bool.not_true, Bool.or_false, Bool.and_eq_true] at h
      exact h.2

theorem iterates_dispatch {r : Request} (h : Iterates F u b)
    (hheard : u.ready = true → u.ga.active = true → u.ga.pos < u.ga.count → r.heard = true) :
    swp (fidoBoard F) A (fidoHidCborDispatch F r) (fun _ u' b' => Iterates F u' b')
      (fun b' => Continued F b'.notes) u b := by
  rw [fidoHidCborDispatch, swp_bind]
  apply swp_leave
  rw [swp_bind]
  have hc : Continued F (b.jot (.request r)).notes := .cons trivial h.continued
  apply swp_mono (swp_dispatch_iterates hheard h.remembers rfl hc) _ fun _ h => h
  intro a u' b' h'
  rw [swp_bind]
  exact swp_leave h'

/-- Power-up forgets the iteration. -/
theorem iterates_bringUp (hc : Continued F b.notes) :
    swp (fidoBoard F) A (bringUp F) (fun _ u' b' => Iterates F u' b')
      (fun b' => Continued F b'.notes) .boot b := by
  rw [bringUp, swp_bind]
  apply swp_leave
  have hboot : Within F none (fun g => g.active = false) .boot (b.jot .powerUp) :=
    ⟨rfl, rfl, .cons trivial hc⟩
  apply swp_mono ((within_around none _).initialised gaScope_tokens _ _ hboot) _
    fun _ h => h
  exact fun _ _ _ h => ⟨fun _ ha => by simp [h.1] at ha, h.2.2⟩

end Commands

/-! ### Runs -/

/-- What holds of the device between two actions. -/
def Device.Iterating (F : FidoPrims) (d : Device) : Prop :=
  match d.ram with
  | some u => Iterates F u d.board
  | none => Continued F d.board.notes

theorem iterating_settle {F : FidoPrims} {α : Type} {o : Outcome (α × FidoRam) (Board Note)}
    (h : o.Satisfies (fun x b => Iterates F x.2 b) fun b => Continued F b.notes) :
    (Device.settle o).Iterating F := by
  cases o with
  | done x b => exact h
  | cut b => exact h

theorem iterating_step {F : FidoPrims} {d : Device} (a : Action) (h : d.Iterating F)
    (hears : d.Hears a) : (Device.step F d a).Iterating F := by
  cases a with
  | powerUp fs =>
      have hc : Continued F { d.board with now := 0 }.notes := by
        rcases d with ⟨_ | u, b⟩
        · exact h
        · have hu : Iterates F u b := h
          exact hu.continued
      apply iterating_settle
      exact run_of_swp (A := fun _ => True) trivial (iterates_bringUp hc) fun _ _ => trivial
  | request r fs =>
      rcases d with ⟨_ | u, b⟩
      · exact h
      · apply iterating_settle
        exact run_of_swp (A := fun _ => True) trivial (iterates_dispatch h (hears u rfl))
          fun _ _ => trivial

/-- Over every run that hears every payload while credentials are left, cut
and failing calls included, GetNextAssertion continues only the GetAssertion
that answered OK last. -/
theorem next_assertion_continues (F : FidoPrims) (b : Board Note) (acts : List Action)
    (hears : ∀ pre a, pre ++ [a] <+: acts → ((device F b).run pre).Hears a) :
    Continued F ((device F b).run acts).board.notes := by
  have hinit : (device F b).init.Iterating F := Continued.nil
  have h : ((device F b).run acts).Iterating F :=
    System.run_keeps_of hinit (fun _ a h => iterating_step a h) hears
  rcases hd : (device F b).run acts with ⟨_ | u, b'⟩
  · rw [hd] at h
    exact h
  · rw [hd] at h
    have hu : Iterates F u b' := h
    exact hu.continued

/-! ### Runs of the model -/

theorem Device.hears_of_heard {d : Device} {r : Request} {fs : List BoardFate}
    (h : r.heard = true) : d.Hears (.request r fs) := fun _ _ _ _ _ => h

/-- A search for the passkeys of an RP, or what is left of it when the map
is not valid CBOR. -/
def demoSearch (valid : Bool) : Request where
  command := .getAssertion (.ok {
    rpId := [1]
    clientHash := zeros
    allow := none
    opt := ⟨none, none, none⟩
    pinUv := ⟨none, none⟩
    clientHash_length := length_zeros })
  cborValid := valid

/-- Two passkeys are made, and the search for them finds both. -/
def demoFound : List Action :=
  [.powerUp [], .request (demoMake 1 1) [], .request (demoMake 1 2) [],
    .request (demoSearch true) []]

/-- The GetNextAssertion. -/
def demoNext : Action := .request ⟨.getNextAssertion, true⟩ []

/-- The last note is the answer OK to a GetNextAssertion. -/
def answersNext : History → Bool
  | [] => false
  | e :: _ =>
      match e.note with
      | .answer r a => r.isGetNext && decide (a.code = Status.ok.code)
      | _ => false

theorem next_assertion_continues_demo :
    answersNext ((device mixFido blankBoard).run (demoFound ++ [demoNext])).board.notes = true ∧
      Continued mixFido ((device mixFido blankBoard).run
        (demoFound ++ [demoNext])).board.notes := by
  have hears : ∀ pre a, pre ++ [a] <+: demoFound ++ [demoNext] →
      ((device mixFido blankBoard).run pre).Hears a := by
    intro pre a hp
    have ha : a ∈ demoFound ++ [demoNext] := hp.subset (by simp)
    simp only [demoFound, demoNext, List.cons_append, List.nil_append, List.mem_cons,
      List.not_mem_nil, or_false] at ha
    rcases ha with rfl | rfl | rfl | rfl | rfl
    · trivial
    all_goals exact Device.hears_of_heard rfl
  exact ⟨by decide +kernel, next_assertion_continues mixFido blankBoard _ hears⟩

theorem not_continued {F : FidoPrims} {es : History} (hn : answersNext es = true)
    (hstale : (openedOf es.tail).any (fun o => o.since.all Request.isGetNext) = false) :
    ¬Continued F es := by
  intro h
  cases h with
  | nil => cases hn
  | @cons e es hlast =>
      rcases e with ⟨n, t, rmem, ecc⟩
      cases n with
      | answer r a =>
          simp only [answersNext, Bool.and_eq_true, decide_eq_true_eq] at hn
          obtain ⟨o, ho, hcont⟩ := hlast hn.1 hn.2
          rw [List.tail_cons, ho, Option.any_some] at hstale
          have hall : o.since.all Request.isGetNext = true := List.all_eq_true.mpr hcont.only
          simp [hall] at hstale
      | _ => cases hn

/-- A search that is refused for its CBOR does not end the one before it. -/
theorem unheard_search_continues :
    ¬Continued mixFido ((device mixFido blankBoard).run
      (demoFound ++ [.request (demoSearch false) [], demoNext])).board.notes :=
  not_continued (by decide +kernel) (by decide +kernel)

end Nixtropic.Fido
