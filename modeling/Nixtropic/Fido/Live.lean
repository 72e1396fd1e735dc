import Nixtropic.Fido.Ground

/-!
The pinUvAuthToken as the notes tell it.

The notes of a run say when a token was issued, used, spent and forgotten, in
true time. `liveOf` reads the token in force off them, and the variables of
`pin_token.c` are what is left of it on a 32-bit clock.
-/

namespace Nixtropic.Fido

open Crash

/-- The token in force: what it was issued as, the RP it belongs to by now,
the true time of its issue, and what happened to it since. -/
structure Live where
  token : Bytes
  perms : UInt8
  rp : Option Bytes
  issued : ℕ
  used : Bool
  spent : Bool

abbrev History := List (Entry Note)

/-- What one note does to the token in force. -/
def Live.after (e : Entry Note) (l : Option Live) : Option Live :=
  match e.note with
  | .powerUp => none
  | .puatReset => none
  | .puatBegin token perms rp => some ⟨token, perms &&& puatPermsKnown, rp, e.time, false, false⟩
  | .puatVerify _ _ ok => if ok then l.map fun l => { l with used := true } else l
  | .puatBindRp rp => l.map fun l => { l with rp := some (l.rp.getD rp) }
  | .puatConsume => l.map fun l => { l with spent := true }
  | _ => l

def liveOf : History → Option Live
  | [] => none
  | e :: es => Live.after e (liveOf es)

/-- The true time of the last `s_ga.last_ms`. -/
def stampOf : History → Option ℕ
  | [] => none
  | e :: es =>
      match e.note with
      | .powerUp => none
      | .gaStamp => some e.time
      | _ => stampOf es

/-- The variables of `pin_token.c` are those of the token in force. -/
def Tracks (t : Token) (now : ℕ) : Option Live → Prop
  | none => t.inUse = false ∧ t.hasRp = false
  | some l => t.inUse = true ∧ t.token = l.token ∧ t.used = l.used ∧ t.uv = !l.spent ∧
      t.perms = (if l.spent then 0 else l.perms) ∧ t.hasRp = l.rp.isSome ∧
      t.rpHash = l.rp.getD zeros ∧ t.issuedMs = l.issued % 2 ^ 32 ∧ l.issued ≤ now

/-- The variables of the assertion iteration. -/
def GaTracks (g : GaState) (now : ℕ) (stamp : Option ℕ) : Prop :=
  g.active = true → ∃ t, stamp = some t ∧ g.lastMs = t % 2 ^ 32 ∧ t ≤ now

theorem Tracks.wait {t : Token} {now : ℕ} {l : Option Live} (h : Tracks t now l) (d : ℕ) :
    Tracks t (now + d) l := by
  cases l with
  | none => exact h
  | some l =>
      obtain ⟨h₁, h₂, h₃, h₄, h₅, h₆, h₇, h₈, h₉⟩ := h
      exact ⟨h₁, h₂, h₃, h₄, h₅, h₆, h₇, h₈, by omega⟩

theorem GaTracks.wait {g : GaState} {now : ℕ} {stamp : Option ℕ} (h : GaTracks g now stamp)
    (d : ℕ) : GaTracks g (now + d) stamp := by
  intro ha
  obtain ⟨t, h₁, h₂, h₃⟩ := h ha
  exact ⟨t, h₁, h₂, by omega⟩

theorem tracks_cleared (t : Token) (now : ℕ) : Tracks t.cleared now none := ⟨rfl, rfl⟩

theorem tracks_begun (t : Token) (token : Bytes) (perms : UInt8) (rp : Option Bytes) (now : ℕ) :
    Tracks (t.begun token perms rp (now % 2 ^ 32)) now
      (some ⟨token, perms &&& puatPermsKnown, rp, now, false, false⟩) :=
  ⟨rfl, rfl, rfl, rfl, rfl, rfl, rfl, rfl, Nat.le_refl _⟩

theorem Tracks.used {t : Token} {now : ℕ} {l : Option Live} (h : Tracks t now l) :
    Tracks { t with used := true } now (l.map fun l => { l with used := true }) := by
  cases l with
  | none => exact h
  | some l =>
      obtain ⟨h₁, h₂, h₃, h₄, h₅, h₆, h₇, h₈, h₉⟩ := h
      exact ⟨h₁, h₂, rfl, h₄, h₅, h₆, h₇, h₈, h₉⟩

theorem Tracks.bound {t : Token} {now : ℕ} {l : Option Live} (h : Tracks t now l) (rp : Bytes) :
    Tracks (t.bound rp) now (l.map fun l => { l with rp := some (l.rp.getD rp) }) := by
  cases l with
  | none =>
      rw [Token.bound, if_pos (.inl h.1)]
      exact h
  | some l =>
      obtain ⟨h₁, h₂, h₃, h₄, h₅, h₆, h₇, h₈, h₉⟩ := h
      cases hrp : l.rp with
      | none =>
          have hno : t.hasRp = false := by simp [h₆, hrp]
          rw [Token.bound, if_neg (by simp [h₁, hno])]
          exact ⟨h₁, h₂, h₃, h₄, h₅, rfl, by simp [hrp], h₈, h₉⟩
      | some r =>
          have hyes : t.hasRp = true := by simp [h₆, hrp]
          rw [Token.bound, if_pos (.inr hyes)]
          exact ⟨h₁, h₂, h₃, h₄, h₅, by simp [hyes], by simp [h₇, hrp], h₈, h₉⟩

theorem Tracks.consumed {t : Token} {now : ℕ} {l : Option Live} (h : Tracks t now l) :
    Tracks t.consumed now (l.map fun l => { l with spent := true }) := by
  cases l with
  | none =>
      rw [Token.consumed, if_neg (by simp [h.1])]
      exact h
  | some l =>
      obtain ⟨h₁, h₂, h₃, h₄, h₅, h₆, h₇, h₈, h₉⟩ := h
      rw [Token.consumed, if_pos h₁]
      exact ⟨h₁, h₂, h₃, by simp, by simp, h₆, h₇, h₈, h₉⟩

/-- The age on the 32-bit clock is the true age, wrapped. -/
theorem tickDiff_mod {now since : ℕ} (h : since ≤ now) :
    tickDiff (now % 2 ^ 32) (since % 2 ^ 32) = (now - since) % 2 ^ 32 := by
  unfold tickDiff
  omega

/-! ### Where a token comes from -/

/-- The notes after which a token is no more the last one issued. -/
def Note.endsToken : Note → Bool
  | .powerUp => true
  | .puatReset => true
  | .puatBegin _ _ _ => true
  | _ => false

def Note.spends : Note → Bool
  | .puatConsume => true
  | _ => false

/-- A touch was given to MakeCredential or GetAssertion. -/
def Note.givesTouch : Note → Bool
  | .touched _ .ok => true
  | _ => false

/-- `fido_pin_verify` said that the PIN is right. -/
def Note.rightPin : Note → Bool
  | .pinVerify _ reply => decide (reply.rc = .ok) && reply.correct
  | _ => false

/-- The RP that a token was accepted for. -/
def Note.acceptedRp : Note → Option Bytes
  | .tokenAccepted _ rp _ _ => some rp
  | _ => none

/-- A touch was given at a prompt that has no `puat_consume` behind it. -/
def Note.idleTouch : Note → Bool
  | .touched .use _ => false
  | .touched _ .ok => true
  | _ => false

/-- Such a touch finds no token that could still be used. -/
def Note.Heeded (n : Note) (es : History) : Prop :=
  n.idleTouch = true → ∀ l, liveOf es = some l → l.spent = true

def Heeded : History → Prop
  | [] => True
  | e :: es => e.note.Heeded es ∧ Heeded es

instance (n : Note) (es : History) : Decidable (n.Heeded es) :=
  decidable_of_iff (n.idleTouch = true → (liveOf es).all Live.spent = true) (by
    rw [Note.Heeded]
    cases liveOf es <;> simp)

def decideHeeded : (es : History) → Decidable (Heeded es)
  | [] => .isTrue trivial
  | _ :: es => @instDecidableAnd _ _ inferInstance (decideHeeded es)

instance (es : History) : Decidable (Heeded es) := decideHeeded es

theorem Heeded.cons {e : Entry Note} {es : History} (he : e.note.idleTouch = false)
    (h : Heeded es) : Heeded (e :: es) :=
  ⟨fun hidle => absurd hidle (Bool.eq_false_iff.mp he), h⟩

theorem Heeded.of_append {new es : History} (h : Heeded (new ++ es)) : Heeded es := by
  induction new with
  | nil => exact h
  | cons e new ih => exact ih h.2

/-- What became of a token since it was issued for `rp₀`: nothing ended it, it
is not spent unless it says so, and it was accepted for its own RP only. If
the touches were `heeded`, none was given while it is not spent. -/
structure Since (heeded : Prop) (later : History) (rp₀ : Option Bytes) (l : Live) : Prop where
  alive : ∀ e ∈ later, e.note.endsToken = false
  unspent : l.spent = false → ∀ e ∈ later, e.note.spends = false
  untouched : heeded → l.spent = false → ∀ e ∈ later, e.note.givesTouch = false
  rp : rp₀ = none ∨ rp₀ = l.rp
  uses : ∀ e ∈ later, ∀ r, e.note.acceptedRp = some r → l.rp = some r

/-- The token in force was issued right after a PIN was verified. -/
def Issued (es : History) : Prop :=
  ∀ l, liveOf es = some l → ∃ later e e₁ e₂ earlier perms rp₀,
    es = later ++ e :: e₁ :: e₂ :: earlier ∧ e.note = .puatBegin l.token perms rp₀ ∧
      l.perms = perms &&& puatPermsKnown ∧ e₁.note = .puatReset ∧ e₂.note.rightPin = true ∧
      Since (Heeded es) later rp₀ l

/-- Notes that change the token in force at most by `f`. -/
theorem Issued.extend {es : History} (h : Issued es) (new : History) (f : Live → Live)
    (hlive : liveOf (new ++ es) = (liveOf es).map f)
    (hends : ∀ e ∈ new, e.note.endsToken = false)
    (hf : ∀ l, (f l).token = l.token ∧ (f l).perms = l.perms)
    (hspent : ∀ l, (f l).spent = false → l.spent = false ∧ ∀ e ∈ new, e.note.spends = false)
    (htouch : ∀ l, liveOf es = some l → (f l).spent = false → Heeded (new ++ es) →
      ∀ e ∈ new, e.note.givesTouch = false)
    (hrp : ∀ l, l.rp = none ∨ (f l).rp = l.rp)
    (huse : ∀ e ∈ new, ∀ l r, liveOf es = some l → e.note.acceptedRp = some r →
      (f l).rp = some r) : Issued (new ++ es) := by
  intro l' hl'
  rw [hlive] at hl'
  obtain ⟨l, hl, rfl⟩ := Option.map_eq_some_iff.mp hl'
  obtain ⟨later, eb, e₁, e₂, earlier, perms, rp₀, hes, hb, hperms, h₁, h₂, hs⟩ := h l hl
  refine ⟨new ++ later, eb, e₁, e₂, earlier, perms, rp₀, ?_, (hf l).1 ▸ hb,
    (hf l).2.trans hperms, h₁, h₂, ?_⟩
  · rw [List.append_assoc, ← hes]
  constructor
  · intro x hx
    rcases List.mem_append.mp hx with hx | hx
    · exact hends x hx
    · exact hs.alive x hx
  · intro hun x hx
    rcases List.mem_append.mp hx with hx | hx
    · exact (hspent l hun).2 x hx
    · exact hs.unspent (hspent l hun).1 x hx
  · intro hheed hun x hx
    rcases List.mem_append.mp hx with hx | hx
    · exact htouch l hl hun hheed x hx
    · exact hs.untouched hheed.of_append (hspent l hun).1 x hx
  · rcases hs.rp with h0 | h0
    · exact .inl h0
    · rcases hrp l with hn | heq
      · exact .inl (h0.trans hn)
      · exact .inr (h0.trans heq.symm)
  · intro x hx r hr
    rcases List.mem_append.mp hx with hx | hx
    · exact huse x hx l r hl hr
    · have hlr := hs.uses x hx r hr
      rcases hrp l with hn | heq
      · simp [hn] at hlr
      · exact heq.trans hlr

/-- A note that changes the token in force at most by `f`. -/
theorem Issued.cons {e : Entry Note} {es : History} (h : Issued es) (f : Live → Live)
    (hlive : liveOf (e :: es) = (liveOf es).map f) (hends : e.note.endsToken = false)
    (hf : ∀ l, (f l).token = l.token ∧ (f l).perms = l.perms)
    (hspent : ∀ l, (f l).spent = false → l.spent = false ∧ e.note.spends = false)
    (htouch : ∀ l, liveOf es = some l → (f l).spent = false → e.note.Heeded es →
      e.note.givesTouch = false)
    (hrp : ∀ l, l.rp = none ∨ (f l).rp = l.rp)
    (huse : ∀ l r, liveOf es = some l → e.note.acceptedRp = some r → (f l).rp = some r) :
    Issued (e :: es) := by
  apply h.extend [e] f hlive
  · simpa using hends
  · exact hf
  · simpa using hspent
  · intro l hl hun hheed x hx
    rw [List.mem_singleton.mp hx]
    exact htouch l hl hun hheed.1
  · exact hrp
  · intro x hx
    rw [List.mem_singleton.mp hx]
    exact huse

/-- A note that leaves the token in force as it is. -/
theorem Issued.silent {e : Entry Note} {es : History} (h : Issued es)
    (hlive : liveOf (e :: es) = liveOf es) (hends : e.note.endsToken = false)
    (hspends : e.note.spends = false) (htouch : e.note.givesTouch = false)
    (huse : e.note.acceptedRp = none) : Issued (e :: es) := by
  apply h.cons id
  · rw [hlive, Option.map_id]
    rfl
  · exact hends
  · exact fun _ => ⟨rfl, rfl⟩
  · exact fun _ hs => ⟨hs, hspends⟩
  · exact fun _ _ _ _ => htouch
  · exact fun _ => .inr rfl
  · intro l r _ hr
    simp [huse] at hr

/-- A touch at any prompt, as it is noted. -/
theorem Issued.asked {e : Entry Note} {es : History} (h : Issued es) {prompt : Prompt}
    {up : UpResult} (he : e.note = .touched prompt up) (hp : prompt ≠ .use ∨ up ≠ .ok) :
    Issued (e :: es) := by
  obtain ⟨n, time, rmem, ecc⟩ := e
  cases he
  apply h.cons id
  · rw [Option.map_id]
    rfl
  · rfl
  · exact fun _ => ⟨rfl, rfl⟩
  · exact fun _ hs => ⟨hs, rfl⟩
  · intro l hl hun hheed
    cases up with
    | ok =>
        -- the prompts that spend nothing are heeded
        have hspent : l.spent = true := by
          cases prompt with
          | use => exact absurd rfl (hp.resolve_right (not_not.mpr rfl))
          | excluded => exact hheed rfl l hl
          | probe => exact hheed rfl l hl
        exact absurd hspent (by simpa using hun)
    | cancel => rfl
    | fail => rfl
  · exact fun _ => .inr rfl
  · exact fun _ _ _ hr => by cases hr

/-- A touch with `puat_consume` behind it. -/
theorem Issued.spend {e e' : Entry Note} {es : History} (h : Issued es) {prompt : Prompt}
    {up : UpResult} (he : e.note = .touched prompt up) (he' : e'.note = .puatConsume) :
    Issued (e' :: e :: es) := by
  obtain ⟨n, time, rmem, ecc⟩ := e
  obtain ⟨n', time', rmem', ecc'⟩ := e'
  cases he
  cases he'
  apply h.extend [_, _] fun l => { l with spent := true }
  · rfl
  · simp [Note.endsToken]
  · exact fun _ => ⟨rfl, rfl⟩
  · exact fun _ hs => by cases hs
  · exact fun _ _ hs => by cases hs
  · exact fun _ => .inr rfl
  · simp [Note.acceptedRp]

/-- A token issued right after the PIN was verified. -/
theorem issued_begun {e e₁ e₂ : Entry Note} {earlier : History} {token : Bytes} {perms : UInt8}
    {rp : Option Bytes} (he : e.note = .puatBegin token perms rp) (h₁ : e₁.note = .puatReset)
    (h₂ : e₂.note.rightPin = true) : Issued (e :: e₁ :: e₂ :: earlier) := by
  intro l hl
  have hlive : liveOf (e :: e₁ :: e₂ :: earlier) =
      some ⟨token, perms &&& puatPermsKnown, rp, e.time, false, false⟩ := by
    rw [liveOf, Live.after, he]
  rw [hlive] at hl
  have hl := Option.some.inj hl
  subst hl
  refine ⟨[], e, e₁, e₂, earlier, perms, rp, rfl, he, rfl, h₁, h₂, ?_⟩
  constructor
  · simp
  · simp
  · simp
  · exact .inr rfl
  · simp

/-- A note after which there is no token. -/
theorem issued_none {es : History} (h : liveOf es = none) : Issued es := by
  intro l hl
  simp [h] at hl

/-! ### Timers -/

/-- How old the token may be at its next use. -/
def Live.limit (l : Live) : ℕ := if l.used then puatMaxLifeMs else puatInitialUseMs

/-- A timer that ran out is not noticed: the age is over the limit, and on the
32-bit clock it is not. -/
def missed (limit age : ℕ) : Prop := limit < age ∧ age % 2 ^ 32 ≤ limit

theorem expired_iff {t : Token} {now : ℕ} {l : Live} (h : Tracks t now (some l)) :
    t.expired (now % 2 ^ 32) = true ↔ l.limit < (now - l.issued) % 2 ^ 32 := by
  obtain ⟨h₁, -, h₃, -, -, -, -, h₈, h₉⟩ := h
  rw [Token.expired, h₁, h₃, h₈, tickDiff_mod h₉, Live.limit]
  cases l.used with
  | true => simp
  | false =>
      have hle : puatInitialUseMs ≤ puatMaxLifeMs := by decide
      simp only [Bool.true_and, Bool.not_false, Bool.or_eq_true, decide_eq_true_eq,
        Bool.false_eq_true, if_false]
      omega

/-- GetNextAssertion has gone on since the request came. -/
def wentOn : History → Bool
  | [] => false
  | e :: es =>
      match e.note with
      | .request _ => false
      | .gaNext => true
      | _ => wentOn es

def Request.isGetNext (r : Request) : Bool :=
  match r.command with
  | .getNextAssertion => true
  | _ => false

/-- What a note may be, after the others: a token is used in time, an
iteration goes on in time, and a reset asks for its touch in time. -/
def Note.Timely (n : Note) (time : ℕ) (es : History) : Prop :=
  match n with
  | .puatVerify _ _ true => ∃ l, liveOf es = some l ∧ time - l.issued ≤ l.limit
  | .puatInUse true => ∃ l, liveOf es = some l ∧ time - l.issued ≤ l.limit
  | .gaNext => ∃ t, stampOf es = some t ∧ time - t ≤ getNextTimeoutMs
  | .resetTouch => time ≤ resetWindowMs
  | .answer r a => r.isGetNext = true → a.code = Status.ok.code → wentOn es = true
  | _ => True

/-- No limit is overrun anywhere in the notes. -/
def Timely : History → Prop
  | [] => True
  | e :: es => e.note.Timely e.time es ∧ Timely es

/-- What a note must be for the 32-bit clock to do: where a timer is looked
at, it is not one that ran out unnoticed. -/
def Note.Unwrapped (n : Note) (time : ℕ) (es : History) : Prop :=
  match n with
  | .puatExpire => ∀ l, liveOf es = some l → ¬missed l.limit (time - l.issued)
  | .gaCheck => ∀ t, stampOf es = some t → ¬missed getNextTimeoutMs (time - t)
  | .resetCheck => ¬missed resetWindowMs time
  | _ => True

/-- No timer is looked at when it ran out unnoticed. -/
def Unwrapped : History → Prop
  | [] => True
  | e :: es => e.note.Unwrapped e.time es ∧ Unwrapped es

end Nixtropic.Fido
