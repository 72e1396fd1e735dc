import Nixtropic.Ccid.Reader

/-!
What holds of the reader between any two actions, and while a command is in the works.

The receive buffer has one owner at a time: the bus while a transfer is posted on it,
the task from the arrival of a message until its command is over. The log says in
which order messages, commands and answers come.
-/

namespace Nixtropic.Ccid

open Crash Pgp Runs

/-! ### The order of events -/

def Event.isReceived : Event → Bool
  | .received _ => true
  | _ => false

def Event.isDelivered : Event → Bool
  | .delivered _ => true
  | _ => false

/-- What stands before an event: the message before its command, the command before
its answer, the answer before it is read. Only the host reading the last answer may
come between a message and its command, and only the next message between an answer
and its being read. -/
def Event.Follows (R : Bytes → Bytes → Prop) (e : Event) (past : List Event) : Prop :=
  match e with
  | .received _ => True
  | .reset => True
  | .began msg => ∃ mid pre, past = mid ++ .received msg :: pre ∧ ∀ x ∈ mid, x.isDelivered = true
  | .posted ans => ∃ msg pre, past = .began msg :: pre ∧ R msg ans
  | .delivered ans => ∃ mid pre, past = mid ++ .posted ans :: pre ∧ ∀ x ∈ mid, x.isReceived = true

/-- So stands every event of the log; `R` is between a message and its answer. -/
def Orderly (R : Bytes → Bytes → Prop) : List Event → Prop
  | [] => True
  | e :: past => e.Follows R past ∧ Orderly R past

/-- There was a reset since the last command began. -/
def Renewed : List Event → Prop
  | [] => True
  | .began _ :: _ => False
  | .reset :: _ => True
  | _ :: past => Renewed past

/-- The card has no access status and no key. -/
def Closed (c : Card) : Prop := ∀ u, c.ram = some u → u.auth = Auth.none ∧ u.kek = zeros

theorem dropAll_closed (u : PgpRam) : (u.dropAuth .all).auth = Auth.none ∧
    (u.dropAuth .all).kek = zeros := by
  simp [PgpRam.dropAuth, Auth.without, Auth.all, Auth.none, Auth.hasPw1]

/-! ### Between two actions -/

/-- The reader outside a command. -/
structure Idle (R : Bytes → Bytes → Prop) (d : Reader) : Prop where
  processing : d.processing = false
  epoch : d.epoch < 2 ^ 32
  /-- One transfer is posted on the buffer, or it has a message. -/
  armed : d.opened = true → d.outPosted = if d.rxPending then 0 else 1
  shut : d.opened = false → d.outPosted = 0 ∧ d.rxPending = false ∧ d.inPosted = none
  claimed : d.opened = true → d.claimed = true
  waits : d.rxPending = true → ∃ mid pre, d.log = mid ++ .received d.rxBuf :: pre ∧
    ∀ x ∈ mid, x.isDelivered = true
  unread : ∀ ans, d.inPosted = some ans → ∃ mid pre, d.log = mid ++ .posted ans :: pre ∧
    ∀ x ∈ mid, x.isReceived = true
  orderly : Orderly R d.log
  renewed : Renewed d.log → Closed d.card

/-- The reader in a command over `msg`, since when there were `k` resets. -/
structure Busy (R : Bytes → Bytes → Prop) (d₀ : Reader) (k : ℕ) (d : Reader) : Prop where
  processing : d.processing = true
  epoch : d.epoch = (d₀.epoch + k) % 2 ^ 32
  unarmed : d.outPosted = 0
  none_waits : d.rxPending = false
  none_unread : d.inPosted = none
  message : d.rxBuf = d₀.rxBuf
  claimed : d.opened = true → d.claimed = true
  orderly : Orderly R d.log
  /-- Without a reset nothing happened. -/
  steady : k = 0 → d.opened = d₀.opened ∧ d.log = .began d₀.rxBuf :: d₀.log
  renewed : k ≠ 0 → Renewed d.log

section Bus

variable {R : Bytes → Bytes → Prop} {d₀ d : Reader} {k : ℕ}

theorem orderly_reset {past : List Event} (h : Orderly R past) : Orderly R (.reset :: past) :=
  ⟨trivial, h⟩

/-- A bus reset inside the command. -/
theorem Busy.reset (h : Busy R d₀ k d) : Busy R d₀ (k + 1) d.ccidReset where
  processing := h.processing
  epoch := by
    show (d.epoch + 1) % 2 ^ 32 = _
    rw [h.epoch]
    omega
  unarmed := rfl
  none_waits := rfl
  none_unread := rfl
  message := by
    show (if d.processing then d.rxBuf else []) = _
    rw [h.processing, if_pos rfl, h.message]
  claimed hopen := by cases hopen
  orderly := orderly_reset h.orderly
  steady hk := by cases hk
  renewed _ := trivial

/-- An interface that is opened inside a command is not armed. -/
theorem ccidOpen_processing {ok : Bool} (h : d.processing = true) :
    d.ccidOpen ok = { d with claimed := true, opened := ok || d.opened } := by
  cases ok with
  | false => rfl
  | true =>
      rw [Reader.ccidOpen]
      dsimp only
      rw [if_pos rfl, if_pos h]
      rfl

/-- No callback inside the command posts a transfer on the buffer. -/
theorem Busy.bus (h : Busy R d₀ k d) (hopen : k = 0 → d₀.opened = true) (e : Bus) :
    Busy R d₀ (k + if e = .busReset then 1 else 0) (d.bus e) := by
  cases e with
  | outDone data =>
      have hno : ¬(0 < d.outPosted ∧ data.length ≤ maxMsgLen) := by
        rw [h.unarmed]
        omega
      rw [Reader.bus, if_neg hno]
      exact h
  | inDone =>
      rw [Reader.bus, h.none_unread]
      exact h
  | busReset => exact h.reset
  | openItf ok =>
      show Busy R d₀ k (if d.opened = true then d else d.ccidOpen ok)
      by_cases hclosed : d.opened = true
      · rw [if_pos hclosed]
        exact h
      · have hk : k ≠ 0 := fun h0 => hclosed ((h.steady h0).1.trans (hopen h0))
        rw [if_neg hclosed, ccidOpen_processing h.processing]
        exact ⟨h.processing, h.epoch, h.unarmed, h.none_waits, h.none_unread, h.message,
          fun _ => rfl, h.orderly, fun h0 => absurd h0 hk, h.renewed⟩

/-- All callbacks inside the command. -/
theorem Busy.nested (h : Busy R d₀ k d) (hopen : k = 0 → d₀.opened = true) (nested : List Bus) :
    Busy R d₀ (k + nested.count .busReset) (nested.foldl Reader.bus d) := by
  induction nested generalizing d k with
  | nil => exact h
  | cons e rest ih =>
      have hstep := ih (h.bus hopen e) fun h0 => hopen (by omega)
      have hcount : k + (e :: rest).count .busReset =
          k + (if e = .busReset then 1 else 0) + rest.count .busReset := by
        rw [List.count_cons]
        simp only [beq_iff_eq]
        omega
      rw [hcount]
      exact hstep

/-! ### Callbacks outside a command -/

theorem Idle.reset (h : Idle R d) : Idle R d.ccidReset where
  processing := h.processing
  epoch := Nat.mod_lt _ (by decide)
  armed hopen := by cases hopen
  shut _ := ⟨rfl, rfl, rfl⟩
  claimed hopen := by cases hopen
  waits hwait := by cases hwait
  unread ans hin := by cases hin
  orderly := orderly_reset h.orderly
  renewed _ := by
    intro u hu
    obtain ⟨u₀, -, rfl⟩ := Option.map_eq_some_iff.mp hu
    exact dropAll_closed u₀

/-- A transfer on the buffer ends only while there is one, and no message waits. -/
theorem Idle.posted (h : Idle R d) (hout : 0 < d.outPosted) :
    d.opened = true ∧ d.rxPending = false ∧ d.outPosted = 1 := by
  have hopen : d.opened = true := by
    by_contra hno
    have hzero := (h.shut (Bool.eq_false_iff.mpr hno)).1
    omega
  have harm := h.armed hopen
  cases hp : d.rxPending with
  | true =>
      rw [hp, if_pos rfl] at harm
      omega
  | false =>
      rw [hp, if_neg (by decide)] at harm
      exact ⟨hopen, rfl, harm⟩

theorem Idle.outDone (h : Idle R d) (hout : 0 < d.outPosted) (data : Bytes) :
    Idle R (d.outDone data) := by
  obtain ⟨hopen, hwait, hone⟩ := h.posted hout
  by_cases hdata : data = []
  · have heq : d.outDone data = d := by
      rw [Reader.outDone, if_neg (not_not.mpr hdata), Reader.armOut, if_pos hopen]
      dsimp only
      rw [Nat.sub_add_cancel hout]
    rw [heq]
    exact h
  · rw [Reader.outDone, if_pos hdata]
    refine ⟨h.processing, h.epoch, fun _ => ?_, fun hno => ?_, h.claimed, fun _ => ?_, ?_, ?_, ?_⟩
    · show d.outPosted - 1 = 0
      omega
    · rw [hopen] at hno
      cases hno
    · exact ⟨[], d.log, rfl, fun x hx => by cases hx⟩
    · intro ans hin
      obtain ⟨mid, pre, hlog, hmid⟩ := h.unread ans hin
      refine ⟨.received data :: mid, pre, ?_, List.forall_mem_cons.mpr ⟨rfl, hmid⟩⟩
      show Event.received data :: d.log = _
      rw [hlog, List.cons_append]
    · exact ⟨trivial, h.orderly⟩
    · exact h.renewed

theorem Idle.inDone (h : Idle R d) {ans : Bytes} (hin : d.inPosted = some ans) :
    Idle R (d.inDone ans) := by
  have hopen : d.opened = true := by
    by_contra hno
    have hnone := (h.shut (Bool.eq_false_iff.mpr hno)).2.2
    rw [hin] at hnone
    cases hnone
  refine ⟨h.processing, h.epoch, h.armed, fun hno => ?_, h.claimed, fun hwait => ?_, ?_, ?_,
    h.renewed⟩
  · exact absurd hopen (Bool.eq_false_iff.mp hno)
  · obtain ⟨mid, pre, hlog, hmid⟩ := h.waits hwait
    refine ⟨.delivered ans :: mid, pre, ?_, List.forall_mem_cons.mpr ⟨rfl, hmid⟩⟩
    show Event.delivered ans :: d.log = _
    rw [hlog]
    rfl
  · exact fun ans' hnone => by cases hnone
  · exact ⟨h.unread ans hin, h.orderly⟩

theorem Idle.openItf (h : Idle R d) (hclosed : d.opened = false) (ok : Bool) :
    Idle R (d.ccidOpen ok) := by
  obtain ⟨hout, hwait, hin⟩ := h.shut hclosed
  have hwaits : ∀ {P : Prop}, d.rxPending = true → P := fun hp => by
    rw [hwait] at hp
    cases hp
  have hunread : ∀ ans {P : Prop}, d.inPosted = some ans → P := fun ans _ hp => by
    rw [hin] at hp
    cases hp
  cases ok with
  | false =>
      exact ⟨h.processing, h.epoch, h.armed, h.shut, fun _ => rfl, h.waits, h.unread, h.orderly,
        h.renewed⟩
  | true =>
      have heq : d.ccidOpen true =
          { d with claimed := true, opened := true, outPosted := d.outPosted + 1 } := by
        rw [Reader.ccidOpen]
        dsimp only
        rw [if_pos rfl, h.processing]
        rfl
      rw [heq]
      refine ⟨h.processing, h.epoch, fun _ => ?_, (fun hno => by cases hno), fun _ => rfl, hwaits,
        fun ans => hunread ans, h.orderly, h.renewed⟩
      show d.outPosted + 1 = if d.rxPending = true then 0 else 1
      rw [hwait, hout]
      rfl

theorem Idle.bus (h : Idle R d) (e : Bus) : Idle R (d.bus e) := by
  cases e with
  | outDone data =>
      rw [Reader.bus]
      split
      · rename_i hout
        exact h.outDone hout.1 data
      · exact h
  | inDone =>
      rw [Reader.bus]
      split
      · rename_i hin
        exact h.inDone hin
      · exact h
  | busReset => exact h.reset
  | openItf ok =>
      rw [Reader.bus]
      split
      · exact h
      · rename_i hclosed
        exact h.openItf (Bool.eq_false_iff.mpr hclosed) ok

/-! ### One command -/

theorem Idle.opened_of_ready (h : Idle R d) {awaiting : Bool} (hready : d.Ready awaiting) :
    d.opened = true := by
  by_contra hno
  have hwait := (h.shut (Bool.eq_false_iff.mpr hno)).2.1
  rw [hready.1] at hwait
  cases hwait

theorem Idle.begin (h : Idle R d) {awaiting : Bool} (hready : d.Ready awaiting) :
    Busy R d 0 d.begin where
  processing := rfl
  epoch := (Nat.mod_eq_of_lt h.epoch).symm
  unarmed := by
    have harm := h.armed (h.opened_of_ready hready)
    rwa [hready.1, if_pos rfl] at harm
  none_waits := rfl
  none_unread := hready.2.2
  message := rfl
  claimed := h.claimed
  orderly := ⟨h.waits hready.1, h.orderly⟩
  steady _ := ⟨rfl, rfl⟩
  renewed hk := absurd rfl hk

theorem Busy.withCard (h : Busy R d₀ k d) (c : Card) : Busy R d₀ k { d with card := c } :=
  ⟨h.processing, h.epoch, h.unarmed, h.none_waits, h.none_unread, h.message, h.claimed, h.orderly,
    h.steady, h.renewed⟩

/-- Behind a command in which the bus was reset. -/
theorem Busy.finish_stale (h : Busy R d₀ k d) (hne : d₀.epoch ≠ d.epoch) (ans : Bytes)
    (taken : Bool) : Idle R (d.finish d₀.epoch ans taken) := by
  have hcard : Closed (⟨d.card.ram.map (·.dropAuth .all), d.card.board.jot .cardReset⟩ : Card) := by
    intro u hu
    obtain ⟨u₀, -, rfl⟩ := Option.map_eq_some_iff.mp hu
    exact dropAll_closed u₀
  have hepoch : d.epoch < 2 ^ 32 := by
    rw [h.epoch]
    exact Nat.mod_lt _ (by decide)
  have hunread : ∀ ans' {P : Prop}, d.inPosted = some ans' → P := fun ans' _ hp => by
    rw [h.none_unread] at hp
    cases hp
  have hwaits : ∀ {P : Prop}, d.rxPending = true → P := fun hp => by
    rw [h.none_waits] at hp
    cases hp
  have hshut : d.outPosted = 0 ∧ d.rxPending = false ∧ d.inPosted = none :=
    ⟨h.unarmed, h.none_waits, h.none_unread⟩
  rw [Reader.finish, if_pos hne]
  dsimp only
  split
  · rename_i hclaimed
    rw [Reader.armOut]
    split
    · rename_i hopen
      refine ⟨rfl, hepoch, fun _ => ?_, fun hno => ?_, fun _ => hclaimed, hwaits,
        fun ans' => hunread ans', h.orderly, fun _ => hcard⟩
      · show d.outPosted + 1 = if d.rxPending = true then 0 else 1
        rw [h.unarmed, h.none_waits]
        rfl
      · exact absurd hopen (Bool.eq_false_iff.mp hno)
    · rename_i hclosed
      exact ⟨rfl, hepoch, fun hopen => absurd hopen hclosed, fun _ => hshut, fun _ => hclaimed,
        hwaits, fun ans' => hunread ans', h.orderly, fun _ => hcard⟩
  · rename_i hclaimed
    exact ⟨rfl, hepoch, fun hopen => absurd (h.claimed hopen) hclaimed, fun _ => hshut, h.claimed,
      hwaits, fun ans' => hunread ans', h.orderly, fun _ => hcard⟩

/-- Behind a command without a reset. -/
theorem Busy.finish (h : Busy R d₀ 0 d) (hepoch : d₀.epoch = d.epoch) (hopen : d₀.opened = true)
    {ans : Bytes} (hans : ans ≠ [] → R d₀.rxBuf ans) (taken : Bool) :
    Idle R (d.finish d₀.epoch ans taken) := by
  obtain ⟨hopened, hlog⟩ := h.steady rfl
  have hlt : d.epoch < 2 ^ 32 := by
    rw [h.epoch]
    exact Nat.mod_lt _ (by decide)
  have hon : d.opened = true := hopened.trans hopen
  have hwaits : ∀ {P : Prop}, d.rxPending = true → P := fun hp => by
    rw [h.none_waits] at hp
    cases hp
  have hnew : ¬Renewed d.log := by
    rw [hlog]
    exact id
  have harm : d.outPosted + 1 = if d.rxPending = true then 0 else 1 := by
    rw [h.unarmed, h.none_waits]
    rfl
  rw [Reader.finish, if_neg (not_not.mpr hepoch)]
  dsimp only
  split
  · rw [Reader.armOut, if_pos hon]
    refine ⟨rfl, hlt, fun _ => harm, fun hno => absurd hon (Bool.eq_false_iff.mp hno), h.claimed,
      hwaits, fun ans' hin => ?_, h.orderly, fun hr => absurd hr hnew⟩
    rw [h.none_unread] at hin
    cases hin
  · rename_i hsent
    have hne : ans ≠ [] := fun hnil => hsent (.inl hnil)
    rw [Reader.note, Reader.armOut, if_pos hon]
    refine ⟨rfl, hlt, fun _ => harm, fun hno => absurd hon (Bool.eq_false_iff.mp hno), h.claimed,
      hwaits, fun ans' hin => ?_, ⟨⟨d₀.rxBuf, d₀.log, hlog, hans hne⟩, h.orderly⟩,
      fun hr => absurd hr hnew⟩
    cases hin
    exact ⟨[], d.log, rfl, fun x hx => by cases hx⟩

end Bus

/-! ### Every run -/

section Runs

variable {F : PgpPrims} {d : Reader}

/-- The message may be answered so. -/
def Answers (F : PgpPrims) (msg ans : Bytes) : Prop :=
  ans ≠ [] ∧ ∃ u b fs u' b', run (pgpBoard F) ((processMessage F msg).run u) fs b =
    .done (ans, u') b'

/-- Fewer bus resets in a command than the count of them can tell apart. -/
def Action.Few : Action → Prop
  | .task _ _ nested _ _ _ => nested.count .busReset < 2 ^ 32
  | _ => True

/-- What the command leaves is an answer to its message. -/
theorem answers_result {fs : List BoardFate} {c : Card} {ans : Bytes}
    (h : d.result F fs = (c, some ans)) (hne : ans ≠ []) : Answers F d.rxBuf ans := by
  rw [Reader.result] at h
  split at h
  · cases h
  · rename_i u hu
    split at h
    · rename_i ans' u' b hrun
      cases h
      exact ⟨hne, u, d.card.board, fs, u', b, hrun⟩
    · cases h

/-- A command without an answer was cut off. -/
theorem result_none {fs : List BoardFate} {c : Card} (hon : d.card.ram.isSome = true)
    (h : d.result F fs = (c, none)) : c.ram = none := by
  rw [Reader.result] at h
  split at h
  · rename_i hram
    rw [hram] at hon
    cases hon
  · split at h
    · cases h
    · cases h
      rfl

theorem hasReset_iff {nested : List Bus} : hasReset nested = true ↔ nested.count .busReset ≠ 0 := by
  rw [hasReset, List.contains_iff_mem, ← List.count_pos_iff, Nat.pos_iff_ne_zero]

theorem idle_off (h : Orderly (Answers F) d.log) {c : Card} (hc : c.ram = none) :
    Idle (Answers F) (d.off c) where
  processing := rfl
  epoch := Nat.two_pow_pos 32
  armed hopen := by cases hopen
  shut _ := ⟨rfl, rfl, rfl⟩
  claimed hopen := by cases hopen
  waits hwait := by cases hwait
  unread ans hin := by cases hin
  orderly := h
  renewed _ u hu := by
    rw [show (d.off c).card.ram = none from hc] at hu
    cases hu

theorem idle_step (h : Idle (Answers F) d) {a : Action} (ha : a.Few) :
    Idle (Answers F) (d.step F a) := by
  cases a with
  | powerUp =>
      refine ⟨rfl, Nat.mod_lt _ (by decide), fun hopen => ?_, fun _ => ⟨rfl, rfl, rfl⟩,
        fun hopen => ?_, fun hwait => ?_, fun ans hin => ?_, ⟨trivial, h.orderly⟩, fun _ u hu => ?_⟩
      · cases hopen
      · cases hopen
      · cases hwait
      · cases hin
      · cases hu
        exact ⟨rfl, rfl⟩
  | bus e =>
      rw [Reader.step]
      split
      · exact h.bus e
      · exact h
  | task awaiting taken nested fs left ans =>
      rw [Reader.step]
      split
      · rename_i hready
        have hopen := h.opened_of_ready hready.2
        have hbusy := (h.begin hready.2).nested (fun _ => hopen) nested
        rw [Nat.zero_add] at hbusy
        dsimp only
        split
        · rename_i hreset
          have hcount := hasReset_iff.mp hreset
          apply (hbusy.withCard left).finish_stale
          show d.epoch ≠ (nested.foldl Reader.bus d.begin).epoch
          have hlt := h.epoch
          have hfew : nested.count .busReset < 2 ^ 32 := ha
          rw [hbusy.epoch]
          omega
        · rename_i hquiet
          have hzero : nested.count .busReset = 0 := by
            by_contra hne
            exact hquiet (hasReset_iff.mpr hne)
          rw [hzero] at hbusy
          have hepoch : d.epoch = (nested.foldl Reader.bus d.begin).epoch := by
            rw [hbusy.epoch, Nat.add_zero, Nat.mod_eq_of_lt h.epoch]
          cases hr : d.result F fs with
          | mk c left =>
              cases left with
              | some ans =>
                  exact (hbusy.withCard c).finish hepoch hopen (answers_result hr) taken
              | none =>
                  exact idle_off hbusy.orderly (result_none hready.1 hr)
      · exact h

end Runs

end Nixtropic.Ccid
