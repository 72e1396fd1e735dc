import Nixtropic.Ccid.ReaderLogic
import Nixtropic.Pgp.Policy

/-!
The reader over every run: who owns the receive buffer, which answers are sent, and
what a bus reset leaves of the access.

The task compares two values of a count of resets. The count is 32 bits long, and as
many resets inside one command as it can count go by unseen.
-/

namespace Nixtropic.Ccid

open Crash Pgp Runs

/-! ### Answers in the log -/

/-- Neither a reset nor the begin of a command. -/
def Event.isQuiet : Event → Bool
  | .reset => false
  | .began _ => false
  | _ => true

/-- Every answer that is sent, or read, is that of the last command, whose message was
the last to arrive before it, and there was no reset from that message on. -/
def Genuine (F : PgpPrims) (log : List Event) : Prop :=
  ∀ post e past ans, log = post ++ e :: past → e = .posted ans ∨ e = .delivered ans →
    ∃ later msg earlier pre, past = later ++ .began msg :: (earlier ++ .received msg :: pre) ∧
      Answers F msg ans ∧ (∀ x ∈ later ++ earlier, x.isQuiet = true)

section Log

variable {R : Bytes → Bytes → Prop} {log past : List Event}

theorem orderly_at {post : List Event} {e : Event} (h : Orderly R (post ++ e :: past)) :
    e.Follows R past ∧ Orderly R past := by
  induction post with
  | nil => exact h
  | cons x post ih => exact ih h.2

theorem isQuiet_of_delivered {e : Event} (h : e.isDelivered = true) : e.isQuiet = true := by
  cases e <;> first | rfl | cases h

theorem isQuiet_of_received {e : Event} (h : e.isReceived = true) : e.isQuiet = true := by
  cases e <;> first | rfl | cases h

/-- An answer that is sent right behind its command. -/
theorem Orderly.posted {ans : Bytes} (h : Orderly R (.posted ans :: past)) :
    ∃ msg earlier pre, past = .began msg :: (earlier ++ .received msg :: pre) ∧ R msg ans ∧
      ∀ x ∈ earlier, x.isQuiet = true := by
  obtain ⟨⟨msg, pre, rfl, hans⟩, hpast⟩ := h
  obtain ⟨mid, pre', rfl, hmid⟩ := hpast.1
  exact ⟨msg, mid, pre', rfl, hans, fun x hx => isQuiet_of_delivered (hmid x hx)⟩

theorem genuine_of_orderly {F : PgpPrims} (h : Orderly (Answers F) log) : Genuine F log := by
  intro post e past ans hlog hans
  rw [hlog] at h
  obtain ⟨hfollows, hpast⟩ := orderly_at h
  rcases hans with rfl | rfl
  · obtain ⟨msg, earlier, pre, rfl, hmsg, hquiet⟩ := Orderly.posted ⟨hfollows, hpast⟩
    exact ⟨[], msg, earlier, pre, rfl, hmsg, hquiet⟩
  · obtain ⟨mid, pre, rfl, hmid⟩ := hfollows
    obtain ⟨msg, earlier, pre', rfl, hmsg, hquiet⟩ := Orderly.posted (orderly_at hpast |> fun o =>
      ⟨o.1, o.2⟩)
    refine ⟨mid ++ [.posted ans], msg, earlier, pre', by simp, hmsg, fun x hx => ?_⟩
    simp only [List.mem_append, List.mem_singleton] at hx
    rcases hx with (hx | rfl) | hx
    · exact isQuiet_of_received (hmid x hx)
    · rfl
    · exact hquiet x hx

/-- From a command on without a reset. -/
theorem not_renewed {later rest : List Event} {msg : Bytes}
    (h : ∀ x ∈ later, x.isQuiet = true) : ¬Renewed (later ++ .began msg :: rest) := by
  induction later with
  | nil => exact id
  | cons x later ih =>
      have hx := h x List.mem_cons_self
      have hrest := ih fun y hy => h y (List.mem_cons_of_mem x hy)
      cases x with
      | reset => cases hx
      | began m => cases hx
      | received m => exact hrest
      | posted a => exact hrest
      | delivered a => exact hrest

end Log

/-! ### A command that waits for touch -/

/-- A command in a message. -/
def xfrMessage (seq : UInt8) (apdu : Bytes) : Bytes :=
  [xfrBlock, UInt8.ofNat apdu.length, 0, 0, 0, 0, seq, 0, 0, 0] ++ apdu

/-- The task with no callback inside the command. -/
def quietTask : Action := .task false true [] [] ⟨none, blankBoard⟩ []

/-- The host sends a command and reads the answer. -/
def exchange (seq : UInt8) (apdu : Bytes) : List Action :=
  [.bus (.outDone (xfrMessage seq apdu)), quietTask, .bus .inDone]

def verifyAdmin : Bytes := [0x00, 0x20, 0x00, 0x83, 0x08] ++ factoryPw3

def verifyUser : Bytes := [0x00, 0x20, 0x00, 0x81, 0x06] ++ factoryPw1

/-- GENERATE ASYMMETRIC KEY PAIR for the signature key. -/
def generateKey : Bytes := [0x00, 0x47, 0x80, 0x00, 0x02, 0xB6, 0x00]

/-- PSO:CDS in a message with the sequence number 7. -/
def cdsMessage : Bytes := xfrMessage 7 [0x00, 0x2A, 0x9E, 0x9A, 0x01, 0x2A]

/-- The answer to it when nobody touches the key. -/
def cdsUntouched : Bytes :=
  xfrAnswer 7 (some [UInt8.ofNat (swSecurityNotSatisfied / 256),
    UInt8.ofNat swSecurityNotSatisfied])

/-- The reader is opened, the card gets a key and the user's PIN, and PSO:CDS arrives. -/
def cdsArrives : List Action :=
  [.powerUp, .bus (.openItf true)] ++ exchange 4 verifyAdmin ++ exchange 5 generateKey ++
    exchange 6 verifyUser ++ [.bus (.outDone cdsMessage)]

/-- The card that PSO:CDS finds, without its access status. -/
def cardBehindReset : Card :=
  let c := ((reader mixPgp blankBoard).run cdsArrives).card
  ⟨c.ram.map (·.dropAuth .all), c.board⟩

/-- While PSO:CDS waits for touch the bus is reset `n` times, and then opened. -/
def resetRound (n : ℕ) : List Action :=
  cdsArrives ++ [.task false true (List.replicate n .busReset ++ [.openItf true]) []
    cardBehindReset cdsUntouched]

theorem few_quietTask : quietTask.Few := Nat.two_pow_pos 32

theorem few_exchange {seq : UInt8} {apdu : Bytes} : ∀ a ∈ exchange seq apdu, a.Few := by
  simp only [exchange, List.forall_mem_cons]
  exact ⟨trivial, few_quietTask, trivial, fun a ha => by cases ha⟩

theorem few_cdsArrives : ∀ a ∈ cdsArrives, a.Few := by
  have hopen : ∀ a ∈ [Action.powerUp, .bus (.openItf true)], a.Few := by
    simp only [List.forall_mem_cons]
    exact ⟨trivial, trivial, fun a ha => by cases ha⟩
  simp only [cdsArrives, List.forall_mem_append, List.forall_mem_singleton]
  exact ⟨⟨⟨⟨hopen, few_exchange⟩, few_exchange⟩, few_exchange⟩, trivial⟩

theorem few_resetRound {n : ℕ} (hn : n < 2 ^ 32) : ∀ a ∈ resetRound n, a.Few := by
  have hlast : Action.Few (.task false true (List.replicate n .busReset ++ [.openItf true]) []
      cardBehindReset cdsUntouched) := by
    rw [Action.Few, List.count_append, List.count_replicate_self]
    simpa using hn
  rw [resetRound, List.forall_mem_append, List.forall_mem_singleton]
  exact ⟨few_cdsArrives, hlast⟩

/-! ### Every run -/

/-- The reader between two actions, and in the command that it may begin. -/
structure Safe (F : PgpPrims) (d : Reader) : Prop where
  /-- No transfer is posted on the buffer while a message waits in it. -/
  waiting : d.rxPending = true → d.outPosted = 0
  /-- Nor while its command is in the works, whatever callbacks there were. -/
  working : ∀ (awaiting : Bool) (nested : List Bus), d.Ready awaiting →
    (nested.foldl Reader.bus d.begin).outPosted = 0
  /-- Otherwise one is. -/
  listening : d.opened = true → d.processing = false ∧ (d.rxPending = false → d.outPosted = 1)
  genuine : Genuine F d.log
  /-- After a reset no access is left, until the next command begins. -/
  renewed : Renewed d.log → Closed d.card

section Runs

variable {F : PgpPrims} {b : Board Note} {acts : List Action}

theorem idle_run (hfew : ∀ a ∈ acts, a.Few) : Idle (Answers F) ((reader F b).run acts) := by
  have hstart : Idle (Answers F) (reader F b).init :=
    idle_off (d := (reader F b).init) (c := (card F b).init) trivial rfl
  have hprefix : ∀ pre a, pre ++ [a] <+: acts → a.Few := by
    intro pre a hp
    exact hfew a (hp.subset (List.mem_append_right pre List.mem_cons_self))
  exact System.run_keeps_of (C := fun _ a => Action.Few a) hstart (fun d a h ha => idle_step h ha)
    hprefix

theorem Idle.safe {d : Reader} (h : Idle (Answers F) d) : Safe F d where
  waiting hwait := by
    by_cases hon : d.opened = true
    · rw [h.armed hon, if_pos hwait]
    · exact (h.shut (Bool.eq_false_iff.mpr hon)).1
  working awaiting nested hready :=
    ((h.begin hready).nested (fun _ => h.opened_of_ready hready) nested).unarmed
  listening hon := ⟨h.processing, fun hwait => by
    rw [h.armed hon, hwait]
    rfl⟩
  genuine := genuine_of_orderly h.orderly
  renewed := h.renewed

/-- With fewer bus resets inside any command than a count of 32 bits can tell apart, the
receive buffer has one owner, no answer outlives a reset, and neither does access. -/
theorem reader_safe (hfew : ∀ a ∈ acts, a.Few) : Safe F ((reader F b).run acts) :=
  (idle_run hfew).safe

/-- Two resets while PSO:CDS waits. -/
theorem reader_safe_resets : Safe mixPgp ((reader mixPgp blankBoard).run (resetRound 2)) :=
  reader_safe (few_resetRound (by decide))

end Runs

/-! ### A count of resets that goes round -/

section Round

variable {F : PgpPrims} {b : Board Note} {d : Reader}

/-- As many resets inside a command as the count has values, and the answer is sent. -/
theorem round_unseen {R : Bytes → Bytes → Prop} (h : Idle R d) (hready : d.Ready false)
    {nested : List Bus} (hround : nested.count .busReset % 2 ^ 32 = 0)
    (hsome : nested.count .busReset ≠ 0) (hon : d.card.ram.isSome = true) {ans : Bytes}
    (hans : ans ≠ []) (fs : List BoardFate) (left : Card) :
    ∃ past, ((reader F b).step d (.task false true nested fs left ans)).log = .posted ans :: past ∧
      Renewed past := by
  have hbusy := (h.begin hready).nested (fun _ => h.opened_of_ready hready) nested
  rw [Nat.zero_add] at hbusy
  have hlt := h.epoch
  have hepoch : ¬d.epoch ≠ (nested.foldl Reader.bus d.begin).epoch := by
    rw [hbusy.epoch]
    omega
  refine ⟨(nested.foldl Reader.bus d.begin).log, ?_, hbusy.renewed hsome⟩
  rw [reader]
  dsimp only
  rw [Reader.step, if_pos ⟨hon, hready⟩]
  dsimp only
  rw [if_pos (hasReset_iff.mpr hsome), Reader.finish]
  dsimp only
  rw [if_neg hepoch, if_neg (by simp [hans]), Reader.note, Reader.armOut]
  split <;> rfl

theorem not_genuine_round {n : ℕ} (hround : n % 2 ^ 32 = 0) (hsome : n ≠ 0) :
    ¬Genuine mixPgp ((reader mixPgp blankBoard).run (resetRound n)).log := by
  have hcount : (List.replicate n Bus.busReset ++ [Bus.openItf true]).count .busReset = n := by
    simp [List.count_append]
  have hidle := idle_run (F := mixPgp) (b := blankBoard) few_cdsArrives
  have hready : ((reader mixPgp blankBoard).run cdsArrives).Ready false := by decide +kernel
  have hon : ((reader mixPgp blankBoard).run cdsArrives).card.ram.isSome = true := by decide +kernel
  have hsent : cdsUntouched ≠ [] := by decide +kernel
  have hmany : (List.replicate n Bus.busReset ++ [Bus.openItf true]).count .busReset % 2 ^ 32 =
      0 := by
    rw [hcount, hround]
  obtain ⟨past, hlog, hpast⟩ := round_unseen (b := blankBoard) hidle hready hmany (by rwa [hcount])
    hon hsent [] cardBehindReset
  intro hgenuine
  rw [resetRound, System.run_concat] at hgenuine
  obtain ⟨later, msg, earlier, pre, rfl, -, hquiet⟩ :=
    hgenuine [] (.posted cdsUntouched) past cdsUntouched hlog (.inl rfl)
  exact not_renewed (fun x hx => hquiet x (List.mem_append_left _ hx)) hpast

end Round

/-- 2^32 bus resets inside one command, and its answer is sent behind them. -/
theorem stale_behind_resets :
    ¬Genuine mixPgp ((reader mixPgp blankBoard).run (resetRound (2 ^ 32))).log :=
  not_genuine_round (Nat.mod_self _) (Nat.two_pow_pos 32).ne'

end Nixtropic.Ccid
