import Nixtropic.Presence.Device

/-!
A cancel belongs to one request.

A packet that stops the running request sets the latch, and the latch stays until the
request is over: from then on no check of the request sees a press. A packet that does
not stop it leaves the touch wait as it was. And where a check says that it was
cancelled, such a packet was handled during the same request.
-/

namespace Nixtropic.Presence

open Ctaphid (Packet Stops Turned)

/-! ### The steps of the device -/

/-- The framing alone, between requests or in one; or the touch wait alone. -/
inductive Stepped (d : Device) (a : DeviceAct) : Device → Prop
  | still : Stepped d a d
  | calm {b : Ctaphid.Act} (hq : Ctaphid.Calm b d.hid (Ctaphid.step d.hid b))
      (hp : ∀ pkt, b = .packet pkt → a = .packet pkt ∧ d.pumping = true) : Stepped d a (d.frame b)
  | turned {b : Ctaphid.Act} (hw : d.up.wait = none) (ht : Turned d.hid (Ctaphid.step d.hid b))
      (hd : d.hid.dispatched.length ≤ (Ctaphid.step d.hid b).dispatched.length) :
      Stepped d a (d.frame b)
  | sample (raw : Bool) : Stepped d a (d.touch (.sample raw))
  | check (owner : Owner) (timeoutMs : ℕ) (hmay : d.mayCheck owner = true) :
      Stepped d a (d.touch (.call owner timeoutMs))
  | go : Stepped d a (d.touch .go)

section Steps

variable {d : Device}

/-- The main loop forgets no dispatched request. -/
theorem dispatched_task {s : Ctaphid.State} (ht : Ctaphid.Tidy s) :
    s.dispatched.length ≤ (Ctaphid.step s .task).dispatched.length := by
  simp only [Ctaphid.step]
  split
  · exact Nat.le_refl _
  · have htask := Ctaphid.fidoHidTask_tasked ht
    generalize Ctaphid.fidoHidTask s = s' at htask ⊢
    cases htask with
    | waited _ =>
        exact Nat.le_of_eq (congrArg List.length (Ctaphid.sendAnswers_framed s).dispatched.symm)
    | discarded _ _ _ =>
        exact Nat.le_of_eq (congrArg List.length
          (Ctaphid.finishRequest_finished (Ctaphid.beginRequest s)).dispatched.symm)
    | answered _ _ _ _ =>
        rw [(Ctaphid.finishRequest_finished _).dispatched]
        exact Nat.le_succ _
    | rejected _ _ _ =>
        rw [(Ctaphid.finishRequest_finished _).dispatched,
          (Ctaphid.replied_queueError _ _ _).dispatched]
        exact Nat.le_succ _
    | started _ _ _ _ => exact Nat.le_succ _

theorem dispatched_finish (s : Ctaphid.State) (n : Option ℕ) :
    s.dispatched.length ≤ (Ctaphid.step s (.finish n)).dispatched.length := by
  simp only [Ctaphid.step]
  split
  · have hreturn := (Ctaphid.handleCborReturn_framed s.busyCid n s).dispatched
    exact Nat.le_of_eq (congrArg List.length
      ((Ctaphid.finishRequest_finished _).dispatched.trans hreturn).symm)
  · exact Nat.le_refl _

theorem stepped (h : Joined d) (a : DeviceAct) : Stepped d a (d.step a) := by
  cases a with
  | endpoint usb => exact .calm ⟨rfl, rfl, rfl, .inl rfl⟩ fun pkt hb => by cases hb
  | sample raw => exact .sample raw
  | packet pkt =>
      rw [Device.step]
      split
      · rename_i hp
        refine .calm (Ctaphid.calm_packet h.tidy pkt) fun pkt' hb => ?_
        cases hb
        exact ⟨rfl, hp⟩
      · exact .still
  | task =>
      rw [Device.step]
      split
      · rename_i hw
        exact .turned (Option.isNone_iff_eq_none.mp hw) (Ctaphid.turned_task h.tidy)
          (dispatched_task h.tidy)
      · exact .still
  | progress =>
      rw [Device.step]
      split
      · exact .calm (Ctaphid.calm_progress d.hid) fun pkt hb => by cases hb
      · exact .still
  | progressed =>
      rw [Device.step]
      split
      · exact .calm (Ctaphid.calm_progressed d.hid) fun pkt hb => by cases hb
      · exact .still
  | scratch buf =>
      rw [Device.step]
      split
      · exact .calm (Ctaphid.calm_scratch d.hid buf) fun pkt hb => by cases hb
      · exact .still
  | finish n =>
      rw [Device.step]
      split
      · rename_i hw
        exact .turned (Option.isNone_iff_eq_none.mp hw) (Ctaphid.turned_handlerReturn d.hid n)
          (dispatched_finish d.hid n)
      · exact .still
  | check owner timeoutMs =>
      rw [Device.step]
      split
      · rename_i hmay
        exact .check owner timeoutMs (Bool.and_eq_true_iff.mp hmay).2
      · exact .still
  | go =>
      rw [Device.step]
      split
      · exact .still
      · exact .go

end Steps

/-! ### What a check says -/

/-- A check that returns at once has no press; one that waits begins at its loop. -/
theorem check_cases (owner : Owner) (timeoutMs : ℕ) (s : State) :
    (∃ v, userPresenceCheck owner timeoutMs s = s.note owner v s.samples.length ∧ v ≠ .ok ∧
        (v = .cancel → s.cancel = true)) ∨
      userPresenceCheck owner timeoutMs s = { s with
        awaiting := true
        wait := some ⟨owner, timeoutMs, s.now, s.samples.length, .loop⟩ } := by
  rw [userPresenceCheck]
  split
  · exact .inl ⟨.fail, rfl, (fun h => by cases h), fun h => by cases h⟩
  · split
    · rename_i hc
      exact .inl ⟨.cancel, rfl, (fun h => by cases h), fun _ => hc⟩
    · split
      · exact .inl ⟨.fail, rfl, (fun h => by cases h), fun h => by cases h⟩
      · exact .inr rfl

/-- A waiting check goes on, and after the cancel test it saw no latch; or it returns. -/
theorem advance_cases (w : Wait) (s : State) :
    (∃ pc, advance w s = { s with wait := some { w with pc := pc } } ∧
        (pc = .testPressed → s.cancel = false) ∧ (pc = .leave true → w.pc = .testPressed)) ∨
      ∃ ok, w.pc = .leave ok ∧
        advance w s = State.note { s with awaiting := false, wait := none } w.owner
          (outcome ok s.cancel) w.began := by
  rw [advance]
  split
  · split
    · exact .inl ⟨.pump, rfl, (fun h => by cases h), fun h => by cases h⟩
    · exact .inl ⟨.leave false, rfl, (fun h => by cases h), fun h => by cases h⟩
  · exact .inl ⟨.testCancel, rfl, (fun h => by cases h), fun h => by cases h⟩
  · cases hc : s.cancel with
    | false => exact .inl ⟨.testPressed, rfl, fun _ => rfl, fun h => by cases h⟩
    | true => exact .inl ⟨.leave false, rfl, (fun h => by cases h), fun h => by cases h⟩
  · rename_i hpc
    split
    · exact .inl ⟨.leave true, rfl, (fun h => by cases h), fun _ => hpc⟩
    · exact .inl ⟨.loop, rfl, (fun h => by cases h), fun h => by cases h⟩
  · rename_i ok hpc
    exact .inr ⟨ok, hpc, rfl⟩

theorem outcome_cancel {ok c : Bool} (h : outcome ok c = .cancel) : c = true := by
  cases ok <;> cases c <;> first | rfl | cases h

/-! ### Behind a packet that stops the request -/

/-- The request, the `n`th that was dispatched, was stopped when the results were `old`;
or it is over. -/
structure Ended (n : ℕ) (old : List Result) (d : Device) : Prop where
  grown : n ≤ d.hid.dispatched.length
  latch : d.hid.dispatched.length = n → d.hid.running = true → d.up.cancel = true
  place : d.hid.dispatched.length = n → ∀ w ∈ d.up.wait, w.owner = .fido →
    w.pc ≠ .testPressed ∧ w.pc ≠ .leave true
  results : d.hid.dispatched.length = n → ∃ new, d.up.results = new ++ old ∧
    ∀ r ∈ new, r.owner = .fido → r.value ≠ .ok

section Ended

variable {d : Device} {n : ℕ} {old : List Result}

/-- One result more. -/
theorem Ended.result (h : Ended n old d) {r : Result} (hr : r.owner = .fido → r.value ≠ .ok)
    (hn : d.hid.dispatched.length = n) : ∃ new, r :: d.up.results = new ++ old ∧
      ∀ r' ∈ new, r'.owner = .fido → r'.value ≠ .ok := by
  obtain ⟨new, hnew, hall⟩ := h.results hn
  exact ⟨r :: new, by rw [hnew, List.cons_append], List.forall_mem_cons.mpr ⟨hr, hall⟩⟩

theorem Ended.go (h : Ended n old d) (hj : Joined d) : Ended n old (d.touch .go) := by
  cases hw : d.up.wait with
  | none =>
      have hstep : Presence.step d.up .go = d.up := by rw [Presence.step, hw]
      refine ⟨h.grown, ?_, ?_, ?_⟩
      · show _ → _ → (step d.up .go).cancel = true
        rw [hstep]
        exact h.latch
      · show _ → ∀ w ∈ (step d.up .go).wait, _
        rw [hstep]
        exact h.place
      · show _ → ∃ new, (step d.up .go).results = _ ∧ _
        rw [hstep]
        exact h.results
  | some w =>
      have hstep : Presence.step d.up .go = advance w d.up := by rw [Presence.step, hw]
      have hmem : w ∈ d.up.wait := hw
      have howner := hj.owner w hmem
      rcases advance_cases w d.up with ⟨pc, hadv, htest, hleave⟩ | ⟨ok, hpc, hadv⟩
      · rw [hadv] at hstep
        refine ⟨h.grown, ?_, ?_, ?_⟩
        · show _ → _ → (step d.up .go).cancel = true
          rw [hstep]
          exact h.latch
        · intro hn w' hw' hfido
          have hw' : w' ∈ (step d.up .go).wait := hw'
          rw [hstep] at hw'
          cases hw'
          refine ⟨fun hp => ?_, fun hl => (h.place hn w hmem hfido).1 (hleave hl)⟩
          have hset := h.latch hn (howner.mp hfido)
          rw [htest hp] at hset
          cases hset
        · show _ → ∃ new, (step d.up .go).results = _ ∧ _
          rw [hstep]
          exact h.results
      · rw [hadv] at hstep
        refine ⟨h.grown, ?_, ?_, ?_⟩
        · show _ → _ → (step d.up .go).cancel = true
          rw [hstep]
          exact h.latch
        · intro hn w' hw'
          have hw' : w' ∈ (step d.up .go).wait := hw'
          rw [hstep] at hw'
          cases hw'
        · show _ → ∃ new, (step d.up .go).results = _ ∧ _
          rw [hstep]
          intro hn
          apply h.result _ hn
          intro hfido hok
          have hnot := (h.place hn w hmem hfido).2
          have hval : outcome ok d.up.cancel = .ok := hok
          cases ok with
          | true => exact hnot hpc
          | false => cases hc : d.up.cancel <;> rw [hc] at hval <;> cases hval

theorem Ended.step (h : Ended n old d) (hj : Joined d) (a : DeviceAct) :
    Ended n old (d.step a) := by
  have hstep := stepped hj a
  generalize d.step a = d' at hstep ⊢
  cases hstep with
  | still => exact h
  | calm hq hp =>
      refine ⟨?_, ?_, ?_, ?_⟩
      · show n ≤ (Ctaphid.step d.hid _).dispatched.length
        rw [hq.dispatched]
        exact h.grown
      · show (Ctaphid.step d.hid _).dispatched.length = n → _
        rw [hq.dispatched]
        intro hn hrun
        rcases hq.cancel with hsame | ⟨hset, -⟩
        · exact hsame.trans (hj.cancel.trans (h.latch hn (hq.running.symm.trans hrun)))
        · exact hset
      · show (Ctaphid.step d.hid _).dispatched.length = n → _
        rw [hq.dispatched]
        exact h.place
      · show (Ctaphid.step d.hid _).dispatched.length = n → _
        rw [hq.dispatched]
        exact h.results
  | turned hw ht hd =>
      have hsame : (Ctaphid.step d.hid _).dispatched.length = n → d.hid.dispatched.length = n :=
        fun hn => Nat.le_antisymm (hn ▸ hd) h.grown
      refine ⟨Nat.le_trans h.grown hd, fun hn hrun => ?_, fun hn w hmem => ?_, fun hn => ?_⟩
      · rcases ht.latch with ⟨hc, hr, -⟩ | ⟨-, hnew⟩
        · exact hc.trans (hj.cancel.trans (h.latch (hsame hn) (hr.symm.trans hrun)))
        · have hlen := congrArg List.length (hnew hrun).2
          have hold := hsame hn
          have hn' : (Ctaphid.step d.hid _).dispatched.length = n := hn
          rw [hn', List.length_cons, hold] at hlen
          omega
      · have hmem : w ∈ d.up.wait := hmem
        rw [hw] at hmem
        cases hmem
      · exact h.results (hsame hn)
  | sample raw => exact ⟨h.grown, h.latch, h.place, h.results⟩
  | check owner timeoutMs hmay =>
      have hcheck : Presence.step d.up (.call owner timeoutMs) =
          userPresenceCheck owner timeoutMs d.up :=
        rfl
      rcases check_cases owner timeoutMs d.up with ⟨v, hv, hne, -⟩ | hv
      · rw [hv] at hcheck
        refine ⟨h.grown, ?_, ?_, ?_⟩
        · show _ → _ → (Presence.step d.up _).cancel = true
          rw [hcheck]
          exact h.latch
        · show _ → ∀ w ∈ (Presence.step d.up _).wait, _
          rw [hcheck]
          exact h.place
        · show _ → ∃ new, (Presence.step d.up _).results = _ ∧ _
          rw [hcheck]
          exact h.result fun _ => hne
      · rw [hv] at hcheck
        refine ⟨h.grown, ?_, ?_, ?_⟩
        · show _ → _ → (Presence.step d.up _).cancel = true
          rw [hcheck]
          exact h.latch
        · intro hn w hmem
          have hmem : w ∈ (Presence.step d.up (.call owner timeoutMs)).wait := hmem
          rw [hcheck] at hmem
          cases hmem
          exact fun _ => ⟨(fun h => by cases h), fun h => by cases h⟩
        · show _ → ∃ new, (Presence.step d.up _).results = _ ∧ _
          rw [hcheck]
          exact h.results
  | go => exact h.go hj

/-- The packet is handled outside the tests of a check, so that the next test is that of
the latch. -/
theorem ended_packet (hj : Joined d) {pkt : Packet} (hp : d.pumping = true)
    (hs : Stops d.hid pkt) :
    Ended d.hid.dispatched.length d.up.results (d.step (.packet pkt)) := by
  have hq := Ctaphid.calm_packet hj.tidy pkt
  have hcancel : (Ctaphid.step d.hid (.packet pkt)).cancel = true :=
    Ctaphid.cancel_of_stops (hj.tidy.see pkt) hs
  rw [Device.step, if_pos hp]
  refine ⟨?_, fun _ _ => hcancel, fun _ w hw _ => ?_, fun _ => ⟨[], rfl, fun r hr => by cases hr⟩⟩
  · exact Nat.le_of_eq (congrArg List.length hq.dispatched.symm)
  · have hwait : d.up.wait = some w := hw
    rw [Device.pumping, hwait] at hp
    have hpc : w.pc = .pump := of_decide_eq_true hp
    rw [hpc]
    exact ⟨(fun h => by cases h), fun h => by cases h⟩

end Ended

/-! ### Where a latch comes from -/

/-- The packet among the actions that stopped the request that runs. -/
structure StoppedBy (acts : List DeviceAct) (pre : List DeviceAct) (pkt : Packet) : Prop where
  split : ∃ post, acts = pre ++ .packet pkt :: post
  handled : (device.run pre).pumping = true
  stops : Stops (device.run pre).hid pkt
  request : (device.run pre).hid.dispatched.length = (device.run acts).hid.dispatched.length

theorem latch_stopped (acts : List DeviceAct) (hc : (device.run acts).up.cancel = true) :
    ∃ pre pkt, StoppedBy acts pre pkt := by
  induction acts using List.reverseRecOn with
  | nil => cases hc
  | append_singleton acts a ih =>
      have hj := joined_run acts
      have hrun : device.run (acts ++ [a]) = (device.run acts).step a :=
        Runs.System.run_concat device acts a
      rw [hrun] at hc
      have hstep := stepped hj a
      -- a step that keeps the latch and the request
      have hold : (device.run acts).up.cancel = true →
          ((device.run acts).step a).hid.dispatched = (device.run acts).hid.dispatched →
          ∃ pre pkt, StoppedBy (acts ++ [a]) pre pkt := by
        intro hset hsame
        obtain ⟨pre, pkt, ⟨post, hsplit⟩, hp, hs, hreq⟩ := ih hset
        refine ⟨pre, pkt, ⟨post ++ [a], by rw [hsplit]; simp⟩, hp, hs, ?_⟩
        rw [hrun, hsame, hreq]
      generalize hd' : (device.run acts).step a = d' at hstep hc hold hrun
      cases hstep with
      | still => exact hold hc rfl
      | calm hq hp =>
          rcases hq.cancel with hsame | ⟨-, pkt, hb, hs⟩
          · exact hold (hj.cancel.symm.trans (hsame.symm.trans hc)) hq.dispatched
          · obtain ⟨rfl, hpump⟩ := hp pkt hb
            refine ⟨acts, pkt, ⟨[], rfl⟩, hpump, hs, ?_⟩
            rw [hrun]
            exact (congrArg List.length hq.dispatched).symm
      | turned hw ht hd =>
          rcases ht.latch with ⟨hsame, -, hdisp⟩ | ⟨hclear, -⟩
          · exact hold (hj.cancel.symm.trans (hsame.symm.trans hc)) hdisp
          · have hc : (Ctaphid.step (device.run acts).hid _).cancel = true := hc
            rw [hclear] at hc
            cases hc
      | sample raw => exact hold hc rfl
      | check owner timeoutMs hmay =>
          exact hold ((check_cancel owner timeoutMs _).symm.trans hc) rfl
      | go =>
          refine hold ?_ rfl
          have hc : (step (device.run acts).up .go).cancel = true := hc
          rw [step] at hc
          split at hc
          · exact hc
          · exact (advance_cancel _ _).symm.trans hc

theorem cons_ne {α : Type} {x : α} {l : List α} : l ≠ x :: l := fun h =>
  absurd (congrArg List.length h) (by simp)

/-- A check that says it was cancelled is one of the running request, and the latch is
set. -/
theorem cancelled_step {d : Device} (hj : Joined d) {a : DeviceAct} {r : Result}
    (h : (d.step a).up.results = r :: d.up.results) (hr : r.value = .cancel) :
    r.owner = .fido ∧ d.up.cancel = true := by
  have hstep := stepped hj a
  generalize d.step a = d' at hstep h
  cases hstep with
  | still => exact absurd h cons_ne
  | calm hq hp => exact absurd h cons_ne
  | turned hw ht hd => exact absurd h cons_ne
  | sample raw => exact absurd h cons_ne
  | check owner timeoutMs hmay =>
      have h : (userPresenceCheck owner timeoutMs d.up).results = r :: d.up.results := h
      rcases check_cases owner timeoutMs d.up with ⟨v, hv, -, hcancel⟩ | hv
      · rw [hv] at h
        obtain ⟨rfl, -⟩ := List.cons_eq_cons.mp h
        have hset := hcancel hr
        refine ⟨?_, hset⟩
        cases owner with
        | fido => rfl
        | openpgp =>
            have hrun := hj.latch hset
            rw [Device.mayCheck, hrun] at hmay
            cases hmay
      · rw [hv] at h
        exact absurd h cons_ne
  | go =>
      have h : (step d.up .go).results = r :: d.up.results := h
      rw [step] at h
      split at h
      · exact absurd h cons_ne
      · rename_i w hw
        rcases advance_cases w d.up with ⟨pc, hadv, -, -⟩ | ⟨ok, -, hadv⟩
        · rw [hadv] at h
          exact absurd h cons_ne
        · rw [hadv] at h
          obtain ⟨rfl, -⟩ := List.cons_eq_cons.mp h
          have hset := outcome_cancel hr
          exact ⟨(hj.owner w hw).mpr (hj.latch hset), hset⟩

/-! ### Every run -/

/-- A packet on channel 1. -/
def onChannel (cmd cnt : UInt8) : Packet :=
  [0, 0, 0, 1, cmd, 0, cnt, 4] ++ List.replicate 56 0

/-- A request runs, and its check waits in the pump. -/
def waits : List DeviceAct :=
  [.packet (onChannel 0x90 1), .task, .check .fido 1000, .go]

/-- The button is pressed, and the check goes on to its return. -/
def pressed : List DeviceAct := List.replicate 10 (.sample true) ++ List.replicate 4 .go

/-- A packet that stops the running request leaves no press to any check that returns
before another request is dispatched; a packet that does not stop it leaves the touch
wait as it was; and where a check is cancelled, it is one of the running request, and
a packet stopped this request. -/
theorem cancel_belongs (acts : List DeviceAct) :
    (∀ pkt post, (device.run acts).pumping = true → Stops (device.run acts).hid pkt →
      (device.run (acts ++ .packet pkt :: post)).hid.dispatched.length =
        (device.run acts).hid.dispatched.length →
      ∃ new, (device.run (acts ++ .packet pkt :: post)).up.results =
          new ++ (device.run acts).up.results ∧
        ∀ r ∈ new, r.owner = .fido → r.value = .cancel ∨ r.value = .fail) ∧
    (∀ pkt, ¬Stops (device.run acts).hid pkt →
      ((device.run acts).step (.packet pkt)).up = (device.run acts).up) ∧
    (∀ a r, (device.run (acts ++ [a])).up.results = r :: (device.run acts).up.results →
      r.value = .cancel → r.owner = .fido ∧ ∃ pre pkt, StoppedBy acts pre pkt) := by
  have hj := joined_run acts
  refine ⟨fun pkt post hp hs hn => ?_, fun pkt hs => ?_, fun a r hres hr => ?_⟩
  · have hend : Ended (device.run acts).hid.dispatched.length (device.run acts).up.results
          (device.run (acts ++ .packet pkt :: post)) ∧
        Joined (device.run (acts ++ .packet pkt :: post)) := by
      rw [Runs.System.run_append]
      exact Runs.System.runFrom_keeps (M := device)
        (I := fun d => Ended (device.run acts).hid.dispatched.length
          (device.run acts).up.results d ∧
          Joined d)
        (fun d a h => ⟨h.1.step h.2 a, joined_step h.2 a⟩)
        ⟨ended_packet hj hp hs, joined_step hj (.packet pkt)⟩ post
    obtain ⟨new, hnew, hall⟩ := hend.1.results hn
    refine ⟨new, hnew, fun r hmem hfido => ?_⟩
    have hne := hall r hmem hfido
    cases hv : r.value with
    | ok => exact absurd hv hne
    | fail => exact .inr rfl
    | cancel => exact .inl rfl
  · rw [Device.step]
    split
    · have hsame : (Ctaphid.step (device.run acts).hid (.packet pkt)).cancel =
          (device.run acts).up.cancel :=
        (Ctaphid.cancel_of_not_stops (s := (device.run acts).hid.see pkt) hs).trans hj.cancel
      rw [Device.frame, hsame]
    · rfl
  · rw [Runs.System.run_concat] at hres
    obtain ⟨hfido, hset⟩ := cancelled_step hj hres hr
    exact ⟨hfido, latch_stopped acts hset⟩

/-- A CANCEL in the pump. -/
theorem cancel_belongs_waits :
    ∃ new, (device.run (waits ++ .packet (onChannel 0x91 0) :: pressed)).up.results =
        new ++ (device.run waits).up.results ∧
      ∀ r ∈ new, r.owner = .fido → r.value = .cancel ∨ r.value = .fail := by
  have hpump : (device.run waits).pumping = true := by decide +kernel
  have hrun : (device.run waits).hid.running = true := by decide +kernel
  have hsame : (device.run (waits ++ .packet (onChannel 0x91 0) :: pressed)).hid.dispatched.length =
      (device.run waits).hid.dispatched.length := by
    decide +kernel
  have hstops : Stops (device.run waits).hid (onChannel 0x91 0) :=
    ⟨hrun, .inl ⟨by decide, by decide +kernel, by decide, by decide⟩⟩
  exact (cancel_belongs waits).1 (onChannel 0x91 0) pressed hpump hstops hsame

/-- The command is INIT and the channel that of the running request, but four bytes are
no nonce: the check sees the press. -/
theorem init_without_nonce :
    Ctaphid.isInitPacket (onChannel 0x86 4) = true ∧
      Ctaphid.cmdOf (onChannel 0x86 4) = Ctaphid.cmdInit ∧
      Ctaphid.readBe32 (onChannel 0x86 4) = (device.run waits).hid.busyCid ∧
      (device.run waits).hid.running = true ∧
      (device.run waits).pumping = true ∧
      (device.run (waits ++ .packet (onChannel 0x86 4) :: pressed)).up.results =
        [⟨.fido, .ok, 0, 10⟩] := by
  decide +kernel

end Nixtropic.Presence
