import Nixtropic.Hid.Drain

/-!
Whether the framing gets rid of what it has queued. With an endpoint that takes
every report and no further packets, two calls of `fido_hid_task` are enough,
unless an INIT abandoned a queued request while the answer of an earlier one
was still going out: then the answer waits for the held INIT answer, that one
for the abandoned request, and the request for the answer.
-/

namespace Nixtropic.Ctaphid

variable {s s' : State}

/-! ### Calls of `fido_hid_task` -/

/-- What a handler does when no packet arrives. -/
def Quiet : Act → Prop
  | .progress | .progressed | .scratch _ | .wait _ | .clock _ => True
  | _ => False

/-- The handler may return. -/
structure Returns (s : State) (n : Option ℕ) : Prop where
  inProgress : s.inProgress = false
  awaiting : s.awaiting = false
  fits : ∀ m ∈ n, m ≤ maxPayload

/-- A whole call of `fido_hid_task` during which no packet arrives. -/
inductive TaskCall (s : State) : State → Prop
  | returned (h : (step s .task).running = false) : TaskCall s (step s .task)
  | handler {script : List Act} {n : Option ℕ} (hrun : (step s .task).running = true)
      (hquiet : ∀ a ∈ script, Quiet a)
      (hret : Returns (system.runFrom (step s .task) script) n) :
      TaskCall s (step (system.runFrom (step s .task) script) (.finish n))

/-- Calls one after another. -/
inductive TaskCalls : ℕ → State → State → Prop
  | zero (s : State) : TaskCalls 0 s s
  | succ {n : ℕ} {s s₁ s' : State} (h : TaskCall s s₁) (hs : TaskCalls n s₁ s') :
      TaskCalls (n + 1) s s'

/-- A request is queued or an answer waits. -/
def Waiting (s : State) : Prop :=
  s.busyCid ≠ 0 ∨ s.resp.pending = true ∨ s.short.pending = true ∨ s.resync.pending = true

/-- The queued request was run or discarded, or a packet went out. -/
def Advanced (s s' : State) : Prop :=
  (s.busyCid ≠ 0 ∧ s'.busyCid = 0) ∨ s.sent.length < s'.sent.length

/-- The first packet of a new request is taken, unless another channel's
request is being put together. -/
def Accepts (s : State) : Prop :=
  ∀ pkt cid cmd len, IsFirst cid cmd len pkt → (s.asm.state = .assembling → cid = s.asm.curCid) →
    (step s (.packet pkt)).busyCid = cid ∨
      (step s (.packet pkt)).asm.state = .assembling ∧ (step s (.packet pkt)).asm.curCid = cid

/-- Nothing is queued, nothing waits, and a new request is accepted. -/
structure Open (s : State) : Prop where
  busyCid : s.busyCid = 0
  resp : s.resp.pending = false
  short : s.short.pending = false
  resync : s.resync.pending = false
  accepts : Accepts s

/-- The endpoint takes every report, and no touch wait keeps the main loop from
running. -/
def State.served (s : State) : State := { s with usb := fun _ => true, awaiting := false }

/-- A call gets on with what waits, and finitely many calls are done with it. -/
structure Drains (s : State) : Prop where
  advances : Waiting s → ∀ s', TaskCall s.served s' → Advanced s s'
  opens : ∃ n, (∃ s', TaskCalls n s.served s') ∧ ∀ s', TaskCalls n s.served s' → Open s'

/-- An INIT on the channel of a queued request while an earlier answer is still
going out. -/
def Crosses (s : State) (a : Act) : Prop :=
  ∃ pkt, a = .packet pkt ∧ s.running = false ∧ s.busyCid ≠ 0 ∧ s.resp.pending = true ∧
    IsSync s.busyCid pkt

/-- An answer is still going out, and the queued request is abandoned. -/
def Wedged (s : State) : Prop := s.abandoned = true ∧ s.resp.pending = true

/-! ### A new request -/

theorem handlePacket_first {cid len : ℕ} {cmd : UInt8} {pkt : Packet}
    (h : IsFirst cid cmd len pkt) (hb : s.busyCid = 0) (hw : s.awaiting = false)
    (hc : s.asm.state = .assembling → cid = s.asm.curCid) :
    handlePacket pkt s = s.accept cid (startAssembly s.asm cid pkt) := by
  obtain ⟨hlen, rfl, h0, hbc, hinit, rfl, hni, hnc, rfl, hfits⟩ := h
  have hfree : ¬ (s.asm.state = .assembling ∧ readBe32 pkt ≠ s.asm.curCid) :=
    fun h => h.2 (hc h.1)
  rw [handlePacket, if_neg (by omega), if_neg h0, if_pos hinit, handleInitPacket,
    if_neg (fun h => hbc h.1), if_neg hni, if_neg hnc, handleRequestPacket,
    if_neg (by simp [hw, hb]), if_neg hfree, if_neg (by omega)]
  dsimp only
  split
  · next hfull => rw [accept_whole hb hw hfull]
  · next hfull => rw [State.accept, if_neg hfull]

theorem accepts_of_idle (hb : s.busyCid = 0) (hw : s.awaiting = false) : Accepts s := by
  intro pkt cid cmd len h hc
  change (handlePacket pkt (s.see pkt)).busyCid = cid ∨ _
  change _ ∨ (handlePacket pkt (s.see pkt)).asm.state = .assembling ∧
    (handlePacket pkt (s.see pkt)).asm.curCid = cid
  rw [handlePacket_first (s := s.see pkt) h hb hw hc, State.accept]
  split
  · exact .inl rfl
  · exact .inr ⟨rfl, rfl⟩

/-! ### One call -/

/-- The flags between two calls. -/
structure AtRest (s : State) : Prop where
  tidy : Tidy s
  accepting : s.Accepting
  running : s.running = false
  awaiting : s.awaiting = false

theorem AtRest.task (h : AtRest s) : step s .task = fidoHidTask s := by
  simp [step, h.running, h.awaiting]

theorem AtRest.inProgress (h : AtRest s) : s.inProgress = false := by
  by_contra hp
  have := h.tidy.inProgress (by simpa using hp)
  rw [h.running] at this
  cases this

theorem Tidy.atRest (ht : Tidy s) (hr : s.running = false) : AtRest s.served :=
  ⟨⟨ht.1, ht.2, ht.3, ht.4, ht.5, ht.6, ht.7⟩, rfl, hr, rfl⟩

/-- What is left after the answers were sent. -/
structure Sent (s s' : State) : Prop where
  accepting : s'.Accepting
  short : s'.short.pending = false
  resync : s'.resync.pending = false
  resp : s'.resp.pending = false

theorem sendAnswers_sent (h : s.Accepting) (ha : s.abandoned = false) :
    Sent s (sendAnswers s) := by
  have hheld : (s.resync.pending && s.abandoned) = false := by rw [ha, Bool.and_false]
  obtain ⟨resp, more, heq, -, hp, -⟩ := sendAnswers_accepting h
  rw [heq]
  exact ⟨h, rfl, hheld, hp hheld⟩

/-- Whatever may go out goes out. -/
theorem sendAnswers_longer (h : s.Accepting) (ha : s.abandoned = false)
    (hw : s.resp.pending = true ∨ s.short.pending = true ∨ s.resync.pending = true) :
    s.sent.length < (sendAnswers s).sent.length := by
  have hheld : (s.resync.pending && s.abandoned) = false := by rw [ha, Bool.and_false]
  obtain ⟨resp, more, heq, -, -, hmore⟩ := sendAnswers_accepting h
  rw [heq]
  change s.sent.length < (s.flushed.sent ++ more).length
  simp only [State.flushed, List.length_append]
  obtain hw | hw | hw := hw
  · have := List.length_pos_iff.mpr (hmore hheld hw)
    omega
  · rw [hw]
    simp only [if_true, List.length_singleton]
    omega
  · rw [hw, ha]
    simp only [Bool.not_false, Bool.and_self, if_true, List.length_singleton]
    omega

/-- The end of a request leaves nothing behind. -/
theorem finishRequest_open (h : s.Accepting) (hw : s.awaiting = false) :
    Open (finishRequest s) := by
  obtain ⟨resp, heq⟩ := s.ended_eq
  have hf := finishRequest_finished s
  have ha : s.ended.Accepting := by
    rw [heq]
    exact h
  have hs := sendAnswers_sent ha (by rw [heq])
  rw [← finishRequest_eq] at hs
  exact ⟨hf.busyCid, hs.resp, hs.short, hs.resync,
    accepts_of_idle hf.busyCid (hf.awaiting.trans hw)⟩

/-- A CBOR handler runs. -/
structure Handling (s : State) : Prop where
  tidy : Tidy s
  accepting : s.Accepting
  running : s.running = true

theorem Handling.step {a : Act} (h : Handling s) (ha : Quiet a) : Handling (step s a) := by
  have ht := h.tidy.step a
  cases a with
  | endpoint usb => cases ha
  | packet pkt => cases ha
  | task => cases ha
  | finish n => cases ha
  | clock now => exact ⟨ht, h.accepting, h.running⟩
  | wait on => exact ⟨ht, h.accepting, h.running⟩
  | progress =>
    refine ⟨ht, ?_, ?_⟩ <;> simp only [Ctaphid.step] <;> split
    · exact h.accepting
    · exact h.accepting
    · exact h.running
    · exact h.running
  | progressed =>
    refine ⟨ht, ?_, ?_⟩ <;> simp only [Ctaphid.step] <;> split
    · exact accepting_progressRest h.accepting
    · exact h.accepting
    · obtain ⟨s₁, hr, heq⟩ := progressRest_eq s
      rw [heq]
      exact hr.running.trans h.running
    · exact h.running
  | scratch buf =>
    refine ⟨ht, ?_, ?_⟩ <;> simp only [Ctaphid.step] <;> split
    · exact h.accepting
    · exact h.accepting
    · exact h.running
    · exact h.running

theorem Handling.runFrom {script : List Act} (h : Handling s) (hq : ∀ a ∈ script, Quiet a) :
    Handling (system.runFrom s script) := by
  induction script generalizing s with
  | nil => exact h
  | cons a script ih =>
    exact ih (h.step (hq a List.mem_cons_self)) fun b hb => hq b (List.mem_cons_of_mem a hb)

/-- The handler's return is the end of the request. -/
theorem Handling.finish {n : Option ℕ} (h : Handling s) (hret : Returns s n) :
    Open (Ctaphid.step s (.finish n)) := by
  have hguard : s.running ∧ !s.inProgress ∧ !s.awaiting ∧ ∀ m ∈ n, m ≤ maxPayload := by
    refine ⟨h.running, ?_, ?_, hret.fits⟩
    · rw [hret.inProgress]
      rfl
    · rw [hret.awaiting]
      rfl
  simp only [Ctaphid.step]
  rw [if_pos hguard]
  refine finishRequest_open (accepting_handleCborReturn h.accepting _ _) ?_
  exact (handleCborReturn_framed _ _ _).awaiting.trans hret.awaiting

/-- A call that finds no request, or an answer still going out. -/
theorem taskCall_waits (h : AtRest s) (hw : s.busyCid = 0 ∨ s.resp.pending = true)
    (hc : TaskCall s s') : s' = sendAnswers s := by
  have htask : step s .task = sendAnswers s := by
    rw [h.task, fidoHidTask, if_neg]
    rintro ⟨hb, hp⟩
    obtain hw | hw := hw
    · exact hb hw
    · rw [hw] at hp
      cases hp
  cases hc with
  | returned _ => exact htask
  | handler hrun _ _ =>
    rw [htask, (sendAnswers_framed s).running, h.running] at hrun
    cases hrun

/-- A call that finds a request runs or discards it. -/
theorem taskCall_runs (h : AtRest s) (hb : s.busyCid ≠ 0) (hp : s.resp.pending = false)
    (hc : TaskCall s s') : Open s' := by
  have ht := fidoHidTask_tasked h.tidy
  rw [← h.task] at ht
  generalize htask : step s .task = s₁ at ht
  have hopen (hr : s₁.running = false) : Open s₁ := by
    cases ht with
    | waited hw => exact absurd hw (by simp [hb, hp])
    | discarded _ _ _ => exact finishRequest_open h.accepting h.awaiting
    | answered _ _ _ _ => exact finishRequest_open h.accepting h.awaiting
    | rejected _ _ _ =>
      have hs : s.started.Accepting := h.accepting
      refine finishRequest_open (accepting_queueError hs _ _) ?_
      exact (replied_queueError s.busyCid errInvalidCmd s.started).awaiting.trans h.awaiting
    | started _ _ _ _ => cases hr
  cases hc with
  | returned hr =>
    rw [htask] at hr ⊢
    exact hopen hr
  | handler hrun hquiet hret =>
    rw [htask] at hrun hret ⊢
    have hh : Handling s₁ := by
      refine ⟨htask ▸ h.tidy.step .task, ?_, hrun⟩
      cases ht with
      | started _ _ _ _ => exact h.accepting
      | waited hw => exact absurd hw (by simp [hb, hp])
      | discarded _ _ _ => rw [(finishRequest_finished _).running] at hrun; cases hrun
      | answered _ _ _ _ => rw [(finishRequest_finished _).running] at hrun; cases hrun
      | rejected _ _ _ => rw [(finishRequest_finished _).running] at hrun; cases hrun
    exact (hh.runFrom hquiet).finish hret

theorem AtRest.sendAnswers (h : AtRest s) : AtRest (sendAnswers s) where
  tidy := h.tidy.sendAnswers h.running
  accepting := accepting_sendAnswers h.accepting
  running := (sendAnswers_framed s).running.trans h.running
  awaiting := (sendAnswers_framed s).awaiting.trans h.awaiting

/-- A call returns, at the latest when the handler returns at once. -/
theorem exists_taskCall (h : AtRest s) : ∃ s', TaskCall s s' := by
  cases hr : (step s .task).running with
  | false => exact ⟨_, .returned hr⟩
  | true =>
    have ht := fidoHidTask_tasked h.tidy
    rw [← h.task] at ht
    refine ⟨_, .handler (n := none) hr (by simp : ∀ a ∈ [], Quiet a) ⟨?_, ?_, by simp⟩⟩
    all_goals
      generalize step s .task = s₁ at hr ht ⊢
      cases ht with
      | waited _ => rw [(sendAnswers_framed s).running, h.running] at hr; cases hr
      | discarded _ _ _ => rw [(finishRequest_finished _).running] at hr; cases hr
      | answered _ _ _ _ => rw [(finishRequest_finished _).running] at hr; cases hr
      | rejected _ _ _ => rw [(finishRequest_finished _).running] at hr; cases hr
      | started _ _ _ _ => first | exact h.inProgress | exact h.awaiting

/-! ### Two calls are enough -/

/-- Without a wedge nothing is abandoned while an answer goes out. -/
theorem AtRest.waits_abandoned (h : AtRest s) (hw : ¬ Wedged s)
    (hwait : s.busyCid = 0 ∨ s.resp.pending = true) : s.abandoned = false := by
  by_contra ha
  have ha : s.abandoned = true := by simpa using ha
  obtain hwait | hwait := hwait
  · exact (h.tidy.abandoned ha).1 hwait
  · exact hw ⟨ha, hwait⟩

/-- After the answers have gone out only the queued request is left. -/
theorem sendAnswers_open (h : AtRest s) (ha : s.abandoned = false) (hb : s.busyCid = 0) :
    Open (sendAnswers s) := by
  have hs := sendAnswers_sent h.accepting ha
  have hb' := (sendAnswers_framed s).busyCid.trans hb
  exact ⟨hb', hs.resp, hs.short, hs.resync, accepts_of_idle hb' h.sendAnswers.awaiting⟩

theorem drains_waits (h : AtRest s.served) (hw : ¬ Wedged s)
    (hwait : s.busyCid = 0 ∨ s.resp.pending = true) : Drains s := by
  have ha : s.served.abandoned = false := h.waits_abandoned hw hwait
  have hs := sendAnswers_sent h.accepting ha
  constructor
  · intro hwaiting s' hc
    obtain rfl := taskCall_waits h hwait hc
    refine .inr (sendAnswers_longer h.accepting ha ?_)
    obtain hb | hp := hwait
    · exact hwaiting.resolve_left fun hn => hn hb
    · exact .inl hp
  · obtain ⟨s₁, hc⟩ := exists_taskCall h
    obtain rfl := taskCall_waits h hwait hc
    by_cases hb : s.busyCid = 0
    · refine ⟨1, ⟨_, .succ hc (.zero _)⟩, ?_⟩
      rintro s' (_ | ⟨hc', _ | _⟩)
      obtain rfl := taskCall_waits h hwait hc'
      exact sendAnswers_open h ha hb
    · have hb' : (sendAnswers s.served).busyCid ≠ 0 := by
        rw [(sendAnswers_framed _).busyCid]
        exact hb
      obtain ⟨s₂, hc₂⟩ := exists_taskCall h.sendAnswers
      refine ⟨2, ⟨_, .succ hc (.succ hc₂ (.zero _))⟩, ?_⟩
      rintro s' (_ | ⟨hc', _ | ⟨hc₂', _ | _⟩⟩)
      obtain rfl := taskCall_waits h hwait hc'
      exact taskCall_runs h.sendAnswers hb' hs.resp hc₂'

theorem drains_of_not_wedged (ht : Tidy s) (hr : s.running = false) (hw : ¬ Wedged s) :
    Drains s := by
  have h := ht.atRest hr
  by_cases hwait : s.busyCid = 0 ∨ s.resp.pending = true
  · exact drains_waits h hw hwait
  · push Not at hwait
    obtain ⟨hb, hp⟩ := hwait
    have hp : s.resp.pending = false := by simpa using hp
    constructor
    · intro _ s' hc
      exact .inl ⟨hb, (taskCall_runs h hb hp hc).busyCid⟩
    · obtain ⟨s₁, hc⟩ := exists_taskCall h
      refine ⟨1, ⟨_, .succ hc (.zero _)⟩, ?_⟩
      rintro s' (_ | ⟨hc', _ | _⟩)
      exact taskCall_runs h hb hp hc'

/-! ### The wedge -/

/-- In a wedge no call gets anywhere. -/
theorem Wedged.taskCalls {n : ℕ} (hw : Wedged s) (h : AtRest s) (hc : TaskCalls n s s') :
    Wedged s' ∧ AtRest s' := by
  induction hc with
  | zero s => exact ⟨hw, h⟩
  | @succ n s s₁ s' hc _ ih =>
    obtain rfl := taskCall_waits h (.inr hw.2) hc
    have hheld : (s.resync.pending && s.abandoned) = true := by
      rw [hw.1, (h.tidy.abandoned hw.1).2.1, Bool.and_self]
    refine ih ⟨?_, ?_⟩ h.sendAnswers
    · rw [(sendAnswers_framed s).abandoned]
      exact hw.1
    · obtain ⟨resp, more, heq, hresp, -⟩ := sendAnswers_accepting h.accepting
      rw [heq]
      change resp.pending = true
      rw [hresp hheld]
      exact hw.2

theorem Wedged.not_drains (hw : Wedged s) (ht : Tidy s) (hr : s.running = false) : ¬ Drains s := by
  intro hd
  obtain ⟨n, ⟨s', hc⟩, hopen⟩ := hd.opens
  have hw' : Wedged s.served := hw
  have h := hw'.taskCalls (ht.atRest hr) hc
  have hres := (hopen s' hc).resp
  rw [h.1.2] at hres
  cases hres

/-- While a request is abandoned only the short slot goes out. -/
theorem sendAnswers_abandoned (ht : Tidy s) (ha : s.abandoned = true) :
    sendAnswers s = (flushPending s).2 := by
  obtain ⟨hb, hp, hc⟩ := ht.abandoned ha
  have hresync := (replied_flushPending s).resync ha hc
  simp [sendAnswers, hresync, hp]

theorem Replied.not_wedged (ht : Tidy s) (hw : ¬ Wedged s) (h : Replied s s') : ¬ Wedged s' := by
  rintro ⟨ha, hp⟩
  rw [h.abandoned] at ha
  have hns : s.resp.pending = false := by
    by_contra hns
    exact hw ⟨ha, by simpa using hns⟩
  obtain hr | hr := h.resp (ht.abandoned ha).1
  · rw [hr, hns] at hp
    cases hp
  · rw [hr] at hp
    cases hp

theorem Effect.not_wedged {pkt : Packet} (ht : Tidy s) (hw : ¬ Wedged s) (h : Effect pkt s s')
    (hc : s.running = false → s.resp.pending = true → s.busyCid ≠ 0 → ¬ IsSync s.busyCid pkt) :
    ¬ Wedged s' := by
  have hfree (hb : s.busyCid = 0) : s.abandoned = false := by
    by_contra ha
    exact (ht.abandoned (by simpa using ha)).1 hb
  cases h with
  | answered h _ => exact h.not_wedged ht hw
  | reset hb h =>
    rintro ⟨ha, -⟩
    rw [h.abandoned, show (resetAssembly s).abandoned = false from hfree hb] at ha
    cases ha
  | resynced hb hsync h =>
    rintro ⟨-, hp⟩
    rw [h.resp] at hp
    cases hr : s.running with
    | true =>
      rw [(ht.running hr).2] at hp
      cases hp
    | false => exact hc hr hp hb hsync
  | first hb _ _ =>
    rintro ⟨ha, -⟩
    unfold State.accept at ha
    split at ha <;> exact absurd ha (by simp [hfree hb])
  | next hb _ _ =>
    rintro ⟨ha, -⟩
    unfold State.accept at ha
    split at ha <;> exact absurd ha (by simp [hfree hb])

/-- Nothing but such an INIT makes a wedge. -/
theorem not_wedged_step (ht : Tidy s) (hw : ¬ Wedged s) {a : Act} (ha : ¬ Crosses s a) :
    ¬ Wedged (step s a) := by
  have hfinished {s₁ s₂ : State} (h : Finished s₁ s₂) : ¬ Wedged s₂ := by
    rintro ⟨ha, -⟩
    rw [h.abandoned] at ha
    cases ha
  cases a with
  | endpoint usb => exact hw
  | clock now => exact hw
  | wait on => exact hw
  | packet pkt =>
    refine Effect.not_wedged (ht.see pkt) hw (handlePacket_effect (ht.see pkt) pkt) ?_
    exact fun hr hp hb hs => ha ⟨pkt, rfl, hr, hb, hp, hs⟩
  | task =>
    simp only [step]
    split
    · exact hw
    · have h := fidoHidTask_tasked ht
      generalize fidoHidTask s = s' at h ⊢
      cases h with
      | waited _ =>
        cases hab : s.abandoned with
        | true =>
          rw [sendAnswers_abandoned ht hab]
          exact (replied_flushPending s).not_wedged ht hw
        | false =>
          rintro ⟨h, -⟩
          rw [(sendAnswers_framed s).abandoned, hab] at h
          cases h
      | discarded _ _ _ => exact hfinished (finishRequest_finished _)
      | answered _ _ _ _ => exact hfinished (finishRequest_finished _)
      | rejected _ _ _ => exact hfinished (finishRequest_finished _)
      | started _ _ _ _ => exact hw
  | progress =>
    simp only [step]
    split <;> exact hw
  | progressed =>
    simp only [step]
    split
    · obtain ⟨s₁, h, heq⟩ := progressRest_eq s
      have hw' := h.not_wedged ht hw
      rw [heq]
      exact hw'
    · exact hw
  | scratch buf =>
    simp only [step]
    split <;> exact hw
  | finish n =>
    simp only [step]
    split
    · exact hfinished (finishRequest_finished _)
    · exact hw

/-- Such an INIT makes a wedge. -/
theorem Crosses.wedged {a : Act} (ht : Tidy s) (h : Crosses s a) :
    Wedged (step s a) ∧ (step s a).running = false := by
  obtain ⟨pkt, rfl, hr, hb, hp, hs⟩ := h
  have hc := hs.channel
  obtain ⟨short, resync, hd⟩ := dropStaleInit_eq s.busyCid (s.see pkt)
  have hstep : step s (.packet pkt) =
      abandon s.busyCid (syncAnswer pkt) (dropStaleInit s.busyCid (s.see pkt)) := by
    change handlePacket pkt (s.see pkt) = _
    have hidle : syncAssembly s.busyCid (s.see pkt) = s.see pkt :=
      syncAssembly_of_idle (ht.idle hb)
    rw [handlePacket_sync (hc ▸ hs) (hc ▸ hb) (hc ▸ ht.not_broadcast), hc,
      if_pos (show s.busyCid = (s.see pkt).busyCid from rfl), hidle]
  rw [hstep, hd]
  exact ⟨⟨rfl, hp⟩, hr⟩

/-- In every run: from every state between two calls of `fido_hid_task` the
framing gets rid of what it has queued, if and only if no INIT arrived on the
channel of a queued request while an earlier answer was still going out. -/
theorem never_wedges_iff (acts : List Act) :
    (∀ pre, pre <+: acts → (system.run pre).running = false → Drains (system.run pre)) ↔
      ∀ pre a, pre ++ [a] <+: acts → ¬ Crosses (system.run pre) a := by
  constructor
  · intro h pre a hp hc
    have ht := tidy_run pre
    obtain ⟨hw, hr⟩ := hc.wedged ht
    have hd := h _ hp (by rwa [system.run_concat pre a])
    rw [system.run_concat pre a] at hd
    exact hw.not_drains (ht.step a) hr hd
  · intro h pre hp hr
    have hw : Tidy (system.run pre) ∧ ¬ Wedged (system.run pre) :=
      Runs.System.runFrom_keeps_of (M := system) (I := fun s => Tidy s ∧ ¬ Wedged s)
        (C := fun s a => ¬ Crosses s a)
        (fun s a h ha => ⟨h.1.step a, not_wedged_step h.1 h.2 ha⟩)
        ⟨tidy_fidoHidInit, fun h => by cases h.1⟩ fun p a hpa => h p a (hpa.trans hp)
    exact drains_of_not_wedged hw.1 hr hw.2

/-- A PING of no bytes. -/
def pingPacket (cid : ℕ) : Packet := writeBe32 cid ++ [0x81] ++ List.replicate 59 0

def initPacket (cid : ℕ) (nonce : Packet) : Packet :=
  writeBe32 cid ++ [0x86, 0, 8] ++ nonce ++ List.replicate 49 0

/-- The answer to a PING of channel 1 finds the endpoint busy, a PING of
channel 2 is queued, and channel 2 sends an INIT. -/
def wedgeRun : List Act :=
  [.packet (pingPacket 1), .task, .packet (pingPacket 2),
    .packet (initPacket 2 [1, 2, 3, 4, 5, 6, 7, 8])]

theorem wedge_demo :
    (system.run wedgeRun).running = false ∧ Waiting (system.run wedgeRun) ∧
      ¬ Drains (system.run wedgeRun) := by
  have hr : (system.run wedgeRun).running = false := by decide +kernel
  have hw : Wedged (system.run wedgeRun) := ⟨by decide +kernel, by decide +kernel⟩
  exact ⟨hr, .inr (.inl hw.2), hw.not_drains (tidy_run wedgeRun) hr⟩

end Nixtropic.Ctaphid
