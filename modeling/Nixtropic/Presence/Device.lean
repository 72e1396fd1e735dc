import Nixtropic.Hid.Latch
import Nixtropic.Presence.Consent

/-!
The touch wait and the framing together.

They share `s_awaiting` and `s_cancel`, and the interrupt of the button may
come anywhere, but the main thread is in one place: a waiting check lets
packets in only in its pump, and between its tests nothing of the framing runs.
FIDO checks come from the running handler, OpenPGP checks from the main loop.
-/

namespace Nixtropic.Presence

/-- The framing and the touch wait of one device. -/
structure Device where
  hid : Ctaphid.State
  up : State

namespace Device

/-- The framing does something; the latch is shared. -/
def frame (a : Ctaphid.Act) (d : Device) : Device where
  hid := Ctaphid.step d.hid a
  up := { d.up with cancel := (Ctaphid.step d.hid a).cancel }

/-- The touch wait does something; the wait flag and the clock are shared. -/
def touch (a : Act) (d : Device) : Device where
  hid := Ctaphid.step (Ctaphid.step d.hid (.wait (step d.up a).awaiting)) (.clock (step d.up a).now)
  up := step d.up a

/-- The main thread is not between the tests of a waiting check. -/
def pumping (d : Device) : Bool :=
  match d.up.wait with
  | none => true
  | some w => w.pc = .pump

/-- Where a check may be called: by the running handler outside of a progress
point, or by the main loop. -/
def mayCheck (d : Device) : Owner → Bool
  | .fido => d.hid.running && !d.hid.inProgress
  | .openpgp => !d.hid.running

end Device

/-- What happens next on the device. -/
inductive DeviceAct where
  | endpoint (usb : ℕ → Bool)
  | sample (raw : Bool)
  | packet (pkt : Ctaphid.Packet)
  | task
  | progress
  | progressed
  | scratch (buf : Ctaphid.Packet)
  | finish (n : Option ℕ)
  | check (owner : Owner) (timeoutMs : ℕ)
  | go

/-- The pump of a waiting check is over when its progress point has
returned. -/
def Device.step (d : Device) : DeviceAct → Device
  | .endpoint usb => d.frame (.endpoint usb)
  | .sample raw => d.touch (.sample raw)
  | .packet pkt => if d.pumping then d.frame (.packet pkt) else d
  | .task => if d.up.wait.isNone then d.frame .task else d
  | .progress => if d.pumping then d.frame .progress else d
  | .progressed => if d.pumping then d.frame .progressed else d
  | .scratch buf => if d.up.wait.isNone then d.frame (.scratch buf) else d
  | .finish n => if d.up.wait.isNone then d.frame (.finish n) else d
  | .check owner timeoutMs =>
    if d.pumping && d.mayCheck owner then d.touch (.call owner timeoutMs) else d
  | .go => if d.pumping && d.hid.inProgress then d else d.touch .go

def device : Runs.System Device DeviceAct := ⟨⟨Ctaphid.fidoHidInit, .init⟩, Device.step⟩

section

variable {d : Device}

/-- What holds between the two: the shared flags agree, the latch is set only
while a request runs, and a FIDO check waits only while one does. -/
structure Joined (d : Device) : Prop where
  tidy : Ctaphid.Tidy d.hid
  inv : Inv d.up
  awaiting : d.hid.awaiting = d.up.awaiting
  cancel : d.hid.cancel = d.up.cancel
  latch : d.up.cancel = true → d.hid.running = true
  owner : ∀ w ∈ d.up.wait, (w.owner = .fido ↔ d.hid.running = true)

/-- A step of the framing, which keeps the wait flag. -/
theorem Joined.frame (h : Joined d) {a : Ctaphid.Act}
    (hw : (Ctaphid.step d.hid a).awaiting = d.hid.awaiting)
    (hlatch : (Ctaphid.step d.hid a).cancel = true → (Ctaphid.step d.hid a).running = true)
    (hrun : d.up.wait ≠ none → (Ctaphid.step d.hid a).running = d.hid.running) :
    Joined (d.frame a) where
  tidy := h.tidy.step a
  inv := h.inv.latch _
  awaiting := hw.trans h.awaiting
  cancel := rfl
  latch := hlatch
  owner := by
    intro w hmem
    have hwait : d.up.wait = some w := hmem
    show w.owner = .fido ↔ (Ctaphid.step d.hid a).running = true
    rw [hrun (by simp [hwait])]
    exact h.owner w hmem

/-- A step of the touch wait, which keeps the latch. -/
theorem Joined.touch (h : Joined d) {a : Act} (hcancel : (step d.up a).cancel = d.up.cancel)
    (howner : ∀ w ∈ (step d.up a).wait, (w.owner = .fido ↔ d.hid.running = true)) :
    Joined (d.touch a) where
  tidy := (h.tidy.step (.wait _)).step (.clock _)
  inv := inv_step h.inv a
  awaiting := rfl
  cancel := h.cancel.trans hcancel.symm
  latch := fun hc => h.latch (hcancel.symm.trans hc)
  owner := howner

theorem advance_cancel (w : Wait) (s : State) : (advance w s).cancel = s.cancel := by
  unfold advance
  split
  · split <;> rfl
  all_goals rfl

theorem advance_owner {w w' : Wait} {s : State} (h : (advance w s).wait = some w') :
    w'.owner = w.owner := by
  unfold advance at h
  split at h
  · split at h <;> (cases h; rfl)
  · cases h; rfl
  · cases h; rfl
  · cases h; rfl
  · cases h

theorem check_cancel (owner : Owner) (timeoutMs : ℕ) (s : State) :
    (userPresenceCheck owner timeoutMs s).cancel = s.cancel := by
  unfold userPresenceCheck
  split
  · rfl
  · split
    · rfl
    · split <;> rfl

theorem check_owner {owner : Owner} {timeoutMs : ℕ} {w : Wait} {s : State}
    (h : (userPresenceCheck owner timeoutMs s).wait = some w) :
    s.wait = some w ∨ w.owner = owner := by
  unfold userPresenceCheck at h
  split at h
  · exact .inl h
  · split at h
    · exact .inl h
    · split at h
      · exact .inl h
      · cases h
        exact .inr rfl

theorem Joined.calm (h : Joined d) {a : Ctaphid.Act}
    (hq : Ctaphid.Calm a d.hid (Ctaphid.step d.hid a)) : Joined (d.frame a) := by
  apply h.frame hq.awaiting _ fun _ => hq.running
  intro hc
  rw [hq.running]
  rcases hq.cancel with hsame | ⟨-, pkt, -, hstops⟩
  · exact h.latch (h.cancel.symm.trans (hsame.symm.trans hc))
  · exact hstops.1

theorem Joined.turned (h : Joined d) {a : Ctaphid.Act} (hwait : d.up.wait = none)
    (ht : Ctaphid.Turned d.hid (Ctaphid.step d.hid a)) : Joined (d.frame a) := by
  apply h.frame ht.awaiting
  · intro hc
    rcases ht.latch with ⟨hsame, hrun, -⟩ | ⟨hclear, -⟩
    · rw [hrun]
      exact h.latch (h.cancel.symm.trans (hsame.symm.trans hc))
    · rw [hclear] at hc
      cases hc
  · exact fun hne => absurd hwait hne

theorem Joined.check (h : Joined d) {owner : Owner} (hmay : d.mayCheck owner = true)
    (timeoutMs : ℕ) : Joined (d.touch (.call owner timeoutMs)) := by
  apply h.touch (a := .call owner timeoutMs) (check_cancel owner timeoutMs d.up)
  intro w hw
  rcases check_owner hw with hold | rfl
  · exact h.owner w hold
  · cases ho : w.owner with
    | fido =>
        rw [ho] at hmay
        have hrun : d.hid.running = true := by
          simp only [Device.mayCheck, Bool.and_eq_true] at hmay
          exact hmay.1
        simp [hrun]
    | openpgp =>
        rw [ho] at hmay
        have hidle : d.hid.running = false := by
          simpa [Device.mayCheck] using hmay
        simp [hidle]

theorem Joined.go (h : Joined d) : Joined (d.touch .go) := by
  have hstep : step d.up .go = match d.up.wait with
      | none => d.up
      | some w => advance w d.up := rfl
  cases hw : d.up.wait with
  | none =>
      rw [hw] at hstep
      apply h.touch
      · rw [hstep]
      · rw [hstep]
        exact h.owner
  | some w =>
      rw [hw] at hstep
      apply h.touch
      · rw [hstep]
        exact advance_cancel w d.up
      · rw [hstep]
        intro w' hw'
        rw [advance_owner hw']
        exact h.owner w hw

theorem joined_init : Joined ⟨Ctaphid.fidoHidInit, .init⟩ := by
  refine ⟨Ctaphid.tidy_fidoHidInit, inv_init, rfl, rfl, nofun, ?_⟩
  intro w hw
  cases hw

theorem joined_step (h : Joined d) (a : DeviceAct) : Joined (d.step a) := by
  cases a with
  | endpoint usb => exact h.calm ⟨rfl, rfl, rfl, .inl rfl⟩
  | sample raw => exact h.touch rfl h.owner
  | packet pkt =>
      rw [Device.step]
      split
      · exact h.calm (Ctaphid.calm_packet h.tidy pkt)
      · exact h
  | task =>
      rw [Device.step]
      split
      · rename_i hw
        exact h.turned (by simpa using hw) (Ctaphid.turned_task h.tidy)
      · exact h
  | progress =>
      rw [Device.step]
      split
      · exact h.calm (Ctaphid.calm_progress d.hid)
      · exact h
  | progressed =>
      rw [Device.step]
      split
      · exact h.calm (Ctaphid.calm_progressed d.hid)
      · exact h
  | scratch buf =>
      rw [Device.step]
      split
      · exact h.calm (Ctaphid.calm_scratch d.hid buf)
      · exact h
  | finish n =>
      rw [Device.step]
      split
      · rename_i hw
        exact h.turned (by simpa using hw) (Ctaphid.turned_handlerReturn d.hid n)
      · exact h
  | check owner timeoutMs =>
      rw [Device.step]
      split
      · rename_i hmay
        exact h.check (Bool.and_eq_true_iff.mp hmay).2 timeoutMs
      · exact h
  | go =>
      rw [Device.step]
      split
      · exact h
      · exact h.go

theorem joined_run (acts : List DeviceAct) : Joined (device.run acts) :=
  Runs.System.run_keeps (M := device) (I := Joined) joined_init (fun _ a h => joined_step h a) acts

end

end Nixtropic.Presence
