import Nixtropic.Hid.Invariants
import Mathlib.Data.List.TakeDrop

/-!
Every dispatched request is one group of packets of its channel: a first
packet and CONT packets in sequence. The groups of two requests have no packet
in common.
-/

namespace Nixtropic.Ctaphid

variable {s s' : State}

/-- A stretch of the handled packets, newest first, with the first packet of a
request, `k` CONT packets of it, and their data fields one after another. Every
other packet in it leaves the channel's assembly alone. -/
inductive Group (cid : ℕ) (cmd : UInt8) (len : ℕ) : List Seen → ℕ → Packet → Prop
  | first {x : Seen} (h : IsFirst cid cmd len x.pkt) :
      Group cid cmd len [x] 0 ((x.pkt.drop 7).take initDataLen)
  | cont {x : Seen} {xs : List Seen} {k : ℕ} {data : Packet} {seq : UInt8}
      (h : Group cid cmd len xs k data) (hmore : data.length < len) (hseq : seq.toNat = k)
      (hx : IsCont cid seq x.pkt) :
      Group cid cmd len (x :: xs) (k + 1) (data ++ (x.pkt.drop 5).take contDataLen)
  | pass {x : Seen} {xs : List Seen} {k : ℕ} {data : Packet} (h : Group cid cmd len xs k data)
      (hx : Passed cid x) : Group cid cmd len (x :: xs) k data

/-- The group is the whole request: its data fields, cut to the length, and
zeros. -/
def Whole (xs : List Seen) (r : Request) : Prop :=
  ∃ k data, Group r.cid r.cmd r.len xs k data ∧ r.len ≤ data.length ∧
    r.buf = data.take r.len ++ List.replicate (maxPayload - r.len) 0

/-- The dispatched requests, newest first, come from stretches of the handled
packets that follow one another. -/
inductive Dispatches : List Seen → List Request → Prop
  | none (xs : List Seen) : Dispatches xs []
  | more {later group earlier : List Seen} {r : Request} {rs : List Request}
      (hr : Whole group r) (h : Dispatches earlier rs) :
      Dispatches (later ++ (group ++ earlier)) (r :: rs)

theorem Dispatches.append {xs : List Seen} {rs : List Request} (h : Dispatches xs rs)
    (ys : List Seen) : Dispatches (ys ++ xs) rs := by
  cases h with
  | none xs => exact .none _
  | more hr h =>
    rw [← List.append_assoc]
    exact .more hr h

theorem Group.data_length {cid k len : ℕ} {cmd : UInt8} {xs : List Seen} {data : Packet}
    (h : Group cid cmd len xs k data) : data.length = initDataLen + contDataLen * k := by
  induction h with
  | first h =>
    have := h.length
    simp only [reportLen] at this
    simp only [List.length_take, List.length_drop, initDataLen]
    omega
  | cont _ _ _ hx ih =>
    have := hx.length
    simp only [reportLen] at this
    simp only [List.length_append, List.length_take, List.length_drop, ih, contDataLen,
      initDataLen]
    omega
  | pass _ _ ih => exact ih

theorem Group.len_le {cid k len : ℕ} {cmd : UInt8} {xs : List Seen} {data : Packet}
    (h : Group cid cmd len xs k data) : len ≤ maxPayload := by
  induction h with
  | first h => exact h.fits
  | cont _ _ _ _ ih => exact ih
  | pass _ _ ih => exact ih

/-! ### The simulation -/

/-- A request that is put together. -/
structure Gathering (a : Assembly) (xs : List Seen) (k : ℕ) (data : Packet) : Prop where
  group : Group a.curCid a.reqCmd a.reqTotal xs k data
  seq : a.nextSeq.toNat = k
  received : a.reqReceived = data.length
  more : data.length < a.reqTotal
  buf : a.reqBuf = data ++ List.replicate (maxPayload - data.length) 0

/-- How far the framing is with the packets it has handled. -/
inductive Assembled (s : State) : Prop
  | rest (hst : s.asm.state = .idle) (hb : s.busyCid = 0 ∨ s.running = true)
      (h : Dispatches s.seen s.dispatched)
  | gathering {xs earlier : List Seen} {k : ℕ} {data : Packet} (hst : s.asm.state = .assembling)
      (hseen : s.seen = xs ++ earlier) (hg : Gathering s.asm xs k data)
      (h : Dispatches earlier s.dispatched)
  | queued {later xs earlier : List Seen} (hb : s.busyCid ≠ 0) (hr : s.running = false)
      (hseen : s.seen = later ++ (xs ++ earlier)) (hw : Whole xs s.request)
      (h : Dispatches earlier s.dispatched)

theorem Assembled.dispatches (h : Assembled s) : Dispatches s.seen s.dispatched := by
  cases h with
  | rest _ _ h => exact h
  | gathering _ hseen _ h =>
    rw [hseen]
    exact h.append _
  | queued _ _ hseen _ h =>
    rw [hseen]
    exact (h.append _).append _

/-- Neither the requests nor the histories change. -/
structure SameWork (s s' : State) : Prop where
  asm : s'.asm = s.asm
  busyCid : s'.busyCid = s.busyCid
  running : s'.running = s.running
  seen : s'.seen = s.seen
  dispatched : s'.dispatched = s.dispatched

theorem Framed.sameWork (h : Framed s s') : SameWork s s' :=
  ⟨h.asm, h.busyCid, h.running, h.seen, h.dispatched⟩

theorem Assembled.same (h : Assembled s) (hf : SameWork s s') : Assembled s' := by
  have hreq : s'.request = s.request := by rw [State.request, State.request, hf.asm, hf.busyCid]
  cases h with
  | rest hst hb h =>
    refine .rest (hf.asm ▸ hst) ?_ (by rw [hf.seen, hf.dispatched]; exact h)
    rw [hf.busyCid, hf.running]
    exact hb
  | gathering hst hseen hg h =>
    exact .gathering (hf.asm ▸ hst) (hf.seen.trans hseen) (hf.asm ▸ hg) (hf.dispatched ▸ h)
  | queued hb hr hseen hw h =>
    exact .queued (hf.busyCid ▸ hb) (hf.running.trans hr) (hf.seen.trans hseen) (hreq ▸ hw)
      (hf.dispatched ▸ h)

/-- After a request is over the framing is at rest. -/
theorem Assembled.finished (h : Finished s s') (hd : Dispatches s.seen s.dispatched) :
    Assembled s' :=
  .rest (by rw [h.asm]; rfl) (.inl h.busyCid) (by rw [h.seen, h.dispatched]; exact hd)

/-- The first packet of a request begins its group. -/
theorem gathering_first {cid : ℕ} {pkt : Packet} {w : Bool}
    (h : IsFirst cid (cmdOf pkt) (bcntOf pkt) pkt) (a : Assembly) :
    (initDataLen < bcntOf pkt →
      Gathering (startAssembly a cid pkt) [⟨pkt, w⟩] 0 ((pkt.drop 7).take initDataLen)) ∧
    (bcntOf pkt ≤ initDataLen → (startAssembly a cid pkt).reqReceived = bcntOf pkt ∧
      Whole [⟨pkt, w⟩] ⟨cid, cmdOf pkt, (startAssembly a cid pkt).reqBuf, bcntOf pkt⟩) := by
  have hg := Group.first (x := ⟨pkt, w⟩) h
  have hdata := hg.data_length
  have hlen := h.length
  simp only [reportLen] at hlen
  constructor
  · intro hbig
    have hmin : min (bcntOf pkt) initDataLen = initDataLen := by omega
    have hmore : ((pkt.drop 7).take initDataLen).length < bcntOf pkt := by
      rw [hdata]
      omega
    refine ⟨hg, rfl, ?_, hmore, ?_⟩
    · simp only [startAssembly, hmin]
    · simp only [startAssembly, hmin]
      exact patch_replicate _ _
  · intro hfits
    have hmin : min (bcntOf pkt) initDataLen = bcntOf pkt := by omega
    have hreceived : ((pkt.drop 7).take (bcntOf pkt)).length = bcntOf pkt := by
      simp only [initDataLen] at hfits
      rw [List.length_take, List.length_drop]
      omega
    refine ⟨by simp only [startAssembly, hmin, hreceived], 0, _, hg, by rw [hdata]; omega, ?_⟩
    simp only [startAssembly, hmin]
    rw [patch_replicate, hreceived, List.take_take, hmin]

theorem Gathering.append_eq {a : Assembly} {xs : List Seen} {k n : ℕ} {data pkt : Packet}
    (hg : Gathering a xs k data) (hlen : reportLen ≤ pkt.length)
    (hn : min (a.reqTotal - a.reqReceived) contDataLen = n) :
    (a.append pkt).reqReceived = data.length + n ∧
      (a.append pkt).reqBuf =
        data ++ (pkt.drop 5).take n ++ List.replicate (maxPayload - (data.length + n)) 0 := by
  simp only [reportLen] at hlen
  have hchunk : ((pkt.drop 5).take n).length = n := by
    rw [List.length_take, List.length_drop]
    simp only [contDataLen] at hn
    omega
  simp only [Assembly.append, hn, hchunk, hg.buf]
  constructor
  · rw [hg.received]
  · rw [hg.received, patch_append, hchunk, Nat.sub_sub]

/-- The next CONT packet joins the group. -/
theorem Gathering.next {a : Assembly} {xs : List Seen} {k : ℕ} {data pkt : Packet} {w : Bool}
    (hg : Gathering a xs k data) (h : IsCont a.curCid a.nextSeq pkt) :
    (contDataLen < a.reqTotal - a.reqReceived →
      Gathering (a.append pkt) (⟨pkt, w⟩ :: xs) (k + 1) (data ++ (pkt.drop 5).take contDataLen)) ∧
    (a.reqTotal - a.reqReceived ≤ contDataLen → (a.append pkt).reqReceived = a.reqTotal ∧
      Whole (⟨pkt, w⟩ :: xs) ⟨a.curCid, a.reqCmd, (a.append pkt).reqBuf, a.reqTotal⟩) := by
  have hcont := Group.cont (x := ⟨pkt, w⟩) hg.group hg.more hg.seq h
  have hdata := hg.group.data_length
  have hdata' := hcont.data_length
  have hfits := hg.group.len_le
  have hmore := hg.more
  have hrec := hg.received
  constructor
  · intro hbig
    have hmin : min (a.reqTotal - a.reqReceived) contDataLen = contDataLen := by omega
    obtain ⟨hr, hb⟩ := hg.append_eq h.length hmin
    have hlen : (data ++ (pkt.drop 5).take contDataLen).length = data.length + contDataLen := by
      rw [hdata', hdata, Nat.mul_succ, Nat.add_assoc]
    refine ⟨hcont, ?_, by rw [hr, hlen], ?_, by rw [hb, hlen]⟩
    · have hseq := hg.seq
      simp only [initDataLen, contDataLen, maxPayload] at hdata hfits
      simp only [Assembly.append, UInt8.toNat_add, UInt8.toNat_one]
      omega
    · change (data ++ (pkt.drop 5).take contDataLen).length < a.reqTotal
      omega
  · intro hlast
    have hmin : min (a.reqTotal - a.reqReceived) contDataLen =
        a.reqTotal - a.reqReceived := by omega
    obtain ⟨hr, hb⟩ := hg.append_eq h.length hmin
    have htotal : data.length + (a.reqTotal - a.reqReceived) = a.reqTotal := by omega
    refine ⟨hr.trans htotal, k + 1, _, hcont, ?_, ?_⟩
    · change a.reqTotal ≤ (data ++ (pkt.drop 5).take contDataLen).length
      rw [hdata']
      rw [hdata] at htotal
      simp only [contDataLen] at hlast htotal ⊢
      omega
    · change (a.append pkt).reqBuf = (data ++ (pkt.drop 5).take contDataLen).take a.reqTotal ++
        List.replicate (maxPayload - a.reqTotal) 0
      rw [hb, htotal, List.take_append, List.take_of_length_le (Nat.le_of_lt hmore), List.take_take,
        ← hrec, hmin]

/-! ### Steps and runs -/

theorem Assembled.first {cid : ℕ} {pkt : Packet} {w : Bool} {earlier : List Seen}
    (hseen : s.seen = ⟨pkt, w⟩ :: earlier) (hr : s.running = false)
    (h : IsFirst cid (cmdOf pkt) (bcntOf pkt) pkt) (hd : Dispatches earlier s.dispatched) :
    Assembled (s.accept cid (startAssembly s.asm cid pkt)) := by
  obtain ⟨hbig, hfits⟩ := gathering_first (w := w) h s.asm
  unfold State.accept
  split
  · next hfull =>
    have hle : bcntOf pkt ≤ initDataLen := by
      by_contra hn
      have hg := hbig (by omega)
      exact absurd hg.more (by rw [← hg.received]; omega)
    obtain ⟨hlen, hw⟩ := hfits hle
    refine @Assembled.queued _ [] [⟨pkt, w⟩] earlier h.channel_ne hr hseen ?_ hd
    rw [← hlen] at hw
    exact hw
  · next hfull =>
    have hlt : initDataLen < bcntOf pkt := by
      by_contra hn
      exact hfull (Nat.le_of_eq (hfits (by omega)).1.symm)
    obtain ⟨hg, hs, hrec, hm, hbuf⟩ := hbig hlt
    exact @Assembled.gathering _ [_] earlier _ _ rfl hseen ⟨hg, hs, hrec, hm, hbuf⟩ hd

theorem Assembled.next {pkt : Packet} {w : Bool} {xs earlier : List Seen} {k : ℕ} {data : Packet}
    (hseen : s.seen = ⟨pkt, w⟩ :: (xs ++ earlier)) (hr : s.running = false)
    (hc : s.asm.curCid ≠ 0) (hg : Gathering s.asm xs k data)
    (h : IsCont s.asm.curCid s.asm.nextSeq pkt) (hd : Dispatches earlier s.dispatched) :
    Assembled (s.accept s.asm.curCid (s.asm.append pkt)) := by
  obtain ⟨hbig, hlast⟩ := hg.next (w := w) h
  have htotal : (s.asm.append pkt).reqTotal = s.asm.reqTotal := rfl
  unfold State.accept
  split
  · next hfull =>
    have hle : s.asm.reqTotal - s.asm.reqReceived ≤ contDataLen := by
      by_contra hn
      have hg' := hbig (by omega)
      exact absurd hg'.more (by rw [← hg'.received]; omega)
    obtain ⟨hlen, hw⟩ := hlast hle
    refine @Assembled.queued _ [] (⟨pkt, w⟩ :: xs) earlier hc hr hseen ?_ hd
    rw [← hlen] at hw
    exact hw
  · next hfull =>
    have hlt : contDataLen < s.asm.reqTotal - s.asm.reqReceived := by
      by_contra hn
      exact hfull (Nat.le_of_eq (htotal.trans (hlast (by omega)).1.symm))
    obtain ⟨hg', hs, hrec, hm, hbuf⟩ := hbig hlt
    exact @Assembled.gathering _ (⟨pkt, w⟩ :: xs) earlier _ _ rfl hseen
      ⟨hg', hs, hrec, hm, hbuf⟩ hd

theorem see_seen (pkt : Packet) : (s.see pkt).seen = ⟨pkt, s.awaiting⟩ :: s.seen := rfl

/-- A packet that leaves the assembly alone joins the history. -/
theorem Assembled.see {pkt : Packet} (h : Assembled s)
    (hpass : s.asm.state = .assembling → Passed s.asm.curCid ⟨pkt, s.awaiting⟩) :
    Assembled (s.see pkt) := by
  cases h with
  | rest hst hb h => exact .rest hst hb (h.append [⟨pkt, s.awaiting⟩])
  | @gathering xs earlier k data hst hseen hg h =>
    refine @Assembled.gathering _ (⟨pkt, s.awaiting⟩ :: xs) earlier k data hst ?_
      ⟨.pass hg.group (hpass hst), hg.seq, hg.received, hg.more, hg.buf⟩ h
    rw [see_seen, hseen]
    rfl
  | @queued later xs earlier hb hr hseen hw h =>
    refine @Assembled.queued _ (⟨pkt, s.awaiting⟩ :: later) xs earlier hb hr ?_ hw h
    rw [see_seen, hseen]
    rfl

theorem Assembled.effect {pkt : Packet} (ht : Tidy s) (h : Assembled s)
    (hh : Effect pkt (s.see pkt) s') : Assembled s' := by
  have hidle (hb : s.busyCid = 0) : s.running = false := by
    by_contra hr
    exact (ht.running (by simpa using hr)).1 hb
  have hbusy (hb : s.busyCid ≠ 0) : Assembled (s.see pkt) := by
    refine h.see fun hst => ?_
    rw [ht.idle hb] at hst
    cases hst
  cases hh with
  | answered hf hpass => exact (h.see hpass).same hf.toFramed.sameWork
  | reset hb hf =>
    have hrest : Assembled (resetAssembly (s.see pkt)) :=
      .rest rfl (.inl hb) (h.dispatches.append [⟨pkt, s.awaiting⟩])
    exact hrest.same hf.toFramed.sameWork
  | resynced hb hsync hf =>
    exact (hbusy hb).same ⟨hf.asm, hf.busyCid, hf.running, hf.seen, hf.dispatched⟩
  | first hb hwait hfirst =>
    exact @Assembled.first (s.see pkt) _ pkt s.awaiting s.seen rfl (hidle hb) hfirst h.dispatches
  | next hb hst hcont =>
    cases h with
    | rest hst' => exact absurd hst (by rw [show (s.see pkt).asm.state = .idle from hst']; simp)
    | @gathering xs earlier k data _ hseen hg h =>
      refine @Assembled.next (s.see pkt) pkt s.awaiting xs earlier k data ?_ (hidle hb)
        (ht.cur hst).1 hg hcont h
      rw [see_seen, hseen]
    | queued hb' => exact absurd hb hb'

theorem Assembled.tasked (ht : Tidy s) (hr : s.running = false) (h : Assembled s)
    (hs : Tasked s s') : Assembled s' := by
  have hmore (hb : s.busyCid ≠ 0) : Dispatches s.seen (s.request :: s.dispatched) := by
    cases h with
    | rest _ hb' _ => simp [hb, hr] at hb'
    | gathering hst => exact absurd (handled_reset_busy ht hst) hb
    | queued _ _ hseen hw h =>
      rw [hseen]
      exact .more hw h
  cases hs with
  | waited _ => exact h.same (sendAnswers_framed s).sameWork
  | discarded _ _ _ => exact .finished (finishRequest_finished _) h.dispatches
  | answered hb _ _ _ => exact .finished (finishRequest_finished _) (hmore hb)
  | rejected hb _ _ =>
    have hf := (replied_queueError s.busyCid errInvalidCmd s.started).toFramed
    refine .finished (finishRequest_finished _) ?_
    rw [hf.seen, hf.dispatched]
    exact hmore hb
  | started hb _ _ _ => exact .rest (ht.idle hb) (.inr rfl) (hmore hb)

theorem Assembled.step (ht : Tidy s) (h : Assembled s) (a : Act) : Assembled (step s a) := by
  cases a with
  | endpoint usb => exact h.same ⟨rfl, rfl, rfl, rfl, rfl⟩
  | clock now => exact h.same ⟨rfl, rfl, rfl, rfl, rfl⟩
  | wait on => exact h.same ⟨rfl, rfl, rfl, rfl, rfl⟩
  | packet pkt => exact h.effect ht (handlePacket_effect (ht.see pkt) pkt)
  | task =>
    simp only [Ctaphid.step]
    split
    · exact h
    · next hr =>
      simp only [Bool.or_eq_true, not_or, Bool.not_eq_true] at hr
      exact h.tasked ht hr.1 (fidoHidTask_tasked ht)
  | progress =>
    simp only [Ctaphid.step]
    split
    · exact h
    · exact h.same ⟨rfl, rfl, rfl, rfl, rfl⟩
  | progressed =>
    simp only [Ctaphid.step]
    split
    · obtain ⟨s₁, hr, heq⟩ := progressRest_eq s
      rw [heq]
      exact h.same ⟨hr.asm, hr.busyCid, hr.running, hr.seen, hr.dispatched⟩
    · exact h
  | scratch buf =>
    simp only [Ctaphid.step]
    split
    · exact h.same ⟨rfl, rfl, rfl, rfl, rfl⟩
    · exact h
  | finish n =>
    simp only [Ctaphid.step]
    split
    · have hf := handleCborReturn_framed s.busyCid n s
      refine .finished (finishRequest_finished _) ?_
      rw [hf.seen, hf.dispatched]
      exact h.dispatches
    · exact h

/-- What `dispatch_request` does with a request, from its entry in the log. -/
def Request.serve (r : Request) (s : State) : Bool × State :=
  let req := r.buf.take r.len
  if r.cmd = cmdInit then (true, handleInit r.cid req s)
  else if r.cmd = cmdPing then (true, handlePing r.cid req s)
  else if r.cmd = cmdMsg then (true, handleMsg r.cid s)
  else if r.cmd = cmdCbor then (false, s)
  else (true, queueError r.cid errInvalidCmd s)

/-- The handler is given what the log says of its request: the buffer, cut to its length. -/
theorem dispatchRequest_logged (cid : ℕ) (s : State) :
    ∃ r, (noteDispatch cid s).dispatched = r :: s.dispatched ∧
      dispatchRequest cid s = r.serve (noteDispatch cid s) := ⟨_, rfl, rfl⟩

/-- In every run, each request given to its handler is one group of packets of
its channel, whole and cut to its length, and the groups follow one another. -/
theorem requests_intact (acts : List Act) :
    Dispatches (system.run acts).seen (system.run acts).dispatched := by
  have h : Tidy (system.run acts) ∧ Assembled (system.run acts) :=
    Runs.System.run_keeps (I := fun s => Tidy s ∧ Assembled s)
      ⟨tidy_fidoHidInit, .rest rfl (.inl rfl) (.none _)⟩
      (fun _ a h => ⟨h.1.step a, h.2.step h.1 a⟩) acts
  exact h.2.dispatches

end Nixtropic.Ctaphid
