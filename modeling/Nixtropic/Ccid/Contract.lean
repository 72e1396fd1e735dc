import Nixtropic.Ccid.ReaderRuns

/-!
What the two sides of the reader see.

The host gets one message for each of its own, which it can take apart again, with its
own sequence number. The card gets the commands of the messages that were begun, each
once and in their order, so that the card in the reader is a card of its own.
-/

namespace Nixtropic.Ccid

open Crash Pgp Runs

/-! ### Answers as the host parses them -/

/-- A message on bulk-IN. -/
structure Reply where
  kind : UInt8
  seq : UInt8
  status : UInt8
  error : UInt8
  param : UInt8
  data : Bytes
  deriving DecidableEq, Repr

def Reply.encode (r : Reply) : Bytes :=
  fillBulkInHdr r.kind r.data.length r.seq r.status r.error r.param ++ r.data

/-- The declared length is that of the rest, and the slot is 0. -/
def parseReply (ans : Bytes) : Option Reply :=
  if hdrLen ≤ ans.length ∧ le32Load (ans.drop 1) = ans.length - hdrLen ∧ ans.getD 5 0 = 0 then
    some ⟨ans.getD 0 0, ans.getD 6 0, ans.getD 7 0, ans.getD 8 0, ans.getD 9 0, ans.drop hdrLen⟩
  else none

theorem fillBulkInHdr_length (kind : UInt8) (len : ℕ) (seq status error param : UInt8) :
    (fillBulkInHdr kind len seq status error param).length = hdrLen := rfl

theorem Reply.encode_length (r : Reply) : r.encode.length = hdrLen + r.data.length := by
  rw [Reply.encode, List.length_append, fillBulkInHdr_length]

theorem parseReply_encode {r : Reply} (h : r.data.length < 2 ^ 32) :
    parseReply r.encode = some r := by
  have hlen : le32Load (r.encode.drop 1) = r.data.length :=
    le32Load_store h ([0, r.seq, r.status, r.error, r.param] ++ r.data)
  have hcond : hdrLen ≤ r.encode.length ∧ le32Load (r.encode.drop 1) = r.encode.length - hdrLen ∧
      r.encode.getD 5 0 = 0 := by
    refine ⟨?_, ?_, rfl⟩
    · rw [r.encode_length]
      exact Nat.le_add_right _ _
    · rw [hlen, r.encode_length, Nat.add_sub_cancel_left]
  rw [parseReply, if_pos hcond]
  rfl

/-- What a command of the card makes of its answer. -/
def xfrReply (seq : UInt8) (resp : Option Bytes) : Reply :=
  match resp with
  | some r =>
      if 2 ≤ r.length ∧ r.length ≤ maxMsgLen - hdrLen then
        ⟨dataBlock, seq, iccActive ||| cmdSuccess, errorNone, 0, r⟩
      else ⟨slotStatus, seq, iccActive ||| cmdFailed, errorHwError, 0, []⟩
  | none => ⟨slotStatus, seq, iccActive ||| cmdFailed, errorHwError, 0, []⟩

theorem xfrAnswer_eq (seq : UInt8) (resp : Option Bytes) :
    xfrAnswer seq resp = (xfrReply seq resp).encode := by
  cases resp with
  | none => rfl
  | some r =>
      rw [xfrAnswer, xfrReply]
      by_cases hshort : r.length < 2
      · rw [if_pos hshort, if_neg (by omega)]
        rfl
      · by_cases hlong : maxMsgLen < hdrLen + r.length
        · rw [if_neg hshort, if_pos hlong, if_neg (by omega)]
          rfl
        · have hfits : 2 ≤ r.length ∧ r.length ≤ maxMsgLen - hdrLen := by
            have hmax : hdrLen ≤ maxMsgLen := by decide
            omega
          rw [if_neg hshort, if_neg hlong, if_pos hfits]
          rfl

/-! ### Messages as the card sees them -/

/-- The command in a message: its declared bytes, all of which came. -/
def commandOf (msg : Bytes) : Option Bytes :=
  if hdrLen ≤ msg.length ∧ le32Load (msg.drop 1) ≤ msg.length - hdrLen ∧ msg.getD 0 0 =
    xfrBlock then
    some ((msg.drop hdrLen).take (le32Load (msg.drop 1)))
  else none

/-- The card is reset by the message. -/
def Resets (msg : Bytes) : Prop :=
  hdrLen ≤ msg.length ∧ le32Load (msg.drop 1) ≤ msg.length - hdrLen ∧
    (msg.getD 0 0 = iccPowerOn ∨ msg.getD 0 0 = iccPowerOff)

instance (msg : Bytes) : Decidable (Resets msg) := inferInstanceAs (Decidable (_ ∧ _))

/-- The answer to a message without a command. -/
def statusReply (msg : Bytes) : Reply :=
  let seq := msg.getD 6 0
  if msg.length - hdrLen < le32Load (msg.drop 1) then
    ⟨slotStatus, seq, iccActive ||| cmdFailed, errorHwError, 0, []⟩
  else if msg.getD 0 0 = iccPowerOn then
    ⟨dataBlock, seq, iccActive ||| cmdSuccess, errorNone, 0, atr⟩
  else if msg.getD 0 0 = iccPowerOff then
    ⟨slotStatus, seq, iccPresentInact ||| cmdSuccess, errorNone, 0, []⟩
  else if msg.getD 0 0 = getSlotStatus then
    ⟨slotStatus, seq, iccActive ||| cmdSuccess, errorNone, 0, []⟩
  else if msg.getD 0 0 = getParameters ∨ msg.getD 0 0 = resetParameters ∨
      msg.getD 0 0 = setParameters then
    ⟨parameters, seq, iccActive ||| cmdSuccess, errorNone, 1, t1Params⟩
  else ⟨slotStatus, seq, iccActive ||| cmdFailed, errorCmdNotSupported, 0, []⟩

section Process

variable {F : PgpPrims} {msg : Bytes} {u : PgpRam} {b : Board Note} {fs : List BoardFate}

theorem run_then_pure {β γ : Type} (m : PgpM β) (f : β → γ) :
    run (pgpBoard F) ((m >>= fun x => pure (f x)).run u) fs b =
      (run (pgpBoard F) (m.run u) fs b).map fun x => (f x.1, x.2) := by
  rw [StateT.run_bind]
  exact run_bind_pure (pgpBoard F) (m.run u) (fun x => (f x.1, x.2)) fs b

/-- A message with a command runs the command. -/
theorem run_command {apdu : Bytes} (h : commandOf msg = some apdu) :
    run (pgpBoard F) ((processMessage F msg).run u) fs b =
      (run (pgpBoard F) ((cardApdu F apdu apduResp).run u) fs b).map fun x =>
        ((xfrReply (msg.getD 6 0) x.1).encode, x.2) := by
  rw [commandOf] at h
  split at h
  · rename_i hmsg
    obtain ⟨hhdr, hcame, htype⟩ := hmsg
    cases h
    have heq : processMessage F msg = respXfrBlock F (msg.getD 6 0)
        ((msg.drop hdrLen).take (le32Load (msg.drop 1))) := by
      rw [processMessage, if_neg (by omega)]
      dsimp only
      rw [if_neg (by omega), htype, if_neg (by decide), if_neg (by decide), if_neg (by decide),
        if_pos rfl]
    rw [heq, respXfrBlock, run_then_pure]
    simp only [xfrAnswer_eq]
  · cases h

/-- Another message does no more than reset the card. -/
theorem run_status (h : commandOf msg = none) (hhdr : hdrLen ≤ msg.length) :
    run (pgpBoard F) ((processMessage F msg).run u) fs b =
      if Resets msg then .done ((statusReply msg).encode, u.dropAuth .all) (b.jot .cardReset)
      else .done ((statusReply msg).encode, u) b := by
  rw [processMessage, if_neg (by omega), statusReply]
  dsimp only
  by_cases hcame : msg.length - hdrLen < le32Load (msg.drop 1)
  · have hno : ¬Resets msg := fun hr => by
      have := hr.2.1
      omega
    rw [if_pos hcame, if_pos hcame, if_neg hno]
    rfl
  · rw [if_neg hcame, if_neg hcame]
    have hall : le32Load (msg.drop 1) ≤ msg.length - hdrLen := by omega
    by_cases hon : msg.getD 0 0 = iccPowerOn
    · rw [if_pos hon, if_pos hon, if_pos ⟨hhdr, hall, .inl hon⟩]
      rfl
    · rw [if_neg hon, if_neg hon]
      by_cases hoff : msg.getD 0 0 = iccPowerOff
      · rw [if_pos hoff, if_pos hoff, if_pos ⟨hhdr, hall, .inr hoff⟩]
        rfl
      · have hno : ¬Resets msg := fun hr => hr.2.2.elim hon hoff
        have hx : msg.getD 0 0 ≠ xfrBlock := fun hx => by
          rw [commandOf, if_pos ⟨hhdr, hall, hx⟩] at h
          cases h
        rw [if_neg hoff, if_neg hoff, if_neg hno, if_neg hx]
        split
        · rfl
        · split <;> rfl

theorem run_headless (h : msg.length < hdrLen) :
    run (pgpBoard F) ((processMessage F msg).run u) fs b = .done ([], u) b := by
  rw [processMessage, if_pos h]
  rfl

theorem xfrReply_seq (seq : UInt8) (resp : Option Bytes) : (xfrReply seq resp).seq = seq := by
  cases resp with
  | none => rfl
  | some r =>
      rw [xfrReply]
      split <;> rfl

theorem xfrReply_fits (seq : UInt8) (resp : Option Bytes) :
    (xfrReply seq resp).data.length ≤ maxMsgLen - hdrLen := by
  cases resp with
  | none => exact Nat.zero_le _
  | some r =>
      rw [xfrReply]
      split
      · rename_i hfits
        exact hfits.2
      · exact Nat.zero_le _

theorem statusReply_seq (msg : Bytes) : (statusReply msg).seq = msg.getD 6 0 := by
  rw [statusReply]
  split_ifs <;> rfl

theorem statusReply_fits (msg : Bytes) : (statusReply msg).data.length ≤ maxMsgLen - hdrLen := by
  have hatr : atr.length ≤ maxMsgLen - hdrLen := by decide
  have hpar : t1Params.length ≤ maxMsgLen - hdrLen := by decide
  rw [statusReply]
  split_ifs <;> first | exact Nat.zero_le _ | assumption

/-- How the host is answered when the message finds the card `c`: a command with what the
card itself makes of it, from the state it is in and with the fates its calls meet. -/
def Replies (F : PgpPrims) (c : Card) (fs : List BoardFate) (msg : Bytes) (r : Reply) : Prop :=
  match commandOf msg with
  | some apdu => ∃ u resp u' b', c.ram = some u ∧
      run (pgpBoard F) ((cardApdu F apdu apduResp).run u) fs c.board = .done (resp, u') b' ∧
      r = xfrReply (msg.getD 6 0) resp
  | none => r = statusReply msg

theorem Replies.seq {c : Card} {r : Reply} (h : Replies F c fs msg r) : r.seq = msg.getD 6 0 := by
  rw [Replies] at h
  split at h
  · obtain ⟨u, resp, u', b', -, -, rfl⟩ := h
    exact xfrReply_seq _ resp
  · rw [h, statusReply_seq]

theorem Replies.fits {c : Card} {r : Reply} (h : Replies F c fs msg r) :
    r.data.length ≤ maxMsgLen - hdrLen := by
  rw [Replies] at h
  split at h
  · obtain ⟨u, resp, u', b', -, -, rfl⟩ := h
    exact xfrReply_fits _ resp
  · rw [h]
    exact statusReply_fits msg

/-- What a command leaves to be sent is one reply to its message. -/
theorem result_replies {d : Reader} {c : Card} {ans : Bytes} (h : d.result F fs = (c, some ans))
    (hne : ans ≠ []) :
    hdrLen ≤ d.rxBuf.length ∧ ∃ r, Replies F d.card fs d.rxBuf r ∧ ans = r.encode := by
  rw [Reader.result] at h
  split at h
  · cases h
  · rename_i u hu
    by_cases hhdr : d.rxBuf.length < hdrLen
    · rw [run_headless hhdr] at h
      cases h
      exact absurd rfl hne
    · refine ⟨Nat.le_of_not_lt hhdr, ?_⟩
      cases hc : commandOf d.rxBuf with
      | none =>
          refine ⟨statusReply d.rxBuf, by rw [Replies, hc], ?_⟩
          rw [run_status hc (Nat.le_of_not_lt hhdr)] at h
          split_ifs at h <;> cases h <;> rfl
      | some apdu =>
          rw [run_command hc] at h
          cases hcard : run (pgpBoard F) ((cardApdu F apdu apduResp).run u) fs d.card.board with
          | cut b₁ =>
              rw [hcard] at h
              cases h
          | done x b₁ =>
              rw [hcard] at h
              cases h
              refine ⟨xfrReply (d.rxBuf.getD 6 0) x.1, ?_, rfl⟩
              rw [Replies, hc]
              exact ⟨u, x.1, x.2, b₁, hu, hcard, rfl⟩

/-- The host takes an answer apart. -/
theorem Replies.parses {c : Card} {r : Reply} (h : Replies F c fs msg r) :
    parseReply r.encode = some r ∧ r.encode.length ≤ maxMsgLen := by
  have hfits := h.fits
  have hmax : maxMsgLen < 2 ^ 32 := by decide
  have hhdr : hdrLen ≤ maxMsgLen := by decide
  refine ⟨parseReply_encode (by omega), ?_⟩
  rw [r.encode_length]
  omega

end Process

/-! ### Which task an answer comes from -/

def Event.isPosted : Event → Bool
  | .posted _ => true
  | _ => false

/-- Nothing is answered between these. -/
def Mute (d d' : Reader) : Prop :=
  ∃ fresh, d'.log = fresh ++ d.log ∧ ∀ x ∈ fresh, x.isPosted = false

/-- The fates of the calls that the command of an action makes. -/
def Action.fates : Action → List BoardFate
  | .task _ _ _ fs _ _ => fs
  | _ => []

section Answered

variable {F : PgpPrims} {d d' d'' : Reader}

theorem mute_of_log (h : d'.log = d.log) : Mute d d' := ⟨[], h, fun x hx => by cases hx⟩

theorem mute_cons {e : Event} (he : e.isPosted = false) (h : d'.log = e :: d.log) : Mute d d' :=
  ⟨[e], h, fun x hx => by rwa [List.mem_singleton.mp hx]⟩

theorem Mute.trans (h : Mute d d') (h' : Mute d' d'') : Mute d d'' := by
  obtain ⟨fresh, hlog, hfresh⟩ := h
  obtain ⟨fresh', hlog', hfresh'⟩ := h'
  exact ⟨fresh' ++ fresh, by rw [hlog', hlog, List.append_assoc],
    List.forall_mem_append.mpr ⟨hfresh', hfresh⟩⟩

theorem armOut_log (d : Reader) : d.armOut.log = d.log := by
  rw [Reader.armOut]
  split <;> rfl

theorem mute_bus (e : Bus) : Mute d (d.bus e) := by
  cases e with
  | outDone data =>
      rw [Reader.bus]
      split
      · rw [Reader.outDone]
        dsimp only
        split
        · exact mute_cons rfl rfl
        · exact mute_of_log (armOut_log _)
      · exact mute_of_log rfl
  | inDone =>
      rw [Reader.bus]
      split
      · exact mute_cons rfl rfl
      · exact mute_of_log rfl
  | busReset => exact mute_cons rfl rfl
  | openItf ok =>
      rw [Reader.bus]
      split
      · exact mute_of_log rfl
      · cases ok with
        | false => exact mute_of_log rfl
        | true =>
            rw [Reader.ccidOpen]
            dsimp only
            rw [if_pos rfl]
            split
            · exact mute_of_log rfl
            · exact mute_of_log (armOut_log _)

theorem mute_nested (nested : List Bus) : Mute d (nested.foldl Reader.bus d) := by
  induction nested generalizing d with
  | nil => exact mute_of_log rfl
  | cons e rest ih => exact (mute_bus e).trans ih

/-- An answer behind which nothing was answered is an older one. -/
theorem Mute.older {post past : List Event} {ans : Bytes} (h : Mute d d')
    (hlog : d'.log = post ++ .posted ans :: past) :
      ∃ post', d.log = post' ++ .posted ans :: past := by
  obtain ⟨fresh, hfresh, hmute⟩ := h
  rw [hfresh] at hlog
  clear hfresh
  induction fresh generalizing post with
  | nil => exact ⟨post, hlog⟩
  | cons x fresh ih =>
      obtain ⟨hx, hrest⟩ := List.forall_mem_cons.mp hmute
      cases post with
      | nil =>
          cases hlog
          cases hx
      | cons y post =>
          rw [List.cons_append, List.cons_append, List.cons.injEq] at hlog
          exact ih hlog.2 hrest

theorem finish_log (epoch : ℕ) (ans : Bytes) (taken : Bool) :
    (d.finish epoch ans taken).log = d.log ∨
      epoch = d.epoch ∧ ans ≠ [] ∧ (d.finish epoch ans taken).log = .posted ans :: d.log := by
  by_cases hepoch : epoch = d.epoch
  · rw [Reader.finish, if_neg (not_not.mpr hepoch)]
    dsimp only
    split
    · exact .inl (armOut_log _)
    · rename_i hsent
      exact .inr ⟨hepoch, fun hnil => hsent (.inl hnil), armOut_log _⟩
  · rw [Reader.finish, if_pos hepoch]
    dsimp only
    split
    · exact .inl (armOut_log _)
    · exact .inl rfl

/-- An answer of one action is what the command of the message in the buffer leaves. -/
theorem answered_step {R : Bytes → Bytes → Prop} (h : Idle R d) {a : Action} (ha : a.Few)
    {post past : List Event} {ans : Bytes}
    (hlog : (d.step F a).log = post ++ .posted ans :: past) :
    (∃ post', d.log = post' ++ .posted ans :: past) ∨
      (∃ c, d.result F a.fates = (c, some ans)) ∧ ans ≠ [] ∧ past = .began d.rxBuf :: d.log := by
  cases a with
  | powerUp =>
      have hmute : Mute d (d.step F .powerUp) := mute_cons rfl rfl
      exact .inl (hmute.older hlog)
  | bus e =>
      rw [Reader.step] at hlog
      split at hlog
      · exact .inl ((mute_bus e).older hlog)
      · exact .inl ⟨post, hlog⟩
  | task awaiting taken nested fs left other =>
      rw [Reader.step] at hlog
      split at hlog
      · rename_i hready
        have hopen := h.opened_of_ready hready.2
        have hbusy := (h.begin hready.2).nested (fun _ => hopen) nested
        have hmute : Mute d (nested.foldl Reader.bus d.begin) :=
          (mute_cons rfl rfl : Mute d d.begin).trans (mute_nested nested)
        rw [Nat.zero_add] at hbusy
        dsimp only at hlog
        split at hlog
        · rename_i hreset
          have hne : d.epoch ≠ (nested.foldl Reader.bus d.begin).epoch := by
            have hcount := hasReset_iff.mp hreset
            have hlt := h.epoch
            have hfew : nested.count .busReset < 2 ^ 32 := ha
            rw [hbusy.epoch]
            omega
          rcases finish_log (d := { nested.foldl Reader.bus d.begin with card := left })
            d.epoch other
            taken with hsame | ⟨hepoch, -, -⟩
          · have hm : Mute _ { nested.foldl Reader.bus d.begin with card := left } := hmute
            exact .inl (hm.older (hsame.symm.trans hlog))
          · exact absurd hepoch hne
        · rename_i hquiet
          have hzero : nested.count .busReset = 0 := by
            by_contra hne
            exact hquiet (hasReset_iff.mpr hne)
          rw [hzero] at hbusy
          cases hr : d.result F fs with
          | mk c left =>
              rw [hr] at hlog
              cases left with
              | none => exact .inl (hmute.older hlog)
              | some ans' =>
                  rcases finish_log (d := { nested.foldl Reader.bus d.begin with card := c })
                    d.epoch
                    ans' taken with hsame | ⟨-, hne, hsent⟩
                  · have hm : Mute _ { nested.foldl Reader.bus d.begin with card := c } := hmute
                    exact .inl (hm.older (hsame.symm.trans hlog))
                  · have hsplit := hsent.symm.trans hlog
                    have hbegan := (hbusy.steady rfl).2
                    cases post with
                    | nil =>
                        rw [List.nil_append, List.cons.injEq, Event.posted.injEq] at hsplit
                        obtain ⟨rfl, hpast⟩ := hsplit
                        exact .inr ⟨⟨c, hr⟩, hne, hpast.symm.trans hbegan⟩
                    | cons y post =>
                        rw [List.cons_append, List.cons.injEq] at hsplit
                        exact .inl (hmute.older hsplit.2)
      · exact .inl ⟨post, hlog⟩

end Answered

/-! ### What the host gets -/

section Host

variable {F : PgpPrims} {b : Board Note} {acts : List Action}

/-- Every answer of a run was made by one of its tasks, of the message that task found. -/
theorem answered_run (hfew : ∀ a ∈ acts, a.Few) {post past : List Event} {ans : Bytes}
    (h : ((reader F b).run acts).log = post ++ .posted ans :: past) :
    ∃ pre a, pre ++ [a] <+: acts ∧ (∃ c, ((reader F b).run pre).result F a.fates = (c, some ans)) ∧
      ans ≠ [] ∧ past = .began ((reader F b).run pre).rxBuf :: ((reader F b).run pre).log := by
  induction acts using List.reverseRecOn generalizing post with
  | nil =>
      have hnil : [] = post ++ .posted ans :: past := h
      simp at hnil
  | append_singleton pre a ih =>
      obtain ⟨hpre, ha⟩ := List.forall_mem_append.mp hfew
      rw [System.run_concat] at h
      have hidle := idle_run (F := F) (b := b) hpre
      rcases answered_step hidle (ha a List.mem_cons_self) h with ⟨post', hold⟩ | ⟨hres, hne, hpast⟩
      · obtain ⟨p, x, hp, hrest⟩ := ih hpre hold
        exact ⟨p, x, hp.trans (List.prefix_append pre [a]), hrest⟩
      · exact ⟨pre, a, List.prefix_rfl, hres, hne, hpast⟩

/-- Every answer that is sent in any run is one message that the host can take apart,
not longer than a message may be, and has the number of the message before it. A command
in that message was answered by the card in the state it then was in. -/
theorem answers_parse (hfew : ∀ a ∈ acts, a.Few) {post past : List Event} {ans : Bytes}
    (h : ((reader F b).run acts).log = post ++ .posted ans :: past) :
    ∃ pre a r, pre ++ [a] <+: acts ∧
      let d := (reader F b).run pre
      past = .began d.rxBuf :: d.log ∧ hdrLen ≤ d.rxBuf.length ∧ parseReply ans = some r ∧
        Replies F d.card a.fates d.rxBuf r ∧ r.seq = d.rxBuf.getD 6 0 ∧ ans.length ≤ maxMsgLen := by
  obtain ⟨pre, a, hp, ⟨c, hres⟩, hne, hpast⟩ := answered_run hfew h
  obtain ⟨hhdr, r, hr, rfl⟩ := result_replies hres hne
  exact ⟨pre, a, r, hp, hpast, hhdr, hr.parses.1, hr, hr.seq, hr.parses.2⟩

def selectApplet : Bytes := [0x00, 0xA4, 0x04, 0x00, 0x06, 0xD2, 0x76, 0x00, 0x01, 0x24, 0x01]

/-- GET DATA of the signature counter. -/
def readCounter : Bytes := [0x00, 0xCA, 0x00, 0x7A, 0x00]

/-- The host selects the applet, reads the answer, and then the signature counter. -/
def askCard : List Action :=
  [.powerUp, .bus (.openItf true)] ++ exchange 7 selectApplet ++
    [.bus (.outDone (xfrMessage 8 readCounter)), quietTask]

theorem few_askCard : ∀ a ∈ askCard, a.Few := by
  have hopen : ∀ a ∈ [Action.powerUp, .bus (.openItf true)], a.Few := by
    simp only [List.forall_mem_cons]
    exact ⟨trivial, trivial, fun a ha => by cases ha⟩
  have hread : ∀ a ∈ [Action.bus (.outDone (xfrMessage 8 readCounter)), quietTask], a.Few := by
    simp only [List.forall_mem_cons]
    exact ⟨trivial, few_quietTask, fun a ha => by cases ha⟩
  rw [askCard, List.forall_mem_append, List.forall_mem_append]
  exact ⟨⟨hopen, few_exchange⟩, hread⟩

/-- The counter as the card has it, and its status 9000. -/
def counterAnswer : Bytes :=
  [dataBlock, 9, 0, 0, 0, 0, 8, 0, 0, 0, 0x7A, 0x05, 0x93, 0x03, 0, 0, 0, 0x90, 0x00]

theorem answers_parse_askCard :
    ∃ pre a r, pre ++ [a] <+: askCard ∧
      let d := (reader mixPgp blankBoard).run pre
      ((reader mixPgp blankBoard).run askCard).log.tail = .began d.rxBuf :: d.log ∧
        hdrLen ≤ d.rxBuf.length ∧ parseReply counterAnswer = some r ∧
        Replies mixPgp d.card a.fates d.rxBuf r ∧ r.seq = d.rxBuf.getD 6 0 ∧
        counterAnswer.length ≤ maxMsgLen := by
  have hlog : ((reader mixPgp blankBoard).run askCard).log =
      [] ++ .posted counterAnswer :: ((reader mixPgp blankBoard).run askCard).log.tail := by
    decide +kernel
  exact answers_parse few_askCard hlog

end Host

/-! ### What the card gets -/

/-- No bus reset comes inside a command. -/
def Action.Calm : Action → Prop
  | .task _ _ nested _ _ _ => hasReset nested = false
  | _ => True

/-- The calls of the chip meet fates in `A`. -/
def Action.Within (A : BoardFate → Prop) : Action → Prop
  | .task _ _ _ fs _ _ => ∀ f ∈ fs, A f
  | _ => True

/-- What a message does with the card. -/
def drive (msg : Bytes) (fs : List BoardFate) : List Pgp.Action :=
  match commandOf msg with
  | some apdu => [.apdu apdu apduResp fs]
  | none => if Resets msg then [.cardReset fs] else []

/-- What an action of the reader does with the card. -/
def Reader.drives (d : Reader) : Action → List Pgp.Action
  | .powerUp => [.powerUp]
  | .bus e => if d.card.ram.isSome ∧ e = .busReset then [.cardReset []] else []
  | .task awaiting _ _ fs _ _ =>
      if d.card.ram.isSome ∧ d.Ready awaiting then drive d.rxBuf fs else []

/-- The command of an event. -/
def Event.command : Event → Option Bytes
  | .began msg => commandOf msg
  | _ => none

/-- The command of an action of the card. -/
def inputOf : Pgp.Action → Option Bytes
  | .apdu inp _ _ => some inp
  | _ => none

/-- The command of an action of the card, and the fates its calls meet. -/
def commandRun : Pgp.Action → Option (Bytes × List BoardFate)
  | .apdu inp _ fs => some (inp, fs)
  | _ => none

/-- The command that an action of the reader begins, and the fates its calls meet. -/
def Reader.begins (d : Reader) : Action → Option (Bytes × List BoardFate)
  | .task awaiting _ _ fs _ _ =>
      if d.card.ram.isSome ∧ d.Ready awaiting then (commandOf d.rxBuf).map (·, fs) else none
  | _ => none

/-- The commands in the log, the oldest first. -/
def commands (log : List Event) : List Bytes := log.reverse.filterMap Event.command

section Card

variable {F : PgpPrims} {d : Reader}

theorem commands_cons (e : Event) (log : List Event) :
    commands (e :: log) = commands log ++ e.command.toList := by
  rw [commands, List.reverse_cons, List.filterMap_append, ← commands]
  cases he : e.command <;> simp [he]

/-- The card sees nothing of what is between these. -/
structure Unseen (d d' : Reader) : Prop where
  card : d'.card = d.card
  epoch : d'.epoch = d.epoch
  got : commands d'.log = commands d.log

theorem unseen_refl (d : Reader) : Unseen d d := ⟨rfl, rfl, rfl⟩

theorem Unseen.armOut {d d' : Reader} (h : Unseen d d') : Unseen d d'.armOut := by
  rw [Reader.armOut]
  split
  · exact ⟨h.card, h.epoch, h.got⟩
  · exact h

theorem Unseen.note {d d' : Reader} (h : Unseen d d') {e : Event} (he : e.command = none) :
    Unseen d (d'.note e) := by
  refine ⟨h.card, h.epoch, ?_⟩
  show commands (e :: d'.log) = commands d.log
  rw [commands_cons, he, h.got]
  exact List.append_nil _

theorem Unseen.trans {d₁ d₂ d₃ : Reader} (h : Unseen d₁ d₂) (h' : Unseen d₂ d₃) : Unseen d₁ d₃ :=
  ⟨h'.card.trans h.card, h'.epoch.trans h.epoch, h'.got.trans h.got⟩

/-- Nothing of the callbacks other than a reset. -/
theorem unseen_bus {e : Bus} (he : e ≠ .busReset) : Unseen d (d.bus e) := by
  cases e with
  | outDone data =>
      rw [Reader.bus]
      split
      · rw [Reader.outDone]
        dsimp only
        split
        · apply Unseen.note
          · exact ⟨rfl, rfl, rfl⟩
          · rfl
        · exact Unseen.armOut ⟨rfl, rfl, rfl⟩
      · exact unseen_refl d
  | inDone =>
      rw [Reader.bus]
      split
      · apply Unseen.note
        · exact ⟨rfl, rfl, rfl⟩
        · rfl
      · exact unseen_refl d
  | busReset => exact absurd rfl he
  | openItf ok =>
      rw [Reader.bus]
      split
      · exact unseen_refl d
      · rw [Reader.ccidOpen]
        dsimp only
        split
        · split
          · exact ⟨rfl, rfl, rfl⟩
          · exact Unseen.armOut ⟨rfl, rfl, rfl⟩
        · exact ⟨rfl, rfl, rfl⟩

theorem unseen_nested {nested : List Bus} (h : hasReset nested = false) :
    Unseen d (nested.foldl Reader.bus d) := by
  induction nested generalizing d with
  | nil => exact unseen_refl d
  | cons e rest ih =>
      rw [hasReset, List.contains_cons, Bool.or_eq_false_iff] at h
      have he : e ≠ .busReset := fun he => by simp [he] at h
      exact (unseen_bus he).trans (ih h.2)

theorem unseen_finish {epoch : ℕ} (ans : Bytes) (taken : Bool) (h : epoch = d.epoch) :
    Unseen d (d.finish epoch ans taken) := by
  rw [Reader.finish, if_neg (not_not.mpr h)]
  dsimp only
  split
  · exact Unseen.armOut ⟨rfl, rfl, rfl⟩
  · apply Unseen.armOut
    apply Unseen.note
    · exact ⟨rfl, rfl, rfl⟩
    · rfl

/-- The card behind a message, and whether there is an answer. -/
theorem result_card {fs : List BoardFate} (hon : d.card.ram.isSome = true) :
    (d.result F fs).1 = (drive d.rxBuf fs).foldl (Card.step F) d.card := by
  obtain ⟨u, hu⟩ := Option.isSome_iff_exists.mp hon
  have hdone : ∀ c : Card, c = d.card → c = ⟨some u, d.card.board⟩ := by
    rintro c rfl
    cases hc : d.card with
    | mk ram b =>
        rw [hc] at hu
        rw [show ram = some u from hu]
  rw [Reader.result, hu, drive]
  dsimp only
  cases hc : commandOf d.rxBuf with
  | some apdu =>
      rw [run_command hc]
      show _ = d.card.step F (.apdu apdu apduResp fs)
      rw [Card.step, hu]
      dsimp only
      cases run (pgpBoard F) ((cardApdu F apdu apduResp).run u) fs d.card.board <;> rfl
  | none =>
      by_cases hhdr : d.rxBuf.length < hdrLen
      · have hno : ¬Resets d.rxBuf := fun hr => Nat.not_lt.mpr hr.1 hhdr
        rw [run_headless hhdr, if_neg hno]
        exact (hdone d.card rfl).symm
      · rw [run_status hc (Nat.le_of_not_lt hhdr)]
        by_cases hr : Resets d.rxBuf
        · rw [if_pos hr, if_pos hr]
          show _ = d.card.step F (.cardReset fs)
          rw [Card.step, hu]
          rfl
        · rw [if_neg hr, if_neg hr]
          exact (hdone d.card rfl).symm

/-- One action of the reader, as the card sees it. -/
theorem step_card {a : Action} (ha : a.Calm) :
    (d.step F a).card = (d.drives a).foldl (Card.step F) d.card := by
  cases a with
  | powerUp => rfl
  | bus e =>
      rw [Reader.step, Reader.drives]
      by_cases hon : d.card.ram.isSome = true
      · rw [if_pos hon]
        by_cases he : e = .busReset
        · subst he
          rw [if_pos ⟨hon, rfl⟩]
          obtain ⟨u, hu⟩ := Option.isSome_iff_exists.mp hon
          show (⟨d.card.ram.map (·.dropAuth .all), d.card.board.jot .cardReset⟩ : Card) =
            d.card.step F (.cardReset [])
          rw [Card.step, hu]
          rfl
        · rw [if_neg fun h => he h.2]
          exact (unseen_bus he).card
      · rw [if_neg hon, if_neg fun h => hon h.1]
        rfl
  | task awaiting taken nested fs left ans =>
      rw [Reader.step, Reader.drives]
      split
      · rename_i hready
        have hcalm : hasReset nested = false := ha
        dsimp only
        rw [if_neg (Bool.eq_false_iff.mp hcalm), ← result_card hready.1]
        have hepoch : d.epoch = (nested.foldl Reader.bus d.begin).epoch :=
          (unseen_nested (d := d.begin) hcalm).epoch.symm
        cases hr : d.result F fs with
        | mk c left =>
            cases left with
            | some ans =>
                exact (unseen_finish (d := { nested.foldl Reader.bus d.begin with card := c })
                  ans taken
                  hepoch).card
            | none => rfl
      · rfl

theorem inputOf_drive (msg : Bytes) (fs : List BoardFate) :
    (drive msg fs).filterMap inputOf = (commandOf msg).toList := by
  rw [drive]
  split
  · rename_i hc
    rw [hc]
    rfl
  · rename_i hc
    rw [hc]
    split <;> rfl

/-- The command runs with the fates of the task. -/
theorem commandRun_drives (a : Action) :
    (d.drives a).filterMap commandRun = (d.begins a).toList := by
  cases a with
  | powerUp => rfl
  | bus e =>
      rw [Reader.drives]
      split <;> rfl
  | task awaiting taken nested fs left ans =>
      rw [Reader.drives, Reader.begins]
      split
      · rw [drive]
        cases commandOf d.rxBuf with
        | some apdu => rfl
        | none =>
            dsimp only
            split <;> rfl
      · rfl

/-- The card gets a command when a message is begun. -/
theorem step_commands {a : Action} (ha : a.Calm) :
    commands (d.step F a).log = commands d.log ++ (d.drives a).filterMap inputOf := by
  cases a with
  | powerUp => exact commands_cons _ _
  | bus e =>
      rw [Reader.step, Reader.drives]
      by_cases hon : d.card.ram.isSome = true
      · rw [if_pos hon]
        by_cases he : e = .busReset
        · subst he
          rw [if_pos ⟨hon, rfl⟩]
          exact commands_cons _ _
        · rw [if_neg fun h => he h.2, (unseen_bus he).got]
          exact (List.append_nil _).symm
      · rw [if_neg hon, if_neg fun h => hon h.1]
        exact (List.append_nil _).symm
  | task awaiting taken nested fs left ans =>
      rw [Reader.step, Reader.drives]
      split
      · have hcalm : hasReset nested = false := ha
        have hnested := unseen_nested (d := d.begin) hcalm
        have hbegin : commands (nested.foldl Reader.bus d.begin).log =
            commands d.log ++ (commandOf d.rxBuf).toList :=
          hnested.got.trans (commands_cons _ _)
        dsimp only
        rw [if_neg (Bool.eq_false_iff.mp hcalm), inputOf_drive, ← hbegin]
        cases d.result F fs with
        | mk c left =>
            cases left with
            | some ans =>
                exact (unseen_finish (d := { nested.foldl Reader.bus d.begin with card := c })
                  ans taken
                  hnested.epoch.symm).got
            | none => rfl
      · exact (List.append_nil _).symm

theorem within_drives {A : BoardFate → Prop} {a : Action} (ha : a.Within A) :
    ∀ c ∈ d.drives a, c.Within A := by
  have hdrive : ∀ msg fs, (∀ f ∈ fs, A f) → ∀ c ∈ drive msg fs, c.Within A := by
    intro msg fs hfs c hc
    rw [drive] at hc
    split at hc
    · rw [List.mem_singleton.mp hc]
      exact hfs
    · split at hc
      · rw [List.mem_singleton.mp hc]
        exact hfs
      · cases hc
  cases a with
  | powerUp =>
      intro c hc
      rw [List.mem_singleton.mp hc]
      trivial
  | bus e =>
      intro c hc
      rw [Reader.drives] at hc
      split at hc
      · rw [List.mem_singleton.mp hc]
        exact fun f hf => by cases hf
      · cases hc
  | task awaiting taken nested fs left ans =>
      intro c hc
      rw [Reader.drives] at hc
      split at hc
      · exact hdrive d.rxBuf fs ha c hc
      · cases hc

end Card

/-! ### The reader drives a card -/

/-- The card's own actions in those of the reader. -/
def script (F : PgpPrims) (d : Reader) : List Action → List Pgp.Action
  | [] => []
  | a :: acts => d.drives a ++ script F (d.step F a) acts

/-- The commands that the actions begin, each with its fates. -/
def begun (F : PgpPrims) (d : Reader) : List Action → List (Bytes × List BoardFate)
  | [] => []
  | a :: acts => (d.begins a).toList ++ begun F (d.step F a) acts

section Script

variable {F : PgpPrims} {b : Board Note} {acts : List Action}

theorem script_run {d : Reader} (hcalm : ∀ a ∈ acts, a.Calm) :
    ((reader F b).runFrom d acts).card = (card F b).runFrom d.card (script F d acts) ∧
      commands ((reader F b).runFrom d acts).log =
        commands d.log ++ (script F d acts).filterMap inputOf := by
  induction acts generalizing d with
  | nil => exact ⟨rfl, (List.append_nil _).symm⟩
  | cons a acts ih =>
      obtain ⟨ha, hrest⟩ := List.forall_mem_cons.mp hcalm
      obtain ⟨hcard, hcommands⟩ := ih (d := d.step F a) hrest
      rw [script, System.runFrom_append, List.filterMap_append, ← List.append_assoc,
        ← step_commands ha]
      refine ⟨?_, hcommands⟩
      rw [show (card F b).runFrom d.card (d.drives a) = (d.step F a).card from (step_card ha).symm]
      exact hcard

theorem within_script {A : BoardFate → Prop} {d : Reader} (h : ∀ a ∈ acts, a.Within A) :
    ∀ c ∈ script F d acts, c.Within A := by
  induction acts generalizing d with
  | nil => exact fun c hc => by cases hc
  | cons a acts ih =>
      obtain ⟨ha, hrest⟩ := List.forall_mem_cons.mp h
      rw [script, List.forall_mem_append]
      exact ⟨within_drives ha, ih hrest⟩

theorem commandRun_script {d : Reader} :
    (script F d acts).filterMap commandRun = begun F d acts := by
  induction acts generalizing d with
  | nil => rfl
  | cons a acts ih =>
      rw [script, begun, List.filterMap_append, commandRun_drives, ih]

/-- The card in the reader is a card of its own, which meets the same fates, and gets
the commands of the messages that were begun, each once and in their order. Each of them
runs with the fates of the task that began it. -/
theorem reader_drives_card (hcalm : ∀ a ∈ acts, a.Calm) :
    ∃ acts' : List Pgp.Action, ((reader F b).run acts).card = (card F b).run acts' ∧
      acts'.filterMap inputOf = commands ((reader F b).run acts).log ∧
      acts'.filterMap commandRun = begun F (reader F b).init acts ∧
      ∀ A : BoardFate → Prop, (∀ a ∈ acts, a.Within A) → ∀ c ∈ acts', c.Within A := by
  obtain ⟨hcard, hcommands⟩ := script_run (F := F) (b := b) (d := (reader F b).init) hcalm
  exact ⟨script F (reader F b).init acts, hcard, hcommands.symm, commandRun_script,
    fun A hA => within_script hA⟩

theorem reader_drives_card_askCard :
    ∃ acts' : List Pgp.Action,
      ((reader mixPgp blankBoard).run askCard).card = (card mixPgp blankBoard).run acts' ∧
      acts'.filterMap inputOf = commands ((reader mixPgp blankBoard).run askCard).log ∧
      acts'.filterMap commandRun = [(selectApplet, []), (readCounter, [])] ∧
      ∀ A : BoardFate → Prop, (∀ a ∈ askCard, a.Within A) → ∀ c ∈ acts', c.Within A := by
  have hcalm : ∀ a ∈ askCard, a.Calm := by
    simp only [askCard, exchange, quietTask, List.cons_append, List.nil_append,
      List.forall_mem_cons]
    exact ⟨trivial, trivial, trivial, rfl, trivial, trivial, rfl, fun a ha => by cases ha⟩
  have hbegun : begun mixPgp (reader mixPgp blankBoard).init askCard =
      [(selectApplet, []), (readCounter, [])] := by
    decide +kernel
  rw [← hbegun]
  exact reader_drives_card hcalm

end Script

end Nixtropic.Ccid
