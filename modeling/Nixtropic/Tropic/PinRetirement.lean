import Nixtropic.Tropic.PinRecords

/-!
How long a retired range stays dead.

A change keeps the secret `s` and with it the `u` that arms a slot, and the
two ranges take turns. The change after next therefore arms the range of a
retired binding with the very `u` that its record was made for. What follows
says exactly when an old record, written back into both copies, is refused:
when fewer than two changes were made since the last setup.
-/

namespace Nixtropic

open Crash

/-- Runs of acknowledged setups, changes and clears of one PIN. The number
counts the changes since the last setup or clear; the log is the one before
the last call. A setup draws a secret that was not in use before. -/
inductive AckRun (P : Prims) (L : Layout) : ℕ → List Event → World → Bool → Prop
  | start {w : World} {u : Bool} (ho : Vacant P L w) (hlog : w.log = []) : AckRun P L 0 [] w u
  | setup {n : ℕ} {l : List Event} {w w' : World} {u u' : Bool} {fs : List Fate}
      {mat k : Bytes} {pinLen : UInt8} (hr : AckRun P L n l w u)
      (hfs : ∀ f ∈ fs, L.record.Faults P f)
      (hnew : ∀ msg, ¬Asked w.log (.hmac (w.draw 32) msg))
      (h : (PinCall.setup mat pinLen).run P L u fs w = .done (⟨.ok, false, k⟩, u') w') :
      AckRun P L 0 w.log w' u'
  | change {n : ℕ} {l : List Event} {w w' : World} {u u' : Bool} {fs : List Fate}
      {oldMat newMat k : Bytes} {pinLen : UInt8} (hr : AckRun P L n l w u)
      (hfs : ∀ f ∈ fs, L.record.Faults P f)
      (h : (PinCall.change oldMat newMat pinLen).run P L u fs w = .done (⟨.ok, true, k⟩, u') w') :
      AckRun P L (n + 1) w.log w' u'
  | clear {n : ℕ} {l : List Event} {w w' : World} {u u' : Bool} {fs : List Fate}
      (hr : AckRun P L n l w u) (hfs : ∀ f ∈ fs, L.record.Faults P f)
      (h : run (chip P) ((pinMdKernelClear L).run u) fs w = .done (.ok, u') w') :
      AckRun P L 0 w.log w' u'
  | reboot {n : ℕ} {l : List Event} {w : World} {u : Bool} (hr : AckRun P L n l w u) :
      AckRun P L n l w false

/-- The chip with a record written back into both copies of the pair. -/
def World.replay (w : World) (L : Layout) (r : Bytes) : World :=
  (w.setR L.record.slotA (.data r)).setR L.record.slotB (.data r)

/-- No record stored in `l` is let in again, with the material that it was
made for, unless the functions collide. -/
def NoReplay (P : Prims) (L : Layout) (l : List Event) (w : World) : Prop :=
  ∀ r b s mat, Stored l r → RecordOf L b r → Made P L l b s mat →
    ∀ fs u reply u' w', (∀ f ∈ fs, L.record.Faults P f) →
      (PinCall.verify mat).run P L u fs (w.replay L r) = .done (reply, u') w' →
      Ideal P w'.log → reply.correct = false

/-- The random data of a retirement is no `u`. -/
def Fresh (P : Prims) (l : List Event) : Prop :=
  ∀ slot rnd s, Asked l (.macAndDestroy .retire slot rnd) → Asked l (.hmac s [0x01]) →
    rnd ≠ keyU P s

theorem Fresh.anti {P : Prims} {l l' : List Event} (h : Fresh P l') (hl : l <:+ l') :
    Fresh P l := fun slot rnd s hr hs => h slot rnd s (hr.mono hl) (hs.mono hl)

/-- A range of which no record is left to replay. -/
def Dead (P : Prims) (L : Layout) (l : List Event) (w : World) (range : ℕ) : Prop :=
  Retired P L w range ∨ ∀ r, ¬Stored l r

/-- A record of the range that `s` opens as soon as the range is armed with
its `u` again. -/
def Replayable (P : Prims) (L : Layout) (l : List Event) (w : World) (s : Bytes)
    (range : ℕ) : Prop :=
  ∃ r b mat, Stored l r ∧ valid P L.record r = true ∧ RecordOf L b r ∧ Made P L l b s mat ∧
    b.range = range ∧ b.next = 0 ∧ b.retirePending = false ∧ Warm P L w.log range s mat ∧
    genOf r + 2 ≤ uint32Max

/-- What a run keeps about the live binding `b`. -/
structure Lively (P : Prims) (L : Layout) (n : ℕ) (l : List Event) (w : World) (b : Binding)
    (s : Bytes) : Prop where
  dead : Dead P L l w (1 - b.range)
  fresh : n = 0 → ∀ msg, ¬Asked l (.hmac s msg)
  first : n = 0 → ∀ r b' mat, Stored w.log r → RecordOf L b' r → Made P L w.log b' s mat →
    b'.range = b.range
  second : n = 1 → ∀ r b' mat, Stored l r → RecordOf L b' r → Made P L l b' s mat →
    b'.range = 1 - b.range
  other : 1 ≤ n → Replayable P L l w s (1 - b.range)
  same : 2 ≤ n → Replayable P L l w s b.range

/-- Every stored binding was made for something. -/
def MadeAt (P : Prims) (L : Layout) (l : List Event) (b : Binding) : Prop :=
  ∃ s mat, Made P L l b s mat

/-- The invariant of acknowledged runs. -/
structure AckInv (P : Prims) (L : Layout) (n : ℕ) (l : List Event) (w : World) : Prop where
  log : l <:+ w.log
  traced : Traced P L.record w
  recorded : Recorded P L (MadeAt P L) w
  state : Vacant P L w ∧ n = 0 ∧ (∀ range < L.ranges, Dead P L w.log w range) ∨
    ∃ g b s mat pinLen, Installed P L w g b s mat pinLen ∧ Lively P L n l w b s

section Retirement

variable {P : Prims} {L : Layout} {I : World → Bytes → Bytes → Prop} {w w' : World} {n : ℕ}
  {l : List Event} {u : Bool} {fs : List Fate} {b : Binding} {s mat : Bytes}

theorem records_made : Records P L I (MadeAt P L) where
  mono := by
    rintro l l' b hl ⟨s, mat, hm⟩
    exact ⟨s, mat, hm.mono hl⟩
  counters := by
    rintro l b b' hrange htag hci ⟨s, mat, hm⟩
    exact ⟨s, mat, hm.congr hrange htag hci⟩
  switched := fun _ _ _ hmade => ⟨_, _, hmade⟩
  first := fun _ _ _ hmade => ⟨_, _, hmade⟩

/-- The records with the tag of `s` are of one range. -/
def TagRange (P : Prims) (s : Bytes) (range : ℕ) (_ : List Event) (b : Binding) : Prop :=
  b.tag = keyTag P s → b.range = range

theorem Retired.mono {range : ℕ} (h : Retired P L w range) (hl : w.log <:+ w'.log)
    (hm : ∀ i < L.rounds, w'.mad (mdSlot L range i) = w.mad (mdSlot L range i)) :
    Retired P L w' range := by
  intro i hi
  obtain ⟨rnd, hmad, hasked⟩ := h i hi
  exact ⟨rnd, (hm i hi).trans hmad, hasked.mono hl⟩

theorem Replayable.mono {l' : List Event} {range : ℕ} (h : Replayable P L l w s range)
    (hl : l <:+ l') (hw : w.log <:+ w'.log) : Replayable P L l' w' s range := by
  obtain ⟨r, b, mat, hst, hv, hb, hm, hrange, hn, hp, hwarm, hg⟩ := h
  exact ⟨r, b, mat, hst.mono hl, hv, hb, hm.mono hl, hrange, hn, hp, hwarm.mono hw, hg⟩

/-- A record with the tag of a secret that is drawn only now was not stored
before. -/
theorem tagRange_of_fresh {range : ℕ} (hrec : Recorded P L (MadeAt P L) w)
    (hnew : ∀ msg, ¬Asked w.log (.hmac s msg)) (hl : w.log <:+ w'.log) (hid : Ideal P w'.log)
    (hs : Asked w'.log (.hmac s [0x00])) : Recorded P L (TagRange P s range) w := by
  have hno : ∀ b, MadeAt P L w.log b → TagRange P s range w.log b := by
    rintro b ⟨s', mat, hm⟩ htag
    obtain ⟨rfl, -⟩ := hid.hmac (hm.asked_tag.mono hl) hs (hm.tag.symm.trans htag)
    exact absurd hm.asked_tag (hnew _)
  exact ⟨fun r b hr hb => hno b (hrec.stored r b hr hb), fun g b hb => hno b (hrec.now g b hb)⟩

/-- A setup over no binding. -/
theorem ackInv_setup_first (hL : validLayout L = true) (h2 : L.ranges = 2)
    (hinv : AckInv P L n l w) (hv : Vacant P L w)
    (hdead : ∀ range < L.ranges, Dead P L w.log w range) (hfs : ∀ f ∈ fs, L.record.Faults P f)
    (hnew : ∀ msg, ¬Asked w.log (.hmac (w.draw 32) msg)) {k : Bytes} {pinLen : UInt8} {u' : Bool}
    (h : (PinCall.setup mat pinLen).run P L u fs w = .done (⟨.ok, false, k⟩, u') w')
    (hid : Ideal P w'.log) : AckInv P L 0 w.log w' := by
  have hok := validLayout_ok hL
  have htraced : Traced P L.record w' := by
    have ht := run_traced hfs (((PinCall.setup mat pinLen).prog P L).run u) hinv.traced
    change Traced P L.record ((PinCall.setup mat pinLen).run P L u fs w).state at ht
    rw [h] at ht
    exact ht
  have hpost := done_among (swp_setup_vacant (I := fun w' _ _ => Vacant P L w')
    (among_leaves hfs) hL hv fun w' hv' => hv') h
  obtain ⟨hvia, ⟨-, -, hmad, b, hrange, hinst⟩ | ⟨hbad, -⟩⟩ := hpost
  · have hlog := hvia.log
    have hB : Records P L (fun w' _ _ => Vacant P L w') (TagRange P (w.draw 32) 0) :=
      ⟨fun _ h => h, fun hr ht _ hb htag => hr.trans (hb (ht ▸ htag)),
        fun hnow hvac _ _ => absurd hvac hnow.not_vacant, fun _ _ hr _ _ => hr⟩
    have htag := (tagRange_of_fresh hinv.recorded hnew hlog hid hinst.made.asked_tag).via hB hvia
    refine ⟨hlog, htraced, hinv.recorded.via records_made hvia, .inr ⟨1, b, _, mat, pinLen, hinst,
      ?_, fun _ => hnew, fun _ r b' m hr hb' hm => ?_, nofun, nofun, nofun⟩⟩
    · rcases hdead 1 (by omega) with hret | hnone
      · refine .inl ?_
        rw [hrange]
        refine hret.mono hlog fun i hi => hmad _ ?_
        exact inRange_apart hok (by omega : 1 < L.ranges) (by omega) (by omega) ⟨i, hi, rfl⟩
      · exact .inr hnone
    · exact (htag.stored r b' hr hb' hm.tag).trans hrange.symm
  · simp [PmdReply.bare] at hbad

/-- A setup over a binding. -/
theorem ackInv_setup_over (hL : validLayout L = true)
    (hinv : AckInv P L n l w) {g : ℕ} {m : Bytes} {len : UInt8}
    (hinst : Installed P L w g b s m len) (hfs : ∀ f ∈ fs, L.record.Faults P f)
    (hnew : ∀ msg, ¬Asked w.log (.hmac (w.draw 32) msg)) {k : Bytes} {pinLen : UInt8} {u' : Bool}
    (h : (PinCall.setup mat pinLen).run P L u fs w = .done (⟨.ok, false, k⟩, u') w')
    (hid : Ideal P w'.log) : AckInv P L 0 w.log w' := by
  have htraced : Traced P L.record w' := by
    have ht := run_traced hfs (((PinCall.setup mat pinLen).prog P L).run u) hinv.traced
    change Traced P L.record ((PinCall.setup mat pinLen).run P L u fs w).state at ht
    rw [h] at ht
    exact ht
  have hpost := done_among (swp_setup (I := fun w' _ _ => Kept P L w' (g + b.debt) b.settled)
    (among_leaves hfs) hL hinst.kept.now fun w' hk => hk) h
  obtain ⟨hvia, -, ⟨-, -, h2, hret, b', hrange, hinst'⟩ | ⟨hbad, -⟩⟩ := hpost
  · have hlog := hvia.log
    have hbr := hinst.kept.now.wf.range
    have hB : Records P L (fun w' _ _ => Kept P L w' (g + b.debt) b.settled)
        (TagRange P (w.draw 32) (1 - b.range)) := by
      refine ⟨fun _ h => h, fun hr ht _ hb htag => hr.trans (hb (ht ▸ htag)), ?_,
        fun hvac hk _ _ => absurd hvac hk.now.not_vacant⟩
      intro w₁ g₁ b₁ b₂ s₁ m₁ hnow hk hr _ _
      obtain ⟨-, rfl⟩ := hnow.unique hk.now
      exact hr
    have htag := (tagRange_of_fresh hinv.recorded hnew hlog hid hinst'.made.asked_tag).via hB hvia
    refine ⟨hlog, htraced, hinv.recorded.via records_made hvia, .inr ⟨_, b', _, mat, pinLen,
      hinst', .inl ?_, fun _ => hnew, fun _ r b₁ m₁ hr hb₁ hm => ?_, nofun, nofun, nofun⟩⟩
    · have hold : 1 - b'.range = b.range := by omega
      rw [hold]
      exact hret
    · exact (htag.stored r b₁ hr hb₁ hm.tag).trans hrange.symm
  · simp [PmdReply.bare] at hbad

/-- The verification of a change has asked everything that a later one of the
same binding will ask. -/
theorem Right.warm {g : ℕ} {l : List Event} (hok : L.Ok) (hn : b.next = 0)
    (hrange : b.range < L.ranges) (ha : Armed P L w.mad b.range 0 s)
    (h : Right P L g b mat s u w w') (hl : w'.log <:+ l) (hk : Asked l (.hmac s [0x02])) :
    Warm P L l b.range s mat := by
  have hpos := hok.rounds_pos
  have hslot : trySlot L b = mdSlot L b.range 0 := by rw [trySlot, hn]
  refine ⟨hk, ?_, fun i h0 hi => ?_⟩
  · have hc := h.restored 0 hpos
    rw [triedMad, hslot, Function.update_self] at hc
    exact hc.mono hl
  · have hc := h.restored i hi
    have hne : mdSlot L b.range i ≠ mdSlot L b.range 0 := fun heq => by
      have := (mdSlot_inj hok hrange hrange hi hpos heq).2
      omega
    rw [triedMad, hslot, Function.update_of_ne hne, ha i (Nat.zero_le i) hi] at hc
    exact hc.mono hl

/-- A change of the live binding. -/
theorem ackInv_change (hL : validLayout L = true)
    (hinv : AckInv P L n l w) {g : ℕ} {m : Bytes} {len : UInt8}
    (hinst : Installed P L w g b s m len) (hlive : Lively P L n l w b s)
    (hfs : ∀ f ∈ fs, L.record.Faults P f) {old new k : Bytes} {pinLen : UInt8} {u' : Bool}
    (h : (PinCall.change old new pinLen).run P L u fs w = .done (⟨.ok, true, k⟩, u') w')
    (hid : Ideal P w'.log) : AckInv P L (n + 1) w.log w' := by
  have hok := validLayout_ok hL
  have hpos := hok.rounds_pos
  have htraced : Traced P L.record w' := by
    have ht := run_traced hfs (((PinCall.change old new pinLen).prog P L).run u) hinv.traced
    change Traced P L.record ((PinCall.change old new pinLen).run P L u fs w).state at ht
    rw [h] at ht
    exact ht
  have hpost := done_among (swp_change (I := fun _ _ _ => True) (among_leaves hfs) hL
    hinst.kept.now fun _ _ _ _ _ => trivial) h
  obtain ⟨hch, ⟨s', b', w₁, -, -, h2, hright, hlog₁, hkey, hret, hrange, hinst'⟩ | ⟨hbad, -⟩ |
    ⟨hbad, -⟩ | ⟨hbad, -⟩⟩ := hpost
  · have hlog := hch.via.log
    have hbr := hinst.kept.now.wf.range
    have hold : 1 - b'.range = b.range := by omega
    -- the change was let in by the material of the live binding
    obtain ⟨hguess, rfl, -⟩ := guess_key hinst.made hright.log (hid.anti hlog₁) hright.left
      hright.tried (hright.eq ▸ hright.tag)
    obtain rfl : s' = s := hright.eq.trans hguess
    have hother : Replayable P L w.log w' s' b.range := by
      obtain ⟨r, hm, hg, hb⟩ := hinst.kept
      have hg' : g + b.debt + 4 ≤ uint32Max := by
        obtain ⟨r', -, hgen, -⟩ := hinst'.kept
        have := genOf_lt r'
        simp only [uint32Max]
        omega
      exact ⟨r, b, old, hinv.traced _ r (.inl rfl) hm.a hm.valid, hm.valid, hb, hinst.made, rfl,
        hinst.next, hinst.pending, hright.warm hok hinst.next hbr hinst.armed hlog₁ hkey,
        by omega⟩
    refine ⟨hlog, htraced, hinv.recorded.via records_made hch.via, .inr ⟨_, b', s', new, pinLen,
      hinst', .inl ?_, (fun h => by cases h), (fun h => by cases h), fun hn => ?_, fun _ =>
        ?_, fun hn => ?_⟩⟩
    · rw [hold]
      exact hret
    · intro r b₁ m₁ hr hb₁ hm
      rw [hold]
      exact hlive.first (by omega) r b₁ m₁ hr hb₁ hm
    · rw [hold]
      exact hother
    · rw [hrange]
      exact (hlive.other (by omega)).mono hinv.log hlog
  all_goals simp [PmdReply.bare] at hbad

theorem AckRun.inv (hL : validLayout L = true) (h2 : L.ranges = 2) (hr : AckRun P L n l w u)
    (hid : Ideal P w.log) : AckInv P L n l w := by
  induction hr with
  | @start w u ho hlog =>
      have hnone : ∀ r, ¬Stored w.log r := by
        rintro r ⟨slot, e, he, -⟩
        rw [hlog] at he
        cases he
      refine ⟨List.nil_suffix, ?_, ⟨fun r b hr => absurd hr (hnone r),
        fun g b hb => absurd ho hb.not_vacant⟩, .inl ⟨ho, rfl, fun _ _ => .inr hnone⟩⟩
      rintro slot r (rfl | rfl) hdata hv
      · exact absurd hdata (ho.1.ne_data hv)
      · exact absurd hdata (ho.2.ne_data hv)
  | @setup n l w w' u u' fs mat k pinLen hr hfs hnew h ih =>
      have hlog : w.log <:+ w'.log := by
        obtain ⟨l', hl', -⟩ := run_erasing hfs (((PinCall.setup mat pinLen).prog P L).run u) w
        change ((PinCall.setup mat pinLen).run P L u fs w).state.log = _ at hl'
        rw [h] at hl'
        exact ⟨l', hl'.symm⟩
      have hinv := ih (hid.anti hlog)
      rcases hinv.state with ⟨hv, -, hdead⟩ | ⟨g, b, s, m, len, hinst, -⟩
      · exact ackInv_setup_first hL h2 hinv hv hdead hfs hnew h hid
      · exact ackInv_setup_over hL hinv hinst hfs hnew h hid
  | @change n l w w' u u' fs old new k pinLen hr hfs h ih =>
      have hlog : w.log <:+ w'.log := by
        obtain ⟨l', hl', -⟩ := run_erasing hfs (((PinCall.change old new pinLen).prog P L).run u) w
        change ((PinCall.change old new pinLen).run P L u fs w).state.log = _ at hl'
        rw [h] at hl'
        exact ⟨l', hl'.symm⟩
      have hinv := ih (hid.anti hlog)
      rcases hinv.state with ⟨hv, -, -⟩ | ⟨g, b, s, m, len, hinst, hlive⟩
      · have hpost := done_among (swp_change_vacant (I := fun _ _ _ => True)
          (among_leaves hfs) hv) h
        obtain ⟨-, -, -, rc, hrc, hbad⟩ := hpost
        injection hbad with hbad
        exact absurd hbad.symm hrc
      · exact ackInv_change hL hinv hinst hlive hfs h hid
  | @clear n l w w' u u' fs hr hfs h ih =>
      have hpost := done_among (swp_clear (among_leaves hfs) hL) h
      obtain ⟨-, hun, hvac, hret⟩ := hpost rfl
      obtain ⟨l', hl', -⟩ := id hun
      have hlog : w.log <:+ w'.log := ⟨l', hl'.symm⟩
      have hinv := ih (hid.anti hlog)
      have ht := run_traced hfs ((pinMdKernelClear L).run u) hinv.traced
      rw [h] at ht
      refine ⟨hlog, ht, ⟨fun r b hr hb => ?_, fun g b hb => absurd hvac hb.not_vacant⟩,
        .inl ⟨hvac, rfl, fun range hr => .inl (hret range hr)⟩⟩
      exact (records_made (I := fun _ _ _ => True)).mono hlog
        (hinv.recorded.stored r b (hun.stored hr) hb)
  | reboot hr ih => exact ih hid

/-! ### Replays -/

@[simp] theorem replay_mad (w : World) (L : Layout) (r : Bytes) : (w.replay L r).mad = w.mad := rfl
@[simp] theorem replay_log (w : World) (L : Layout) (r : Bytes) : (w.replay L r).log = w.log := rfl

theorem replay_mirrored {r : Bytes} (hv : valid P L.record r = true) :
    Mirrored P L.record (w.replay L r).rmem r := by
  refine ⟨?_, ?_, hv⟩
  · rw [World.replay, World.setR_rmem, World.setR_rmem, Function.update_of_ne L.record.slots_ne,
      Function.update_self]
  · rw [World.replay, World.setR_rmem, Function.update_self]

/-- A retired slot is not armed. -/
theorem Retired.not_armed {l' : List Event} {s' : Bytes} {range i : ℕ} (h : Retired P L w range)
    (hi : i < L.rounds) (hid : Ideal P l') (hfresh : Fresh P w.log) (hl : w.log <:+ l')
    {old : Bytes} (hc : Called l' (mdSlot L range i) old (keyU P s'))
    (hu : Asked w.log (.hmac s' [0x01])) :
    w.mad (mdSlot L range i) ≠ P.f1 (keyU P s') (mdSlot L range i) := by
  obtain ⟨rnd, hm, e, he, hop⟩ := h i hi
  intro heq
  have hcall : Called l' (mdSlot L range i) (e.mad (mdSlot L range i)) rnd :=
    ⟨e, hl.subset he, ⟨.retire, hop⟩, rfl⟩
  have hrnd : rnd = keyU P s' := hid.f1 hcall hc (hm.symm.trans heq)
  exact hfresh _ rnd s' ⟨e, he, hop⟩ hu hrnd

/-- With fewer than two changes since the last setup no stored record is let
in. -/
theorem AckInv.noReplay (hL : validLayout L = true) (h2 : L.ranges = 2)
    (hinv : AckInv P L n l w) (hfresh : Fresh P w.log) (hn : n < 2) : NoReplay P L l w := by
  intro r b₁ s₁ mat₁ hst hrec hmade fs v reply u' w' hfs hrun hid
  have hA := among_leaves hfs
  have hwf : b₁.Wf L := parseBinding_wf hrec
  by_cases hv : valid P L.record r = true
  · have hnow : Now P L (w.replay L r) (genOf r) b₁ :=
      ⟨r, (replay_mirrored hv).current, rfl, hrec⟩
    have hpost := done_among (swp_verify (I := fun _ _ _ => False) hA hL hnow) hrun
    obtain ⟨hver, ⟨s', -, hr⟩ | ⟨rfl, -⟩ | ⟨rfl, -⟩ | ⟨rfl, -⟩⟩ := hpost
    · -- a right PIN would need the slot to be armed for the record
      have hlog : w.log <:+ w'.log := hr.log
      obtain ⟨-, -, harmed⟩ := guess_key hmade (hinv.log.trans hlog) hid hr.left hr.tried
        (hr.eq ▸ hr.tag)
      obtain ⟨old, hcall⟩ := hmade.armed b₁.next hr.left
      have hcall' := hcall.mono (hinv.log.trans hlog)
      have hasked : Asked w.log (.hmac s₁ [0x01]) := hmade.asked_u.mono hinv.log
      have hretired : ∀ {range}, Retired P L w range → b₁.range ≠ range := by
        rintro range hret rfl
        exact hret.not_armed hr.left hid hfresh hlog hcall' hasked harmed
      rcases hinv.state with ⟨-, -, hdead⟩ | ⟨g, b, s, m, len, hinst, hlive⟩
      · rcases hdead b₁.range hwf.range with hret | hnone
        · exact absurd rfl (hretired hret)
        · exact absurd (hst.mono hinv.log) (hnone r)
      · have hbr := hinst.kept.now.wf.range
        have hb₁r := hwf.range
        have hsame : b₁.range = b.range := by
          rcases hlive.dead with hret | hnone
          · have := hretired hret
            omega
          · exact absurd hst (hnone r)
        -- the slot of the live range is armed with the live secret
        have hslot := hinst.armed b₁.next (Nat.zero_le _) hr.left
        rw [← hsame] at hslot
        obtain ⟨old', hcall₀⟩ := hinst.made.armed b₁.next hr.left
        rw [← hsame] at hcall₀
        have hu : keyU P s = keyU P s₁ :=
          hid.f1 (hcall₀.mono hlog) hcall' (hslot.symm.trans harmed)
        obtain ⟨rfl, -⟩ := hid.hmac (hinst.made.asked_u.mono hlog)
          (hmade.asked_u.mono (hinv.log.trans hlog)) hu
        rcases Nat.lt_or_ge n 1 with h0 | h1
        · exact absurd hmade.asked_tag (hlive.fresh (by omega) _)
        · have hrange := hlive.second (by omega) r b₁ mat₁ hst hrec hmade
          omega
    all_goals rfl
  · have hvac : Vacant P L (w.replay L r) := by
      have hinvalid : Invalid P L.record (.data r) := fun d hd => by
        obtain ⟨hdata, hvd⟩ := classify_valid_iff.mp hd
        injection hdata with hdata
        exact hv (hdata ▸ hvd)
      refine ⟨?_, ?_⟩
      · rw [World.replay, World.setR_rmem, World.setR_rmem,
          Function.update_of_ne L.record.slots_ne, Function.update_self]
        exact hinvalid
      · rw [World.replay, World.setR_rmem, Function.update_self]
        exact hinvalid
    have hpost := done_among (swp_verify_vacant (I := fun _ _ _ => False) hA hL hvac) hrun
    obtain ⟨-, -, -, rc, -, rfl⟩ := hpost
    rfl

/-- After two changes a record is let in that was stored before the last
one. -/
theorem AckInv.replay (hL : validLayout L = true) (hinv : AckInv P L n l w)
    (hid : Ideal P w.log) (hn : 2 ≤ n) :
    ∃ r b s mat w', Stored l r ∧ RecordOf L b r ∧ Made P L l b s mat ∧
      verifyCalm P L mat (w.replay L r) = .done (⟨.ok, true, keyK P s⟩, false) w' ∧
      Ideal P w'.log := by
  rcases hinv.state with ⟨-, h0, -⟩ | ⟨g, b, s, m, len, hinst, hlive⟩
  · omega
  · obtain ⟨r, b₁, mat, hst, hv, hrec, hmade, hrange, hnext, hp, hwarm, hg⟩ := hlive.same hn
    have hlive₁ : Live P L (w.replay L r) (genOf r) b₁ s mat := by
      refine ⟨⟨r, (replay_mirrored hv).current, rfl, hrec⟩, hmade.mono hinv.log, ?_⟩
      rw [replay_mad, hrange]
      exact fun i _ hi => hinst.armed i (Nat.zero_le i) hi
    have hpos := (validLayout_ok hL).rounds_pos
    obtain ⟨w', hrun, -⟩ := hlive₁.accepts hL (by omega) (by rw [debt_of_settled hp]; omega)
    have hstale : (verifyCalm P L mat (w.replay L r)).Satisfies _ _ :=
      run_among (swp_verify_stale hL hlive₁ hp hnext (by rw [hrange]; exact hwarm))
    rw [hrun] at hstale
    exact ⟨r, b₁, s, mat, w', hst, hrec, hmade, hrun, hstale.ideal hid⟩

/-- After an acknowledged call no record that was stored before it is let in
again, if and only if fewer than two changes were made since the last setup or
clear. -/
theorem noReplay_iff (hL : validLayout L = true) (h2 : L.ranges = 2)
    (hr : AckRun P L n l w u) (hid : Ideal P w.log) (hfresh : Fresh P w.log) :
    NoReplay P L l w ↔ n < 2 := by
  have hinv := hr.inv hL h2 hid
  constructor
  · intro hno
    by_contra hn
    obtain ⟨r, b, s, mat, w', hst, hrec, hmade, hrun, hid'⟩ := hinv.replay hL hid (by omega)
    have := hno r b s mat hst hrec hmade [] false _ _ w' (by simp) hrun hid'
    cases this
  · exact hinv.noReplay hL h2 hfresh

/-- An undisturbed change with the right old material succeeds. -/
theorem change_calm (hL : validLayout L = true) (h2 : L.ranges = 2) {g : ℕ} {old : Bytes}
    {len : UInt8} (hinst : Installed P L w g b s old len) (hg : g + 4 ≤ uint32Max) (new : Bytes)
    (pinLen : UInt8) :
    ∃ w' b', (PinCall.change old new pinLen).run P L false [] w =
        .done (⟨.ok, true, keyK P s⟩, false) w' ∧ b'.range = 1 - b.range ∧
      Installed P L w' (g + 4) b' s new pinLen := by
  have hpos := (validLayout_ok hL).rounds_pos
  have hd := debt_of_settled hinst.pending
  have hs : guess P L w.mad b old = s :=
    guess_right hinst.made (hinst.next ▸ hinst.armed) (by rw [hinst.next]; exact hpos)
  obtain ⟨⟨reply, u'⟩, w', hrun⟩ :=
    run_calm (((PinCall.change old new pinLen).prog P L).run false) w
  have hpost := done_among (swp_change (I := fun _ _ _ => True) among_nil_leaves hL hinst.kept.now
    fun _ _ _ _ _ => trivial) hrun
  obtain ⟨-, ⟨s', b', w₁, rfl, rfl, -, hright, -, -, -, hrange, hinst'⟩ | ⟨-, hwrong⟩ |
    ⟨-, -, hfull⟩ | ⟨-, hone | hu | hst | hmax⟩⟩ := hpost
  · obtain rfl : s' = s := hright.eq.trans hs
    rw [hd] at hinst'
    exact ⟨w', b', hrun, hrange, hinst'⟩
  · exact absurd (hs ▸ hinst.made.tag.symm) hwrong.tag
  · rw [hinst.next] at hfull
    omega
  · omega
  · cases hu
  · exact absurd hst not_stormy_nil
  · omega

end Retirement

/-- The inputs of the retirement calls. -/
def retires (l : List Event) : List Bytes :=
  l.filterMap fun e => match e.op with
    | .macAndDestroy .retire _ rnd => some rnd
    | _ => none

theorem fresh_of_retires {P : Prims} {l : List Event}
    (h : ∀ rnd ∈ retires l, ∀ q ∈ hmacs l, q.2 = [0x01] → rnd ≠ keyU P q.1) : Fresh P l := by
  rintro slot rnd s ⟨e, he, hop⟩ hs
  exact h rnd (List.mem_filterMap.mpr ⟨e, he, by rw [hop]⟩) (s, [0x01]) (asked_iff.mp hs) rfl

/-- The chip after a first setup and one change. -/
@[irreducible] def demoSecond : World :=
  ((PinCall.change [1] [2] 1).run mixPrims demoLayout false [] demoFirst).state

/-- The chip after a first setup and two changes. -/
@[irreducible] def demoThird : World :=
  ((PinCall.change [2] [3] 1).run mixPrims demoLayout false [] demoSecond).state

theorem third_demo :
    ∃ b₀ b₂, AckRun mixPrims demoLayout 0 [] demoFirst false ∧
      AckRun mixPrims demoLayout 2 demoSecond.log demoThird false ∧
      Installed mixPrims demoLayout demoFirst 1 b₀ demoSecret [1] 1 ∧
      Installed mixPrims demoLayout demoThird 9 b₂ demoSecret [3] 1 ∧
      b₀.range = 0 ∧ b₂.range = 0 := by
  obtain ⟨b₀, hrun₀, hr₀, h₀⟩ := first_demo_run
  obtain ⟨w₁, b₁, hrun₁, hr₁, h₁⟩ := change_calm demo_valid rfl h₀ (by decide) [2] 1
  obtain rfl : demoSecond = w₁ := by
    unfold demoSecond
    exact congrArg Outcome.state hrun₁
  obtain ⟨w₂, b₂, hrun₂, hr₂, h₂⟩ := change_calm demo_valid rfl h₁ (by decide) [3] 1
  obtain rfl : demoThird = w₂ := by
    unfold demoThird
    exact congrArg Outcome.state hrun₂
  have hnil : ∀ f ∈ ([] : List Fate), demoLayout.record.Faults mixPrims f := by simp
  have hnew : ∀ msg, ¬Asked World.blank.log (.hmac (World.blank.draw 32) msg) := by
    rintro msg ⟨e, he, -⟩
    cases he
  have ha₀ := AckRun.setup (.start (u := false) vacant_blank rfl) hnil hnew hrun₀
  exact ⟨b₀, b₂, ha₀, (ha₀.change hnil hrun₁).change hnil hrun₂, h₀, h₂, hr₀, by omega⟩

theorem third_demo_ideal : Ideal mixPrims demoThird.log := by decide +kernel

theorem third_demo_fresh : Fresh mixPrims demoThird.log := fresh_of_retires (by decide +kernel)

theorem noReplay_iff_demo :
    AckRun mixPrims demoLayout 2 demoSecond.log demoThird false ∧
      (NoReplay mixPrims demoLayout demoSecond.log demoThird ↔ 2 < 2) := by
  obtain ⟨-, -, -, hr, -⟩ := third_demo
  exact ⟨hr, noReplay_iff demo_valid rfl hr third_demo_ideal third_demo_fresh⟩

/-- After a setup with the material `1` and changes to `2` and `3`, the record
of the setup and the material `1` are let in again. -/
theorem old_record_opens :
    ∃ r b w', AckRun mixPrims demoLayout 2 demoSecond.log demoThird false ∧
      Fresh mixPrims demoThird.log ∧ demoFirst.rmem demoLayout.record.slotA = .data r ∧
      Stored demoSecond.log r ∧ RecordOf demoLayout b r ∧
      Made mixPrims demoLayout demoSecond.log b demoSecret [1] ∧
      verifyCalm mixPrims demoLayout [1] (demoThird.replay demoLayout r) =
        .done (⟨.ok, true, keyK mixPrims demoSecret⟩, false) w' ∧ Ideal mixPrims w'.log := by
  obtain ⟨b₀, b₂, hr₀, hr₂, h₀, h₂, hb₀, hb₂⟩ := third_demo
  obtain ⟨r, hm, hg, hb⟩ := h₀.kept
  have hid₀ : Ideal mixPrims demoFirst.log := by decide +kernel
  have htraced := (hr₀.inv demo_valid rfl hid₀).traced
  have hlog₁ : demoFirst.log <:+ demoSecond.log := by
    obtain ⟨l, hl, -⟩ := run_erasing (P := mixPrims) (p := demoLayout.record)
      (by simp : ∀ f ∈ ([] : List Fate), f.leaves (Invalid mixPrims demoLayout.record))
      (((PinCall.change [1] [2] 1).prog mixPrims demoLayout).run false) demoFirst
    rw [demoSecond]
    exact ⟨l, hl.symm⟩
  have hlog₂ : demoSecond.log <:+ demoThird.log := (hr₂.inv demo_valid rfl third_demo_ideal).log
  have hmade : Made mixPrims demoLayout demoSecond.log b₀ demoSecret [1] := h₀.made.mono hlog₁
  have hlive : Live mixPrims demoLayout (demoThird.replay demoLayout r) 1 b₀ demoSecret [1] := by
    refine ⟨⟨r, (replay_mirrored hm.valid).current, hg, hb⟩, hmade.mono hlog₂, ?_⟩
    rw [replay_mad, hb₀, ← hb₂]
    exact fun i _ hi => h₂.armed i (Nat.zero_le i) hi
  have hwarm : Warm mixPrims demoLayout demoThird.log 0 demoSecret [1] := by
    refine ⟨by decide +kernel, by decide +kernel, fun i h0 hi => ?_⟩
    obtain rfl : i = 1 := by
      change i < 2 at hi
      omega
    decide +kernel
  obtain ⟨w', hrun, -⟩ := hlive.accepts demo_valid (by rw [h₀.next]; decide)
    (by rw [debt_of_settled h₀.pending]; decide)
  have hstale : (verifyCalm mixPrims demoLayout [1] (demoThird.replay demoLayout r)).Satisfies
      _ _ := run_among (swp_verify_stale demo_valid hlive h₀.pending h₀.next
        (by rw [hb₀]; exact hwarm))
  rw [hrun] at hstale
  exact ⟨r, b₀, w', hr₂, third_demo_fresh, hm.a, (htraced _ r (.inl rfl) hm.a hm.valid).mono hlog₁,
    hb, hmade, hrun, hstale.ideal third_demo_ideal⟩

end Nixtropic
