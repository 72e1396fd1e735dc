import Nixtropic.Tropic.PinFormat
import Nixtropic.Tropic.RecPairLogic
import Mathlib.Logic.Relation

/-!
The PIN kernel as a transition system.

A binding is a record of the pair, and the M&D slots of its range hold what
its `next` field promises. Everything the kernel does to the chip is one of a
few steps on the record and on one slot; each step says in which states the
code may take it. The programs are shown to follow these steps in
`PinLogic`, at every point where a run may be cut, so that an invariant of the
steps is an invariant of all interrupted runs.
-/

namespace Nixtropic

open Crash

/-! ### The keys of a binding -/

def keyTag (P : Prims) (s : Bytes) : Bytes := P.hmac s [0x00]
def keyU (P : Prims) (s : Bytes) : Bytes := P.hmac s [0x01]
def keyK (P : Prims) (s : Bytes) : Bytes := P.hmac s [0x02]
def pinKey (P : Prims) (mat : Bytes) : Bytes := P.hmac zeros mat

/-- The answer of a slot that holds `old` to the PIN input `v`. -/
def answer (P : Prims) (old v : Bytes) (slot : ℕ) : Bytes := P.f2 old (P.f1 v slot) slot

/-- The answer of an armed slot to the right PIN. -/
def armedAnswer (P : Prims) (s mat : Bytes) (slot : ℕ) : Bytes :=
  answer P (P.f1 (keyU P s) slot) (pinKey P mat) slot

theorem xorBytes_length {a b : Bytes} (h : a.length = b.length) :
    (xorBytes a b).length = a.length := by
  simp [xorBytes, h]

/-- XOR with the same bytes twice gives the bytes back. -/
theorem xorBytes_cancel {a k : Bytes} (h : a.length = k.length) :
    xorBytes (xorBytes a k) k = a := by
  induction a generalizing k with
  | nil => simp [xorBytes]
  | cons x a ih =>
      cases k with
      | nil => simp at h
      | cons y k =>
          have hrest := ih (k := k) (by simpa using h)
          simp only [xorBytes, List.zipWith_cons_cons, List.cons.injEq] at hrest ⊢
          exact ⟨by rw [UInt8.xor_assoc, UInt8.xor_self, UInt8.xor_zero], hrest⟩

/-- Only the key that made a ciphertext opens it. -/
theorem xorBytes_key {a k k' : Bytes} (h : a.length = k.length) (h' : a.length = k'.length)
    (hopen : xorBytes (xorBytes a k) k' = a) : k' = k := by
  induction a generalizing k k' with
  | nil =>
      simp only [List.length_nil] at h h'
      rw [List.eq_nil_of_length_eq_zero h.symm, List.eq_nil_of_length_eq_zero h'.symm]
  | cons x a ih =>
      cases k with
      | nil => simp at h
      | cons y k =>
          cases k' with
          | nil => simp at h'
          | cons z k' =>
              simp only [xorBytes, List.zipWith_cons_cons, List.cons.injEq] at hopen
              obtain ⟨hhead, htail⟩ := hopen
              have hrest : k' = k := ih (by simpa using h) (by simpa using h') htail
              have hz : z = y := by
                have hx : x ^^^ (y ^^^ z) = x ^^^ 0 := by
                  rw [← UInt8.xor_assoc, hhead, UInt8.xor_zero]
                have hyz : y ^^^ z = 0 := UInt8.xor_right_inj x |>.mp hx
                exact (UInt8.xor_eq_zero_iff.mp hyz).symm
              rw [hz, hrest]

/-! ### Slots -/

theorem mdSlot_eq {L : Layout} (hL : L.Ok) {range i : ℕ} (hr : range < L.ranges)
    (hi : i < L.rounds) : mdSlot L range i = L.base range + i := by
  have := hL.fits range hr
  exact Nat.mod_eq_of_lt (by omega)

/-- The slots of a layout are all different. -/
theorem mdSlot_inj {L : Layout} (hL : L.Ok) {range range' i i' : ℕ} (hr : range < L.ranges)
    (hr' : range' < L.ranges) (hi : i < L.rounds) (hi' : i' < L.rounds)
    (h : mdSlot L range i = mdSlot L range' i') : range = range' ∧ i = i' := by
  rw [mdSlot_eq hL hr hi, mdSlot_eq hL hr' hi'] at h
  rcases Nat.lt_or_ge L.ranges 2 with h2 | h2
  · have h0 : range = 0 := by omega
    have h0' : range' = 0 := by omega
    subst h0 h0'
    omega
  · have h2 : L.ranges = 2 := by
      rcases hL.ranges with h | h <;> omega
    have hap := hL.apart h2
    have hcases : ∀ r, r < 2 → r = 0 ∨ r = 1 := by omega
    rcases hcases range (by omega) with rfl | rfl <;>
      rcases hcases range' (by omega) with rfl | rfl <;>
      simp only [Layout.base, if_true, one_ne_zero, if_false] at h <;> omega

/-- The slots of one range. -/
def InRange (L : Layout) (range slot : ℕ) : Prop := ∃ i < L.rounds, slot = mdSlot L range i

theorem inRange_apart {L : Layout} (hL : L.Ok) {range range' slot : ℕ} (hr : range < L.ranges)
    (hr' : range' < L.ranges) (hne : range ≠ range') (h : InRange L range slot) :
    ¬InRange L range' slot := by
  rintro ⟨i', hi', hslot'⟩
  obtain ⟨i, hi, hslot⟩ := h
  exact hne (mdSlot_inj hL hr hr' hi hi' (hslot ▸ hslot')).1

/-! ### The record -/

/-- The pair holds the binding `b` as generation `g`, in some copy. -/
def Now (P : Prims) (L : Layout) (w : World) (g : ℕ) (b : Binding) : Prop :=
  ∃ r, Current P L.record w.rmem r ∧ genOf r = g ∧ parseBinding L (payloadOf r) = some b

/-- Both copies hold the binding. -/
def Kept (P : Prims) (L : Layout) (w : World) (g : ℕ) (b : Binding) : Prop :=
  ∃ r, Mirrored P L.record w.rmem r ∧ genOf r = g ∧ parseBinding L (payloadOf r) = some b

def Vacant (P : Prims) (L : Layout) (w : World) : Prop := Holds P L.record w.rmem none

theorem Kept.now {P : Prims} {L : Layout} {w : World} {g : ℕ} {b : Binding}
    (h : Kept P L w g b) : Now P L w g b := by
  obtain ⟨r, hm, hg, hb⟩ := h
  exact ⟨r, hm.current, hg, hb⟩

theorem Now.wf {P : Prims} {L : Layout} {w : World} {g : ℕ} {b : Binding}
    (h : Now P L w g b) : b.Wf L := by
  obtain ⟨r, -, -, hb⟩ := h
  exact parseBinding_wf hb

theorem Now.unique {P : Prims} {L : Layout} {w : World} {g g' : ℕ} {b b' : Binding}
    (h : Now P L w g b) (h' : Now P L w g' b') : g = g' ∧ b = b' := by
  obtain ⟨r, hr, rfl, hb⟩ := h
  obtain ⟨r', hr', rfl, hb'⟩ := h'
  obtain rfl := hr.unique hr'
  exact ⟨rfl, Option.some.inj (hb.symm.trans hb')⟩

theorem Now.not_vacant {P : Prims} {L : Layout} {w : World} {g : ℕ} {b : Binding}
    (h : Now P L w g b) : ¬Vacant P L w := by
  rintro ⟨ha, hb⟩
  obtain ⟨r, hr, -⟩ := h
  obtain ⟨hv, ⟨h, -⟩ | ⟨h, -⟩⟩ := current_iff.mp hr
  · exact ha.ne_data hv h
  · exact hb.ne_data hv h

theorem Now.congr {P : Prims} {L : Layout} {w w' : World} {g : ℕ} {b : Binding}
    (h : Now P L w g b) (hr : w'.rmem = w.rmem) : Now P L w' g b := by
  obtain ⟨r, hc, hb⟩ := h
  exact ⟨r, hr ▸ hc, hb⟩

theorem Kept.congr {P : Prims} {L : Layout} {w w' : World} {g : ℕ} {b : Binding}
    (h : Kept P L w g b) (hr : w'.rmem = w.rmem) : Kept P L w' g b := by
  obtain ⟨r, hm, hb⟩ := h
  exact ⟨r, hr ▸ hm, hb⟩

theorem Vacant.congr {P : Prims} {L : Layout} {w w' : World} (h : Vacant P L w)
    (hr : w'.rmem = w.rmem) : Vacant P L w' := by
  rw [Vacant, hr]
  exact h

/-- A record of the binding, of whatever generation. -/
def RecordOf (L : Layout) (b : Binding) (d : Bytes) : Prop :=
  parseBinding L (payloadOf d) = some b

/-! ### What the log has seen -/

def Asked (l : List Event) (o : Op) : Prop := ∃ e ∈ l, e.op = o

theorem Asked.mono {l l' : List Event} {o : Op} (h : Asked l o) (hl : l <:+ l') :
    Asked l' o := by
  obtain ⟨e, he, ho⟩ := h
  exact ⟨e, hl.subset he, ho⟩

/-- An M&D call with `data` was made on the slot while it held `old`. -/
def Called (l : List Event) (slot : ℕ) (old data : Bytes) : Prop :=
  ∃ e ∈ l, (∃ site, e.op = .macAndDestroy site slot data) ∧ e.mad slot = old

theorem Called.mono {l l' : List Event} {slot : ℕ} {old data : Bytes}
    (h : Called l slot old data) (hl : l <:+ l') : Called l' slot old data := by
  obtain ⟨e, he, ho⟩ := h
  exact ⟨e, hl.subset he, ho⟩

/-- Two calls that a log has seen do not collide. This is what stands for the
ideal HMAC and M&D functions: on 32-byte values they cannot be injective, but
the calls of one run may well never collide. -/
structure Ideal (P : Prims) (l : List Event) : Prop where
  hmac : ∀ {key msg key' msg'}, Asked l (.hmac key msg) → Asked l (.hmac key' msg') →
    P.hmac key msg = P.hmac key' msg' → key = key' ∧ msg = msg'
  f1 : ∀ {slot old old' data data'}, Called l slot old data → Called l slot old' data' →
    P.f1 data slot = P.f1 data' slot → data = data'
  f2 : ∀ {slot old old' data data'}, Called l slot old data → Called l slot old' data' →
    P.f2 old (P.f1 data slot) slot = P.f2 old' (P.f1 data' slot) slot → old = old'

theorem Ideal.anti {P : Prims} {l l' : List Event} (h : Ideal P l') (hl : l <:+ l') :
    Ideal P l :=
  ⟨fun ha hb => h.hmac (ha.mono hl) (hb.mono hl), fun ha hb => h.f1 (ha.mono hl) (hb.mono hl),
    fun ha hb => h.f2 (ha.mono hl) (hb.mono hl)⟩

def Event.isProbe (e : Event) : Bool :=
  match e.op with
  | .macAndDestroy .probe _ _ => true
  | _ => false

def Event.isRestore (e : Event) : Bool :=
  match e.op with
  | .macAndDestroy .restore _ _ => true
  | _ => false

/-- The PIN attempts on the chip since the last restore. -/
def probes : List Event → ℕ
  | [] => 0
  | e :: l => if e.isRestore then 0 else if e.isProbe then probes l + 1 else probes l

/-- The binding was written for `s` and the material: its tag is the tag of
`s`, and every slot of its range, armed with the `u` of `s`, opens its
ciphertext for this material. The queries that made it are in the log. -/
structure Made (P : Prims) (L : Layout) (l : List Event) (b : Binding) (s mat : Bytes) :
    Prop where
  s_length : s.length = 32
  tag : b.tag = keyTag P s
  ci : ∀ i < L.rounds, b.ci.getD i [] =
    xorBytes s (P.hmac (armedAnswer P s mat (mdSlot L b.range i)) mat)
  asked_tag : Asked l (.hmac s [0x00])
  asked_u : Asked l (.hmac s [0x01])
  asked_v : Asked l (.hmac zeros mat)
  asked_ci : ∀ i < L.rounds,
    Asked l (.hmac (armedAnswer P s mat (mdSlot L b.range i)) mat)
  called : ∀ i < L.rounds, Called l (mdSlot L b.range i)
    (P.f1 (keyU P s) (mdSlot L b.range i)) (pinKey P mat)
  armed : ∀ i < L.rounds, ∃ old, Called l (mdSlot L b.range i) old (keyU P s)

theorem Made.mono {P : Prims} {L : Layout} {l l' : List Event} {b : Binding} {s mat : Bytes}
    (h : Made P L l b s mat) (hl : l <:+ l') : Made P L l' b s mat where
  s_length := h.s_length
  tag := h.tag
  ci := h.ci
  asked_tag := h.asked_tag.mono hl
  asked_u := h.asked_u.mono hl
  asked_v := h.asked_v.mono hl
  asked_ci i hi := (h.asked_ci i hi).mono hl
  called i hi := (h.called i hi).mono hl
  armed i hi := by
    obtain ⟨old, hc⟩ := h.armed i hi
    exact ⟨old, hc.mono hl⟩

/-- The slots from `next` on hold what the `u` of `s` put there. -/
def Armed (P : Prims) (L : Layout) (mad : ℕ → Bytes) (range next : ℕ) (s : Bytes) : Prop :=
  ∀ i, next ≤ i → i < L.rounds →
    mad (mdSlot L range i) = P.f1 (keyU P s) (mdSlot L range i)

/-- Every slot of the range holds what random data put there. -/
def Retired (P : Prims) (L : Layout) (w : World) (range : ℕ) : Prop :=
  ∀ i < L.rounds, ∃ rnd, w.mad (mdSlot L range i) = P.f1 rnd (mdSlot L range i) ∧
    Asked w.log (.macAndDestroy .retire (mdSlot L range i) rnd)

/-! ### The steps -/

/-- Which binding may replace `b`, and whether this reserves an attempt. -/
inductive Turn (P : Prims) (L : Layout) (I : World → Bytes → Bytes → Prop) (w : World)
    (b : Binding) : Binding → Bool → Prop
  | settled (hp : b.retirePending = true) (hret : Retired P L w (1 - b.range)) :
      Turn P L I w b { b with retirePending := false } false
  | reserved (hp : b.retirePending = false) (hn : b.next < L.rounds) :
      Turn P L I w b { b with next := b.next + 1 } true
  | restored {s : Bytes} (hp : b.retirePending = false) (htag : keyTag P s = b.tag)
      (hasked : Asked w.log (.hmac s [0x00])) (harmed : Armed P L w.mad b.range 0 s)
      (hprobes : probes w.log = 0) : Turn P L I w b { b with next := 0 } false
  | switched {b' : Binding} {s mat : Bytes} (hp : b.retirePending = false)
      (hr : L.ranges = 2) (hrange : b'.range = 1 - b.range) (hnext : b'.next = 0)
      (hmade : Made P L w.log b' s mat) (harmed : Armed P L w.mad b'.range 0 s)
      (hI : I w s mat) : Turn P L I w b b' false

/-- A range no binding uses. -/
def Free (P : Prims) (L : Layout) (w : World) (range : ℕ) : Prop :=
  Vacant P L w ∧ range = 0 ∨
    ∃ g b, Now P L w g b ∧ b.retirePending = false ∧ L.ranges = 2 ∧ range = 1 - b.range

/-- Which M&D calls may be made, with or without a reserved attempt. -/
inductive MadOk (P : Prims) (L : Layout) (w : World) : Bool → MdSite → ℕ → Bytes → Prop
  | retire {c : Bool} {g : ℕ} {b : Binding} {i : ℕ} {data : Bytes} (hb : Now P L w g b)
      (hp : b.retirePending = true) (hi : i < L.rounds) :
      MadOk P L w c .retire (mdSlot L (1 - b.range) i) data
  | arm {c : Bool} {range i : ℕ} {data : Bytes} (hfree : Free P L w range)
      (hi : i < L.rounds) : MadOk P L w c .arm (mdSlot L range i) data
  | probe {g : ℕ} {b : Binding} {i : ℕ} {data : Bytes} (hb : Kept P L w g b)
      (hp : b.retirePending = false) (hn : b.next = i + 1) (hi : i < L.rounds) :
      MadOk P L w true .probe (mdSlot L b.range i) data
  | restore {c : Bool} {g : ℕ} {b : Binding} {s : Bytes} {i : ℕ} (hb : Kept P L w g b)
      (hp : b.retirePending = false) (htag : keyTag P s = b.tag)
      (hasked : Asked w.log (.hmac s [0x00])) (hi : i < L.rounds) :
      MadOk P L w c .restore (mdSlot L b.range i) (keyU P s)

/-- One step: on the chip, and on the flag that says whether an attempt is
reserved. -/
inductive PinStep (P : Prims) (L : Layout) (I : World → Bytes → Bytes → Prop) :
    World × Bool → World × Bool → Prop
  | pair {w w' : World} {c : Bool} {o : Option Bytes} (ho : Holds P L.record w.rmem o)
      (ht : Touches L.record (fun d => o = some d) w w') (ho' : Holds P L.record w'.rmem o) :
      PinStep P L I (w, c) (w', c)
  | turn {w w' : World} {c c' d : Bool} {g : ℕ} {b b' : Binding} (hb : Now P L w g b)
      (hturn : Turn P L I w b b' c')
      (ht : Touches L.record (fun d => RecordOf L b d ∨ RecordOf L b' d) w w')
      -- an interrupted write may leave the old record in place
      (hb' : Now P L w' (g + 1) b' ∧ d = c' ∨ Now P L w' g b ∧ d = c) :
      PinStep P L I (w, c) (w', d)
  | first {w w' : World} {c : Bool} {b : Binding} {s mat : Bytes} (ho : Vacant P L w)
      (hrange : b.range = 0) (hp : b.retirePending = false) (hnext : b.next = 0)
      (hmade : Made P L w.log b s mat) (harmed : Armed P L w.mad 0 0 s) (hI : I w s mat)
      (ht : Touches L.record (RecordOf L b) w w') (hb : Now P L w' 1 b ∨ Vacant P L w') :
      PinStep P L I (w, c) (w', false)
  | hmac {w : World} {c : Bool} (key msg : Bytes) :
      PinStep P L I (w, c) (w.note (.hmac key msg), c)
  | random {w : World} {c : Bool} (len n : ℕ) :
      PinStep P L I (w, c) ((w.note (.random len)).spend n, c)
  | mad {w : World} {c : Bool} {site : MdSite} {slot : ℕ} {data x : Bytes}
      (hok : MadOk P L w c site slot data) (hx : x = w.mad slot ∨ x = P.f1 data slot) :
      PinStep P L I (w, c) ((w.note (.macAndDestroy site slot data)).setMad slot x,
        c && decide (site ≠ .probe ∧ site ≠ .restore))

/-- Any number of steps. -/
abbrev PinPath (P : Prims) (L : Layout) (I : World → Bytes → Bytes → Prop) :=
  Relation.ReflTransGen (PinStep P L I)

/-- Steps from one chip state to another, whatever the flag was. -/
def Via (P : Prims) (L : Layout) (I : World → Bytes → Bytes → Prop) (w w' : World) : Prop :=
  ∀ c, ∃ c', PinPath P L I (w, c) (w', c')

section Via

variable {P : Prims} {L : Layout} {I : World → Bytes → Bytes → Prop} {w w' w'' : World}

theorem Via.refl (w : World) : Via P L I w w := fun c => ⟨c, .refl⟩

theorem Via.trans (h : Via P L I w w') (h' : Via P L I w' w'') : Via P L I w w'' := by
  intro c
  obtain ⟨c', hc⟩ := h c
  obtain ⟨c'', hc'⟩ := h' c'
  exact ⟨c'', hc.trans hc'⟩

theorem Via.of_step {c' : Bool} (h : ∀ c, PinStep P L I (w, c) (w', c')) : Via P L I w w' :=
  fun c => ⟨c', .single (h c)⟩

theorem Via.of_keep (h : ∀ c, PinStep P L I (w, c) (w', c)) : Via P L I w w' :=
  fun c => ⟨c, .single (h c)⟩

/-- No step shortens the log. -/
theorem PinStep.log {x y : World × Bool} (h : PinStep P L I x y) : x.1.log <:+ y.1.log := by
  cases h with
  | pair ho ht ho' =>
      obtain ⟨l, hl, -⟩ := ht.log
      exact ⟨l, hl.symm⟩
  | turn hb hturn ht hb' =>
      obtain ⟨l, hl, -⟩ := ht.log
      exact ⟨l, hl.symm⟩
  | first ho hrange hp hnext hmade harmed hI ht hb =>
      obtain ⟨l, hl, -⟩ := ht.log
      exact ⟨l, hl.symm⟩
  | hmac key msg => exact List.suffix_cons _ _
  | random len n => exact List.suffix_cons _ _
  | mad hok hx => exact List.suffix_cons _ _

theorem PinPath.log {x y : World × Bool} (h : PinPath P L I x y) : x.1.log <:+ y.1.log := by
  induction h with
  | refl => exact List.suffix_rfl
  | tail _ hstep ih => exact ih.trans hstep.log

theorem Via.log (h : Via P L I w w') : w.log <:+ w'.log := by
  obtain ⟨c', hpath⟩ := h false
  exact hpath.log

end Via

end Nixtropic
