import Nixtropic.Cbor.Places
import Nixtropic.Fido.ReaderBounds

/-!
What `cbor_validate` accepts, and what `cbor_reader_skip` does on it.

Both walkers read an item that stands at the front of the bytes left, to its
last byte: `skip_item` when its arrays and maps are at most 16 deep in each
other, `validate_item` when they are at most as deep as the levels left. And what
`validate_item` reads is such an item, but for simple values below 32 in the byte
after the head, which the RFC does not allow.
-/

namespace Nixtropic.Fido

open Cbor Rd

variable {b : Buffer} {r r' : Reader} {d : ℕ}

/-- What can be read with at most `d` arrays and maps in each other: every length definite, no
tags, and no head of eight bytes above `SIZE_MAX`. -/
structure Readable (d : ℕ) (t : Item) : Prop where
  plain : t.Plain
  heads : t.HeadsBelow (2 ^ 32)
  depth : t.depth ≤ d

theorem Readable.mono {d d' : ℕ} {t : Item} (h : Readable d t) (hd : d ≤ d') : Readable d' t :=
  ⟨h.plain, h.heads, h.depth.trans hd⟩

/-- The items of an array or map have one level less. -/
theorem Readable.item {k : Box} {w : Width} {xs : List Item} {x : Item}
    (h : Readable (d + 1) (.box k w xs)) (hx : x ∈ xs) : Readable d x :=
  ⟨Item.allIn_iff.mp h.plain.2 x hx, Item.allIn_iff.mp h.heads.2 x hx,
    Item.depthAll_le.mp (Nat.le_of_succ_le_succ h.depth) x hx⟩

/-! ### Heads -/

/-- A head that stands there is read. -/
theorem readHead_encode (hr : InBuffer b r) (he : r.err = false) {g : Head} {s : Bytes}
    (hs : r.rest = g.encode ++ s) (hf : g.Fits) (h8 : g.width = .eight → g.val < 2 ^ 32) :
    cborReaderReadHead r = .ok (g.major, g.val) (r.adv g.encode.length) := by
  have hdec : decodeHead r.rest = some (g, s) := by rw [hs, decodeHead_encode hf]
  rcases readHead_cases hr he with ⟨g', ⟨⟨s', hs'⟩, -⟩, h⟩ | ⟨hno, -⟩
  · rw [hdec] at hs'
    obtain ⟨rfl, rfl⟩ := Prod.mk.inj (Option.some.inj hs')
    exact h
  · refine absurd ⟨⟨s, hdec⟩, fun hw => ?_⟩ (hno g)
    have := h8 hw
    unfold sizeMax
    omega

/-- A head that is read stands there. -/
theorem head_of_readHead (hr : InBuffer b r) (he : r.err = false) {mt v : ℕ}
    (h : cborReaderReadHead r = .ok (mt, v) r') :
    ∃ w, (⟨mt, w, v⟩ : Head).Fits ∧ (w = .eight → v < 2 ^ 32) ∧
      r' = r.adv (w.bytes + 1) ∧ r.rest = Head.encode ⟨mt, w, v⟩ ++ r'.rest := by
  rcases readHead_cases hr he with ⟨⟨m, w, v'⟩, ⟨⟨s, hs⟩, h8⟩, hok⟩ | ⟨-, r'', -, hfail⟩
  · rw [hok] at h
    injection h with h h'
    obtain ⟨rfl, rfl⟩ := Prod.mk.inj h
    obtain ⟨hf, hrest⟩ := encode_of_decodeHead hs
    refine ⟨w, hf, fun hw => ?_, ?_, ?_⟩
    · have h := h8 hw
      unfold sizeMax at h
      exact Nat.lt_of_le_of_lt h (by decide)
    · rw [← h', Head.encode_length]
    · rw [← h', Reader.rest_adv_of_append hrest, hrest]
  · rw [hfail] at h
    cases h

/-! ### Reading an item that stands there -/

/-- `f` reads every item of at most `d` levels that stands at the front of the bytes left, to
its last byte. -/
def Walks (b : Buffer) (f : Rd Unit Unit) (d : ℕ) : Prop :=
  ∀ r x s, InBuffer b r → r.err = false → r.rest = x.encode ++ s → Readable d x →
    f r = .ok () (r.adv x.encode.length)

/-- A loop over the items of an array or map reads them all. -/
theorem Walks.times {f : Rd Unit Unit} (hf : Walks b f d) {xs : List Item} {s : Bytes}
    (hr : InBuffer b r) (he : r.err = false) (hs : r.rest = Item.encodeAll xs ++ s)
    (hxs : ∀ x ∈ xs, Readable d x) :
    times f xs.length r = .ok () (r.adv (Item.encodeAll xs).length) := by
  induction xs generalizing r with
  | nil => rfl
  | cons x xs ih =>
      have hs' : r.rest = x.encode ++ (Item.encodeAll xs ++ s) := by
        rw [hs, Item.encodeAll, List.append_assoc]
      have hx := hf r x _ hr he hs' (hxs x List.mem_cons_self)
      rw [List.length_cons, Rd.times, bind_ok hx,
        ih (hr.adv_of_append hs') he (Reader.rest_adv_of_append hs')
          fun y hy => hxs y (List.mem_cons_of_mem x hy),
        Reader.adv_adv, Item.encodeAll, List.length_append]

theorem bind_assoc {ε α β γ : Type} (f : Rd ε α) (g : α → Rd ε β) (h : β → Rd ε γ) :
    f >>= g >>= h = f >>= fun a => g a >>= h := by
  funext r
  simp only [bind_run]
  cases f r with
  | ok a s => rfl
  | fail e s => rfl
  | fault => rfl

/-- Keys and values, pair by pair, are the items one by one. -/
theorem times_pairs (f : Rd Unit Unit) (n : ℕ) :
    times (do f; f) n = times f (2 * n) := by
  induction n with
  | zero => rfl
  | succ n ih =>
      show ((f >>= fun _ => f) >>= fun _ => times (do f; f) n) =
        f >>= fun _ => f >>= fun _ => times f (2 * n)
      rw [ih, bind_assoc]

theorem skipRun_run (hr : InBuffer b r) (v : ℕ) :
    skipRun v r = if r.rest.length < v then .fail () { r with err := true }
      else .ok () (r.adv v) := by
  have h := takeRun_run hr v
  by_cases hv : r.rest.length < v
  · rw [if_pos hv] at h ⊢
    exact bind_fail h
  · rw [if_neg hv] at h ⊢
    exact bind_ok h

/-- A string that stands there is passed over. -/
theorem skipRun_append (hr : InBuffer b r) {s t : Bytes} (hs : r.rest = s ++ t) :
    skipRun s.length r = .ok () (r.adv s.length) := by
  rw [skipRun_run hr, if_neg (by simp [hs])]

/-- A walker that reads the head, returns after an integer, a simple value or a float, passes
over the bytes of a string, and reads the `n` items of an array or map whose head says `v` with
`items v n`. -/
theorem walks_of_head (items : ℕ → ℕ → Rd Unit Unit) {f : Rd Unit Unit}
    {body : ℕ × ℕ → Rd Unit Unit}
    (hf : f = cborReaderReadHead >>= body)
    (hatom : ∀ (k : Atom) v, body (k.major, v) = pure ())
    (hstr : ∀ (k : Str) v, body (k.major, v) = skipRun v)
    (hmany : ∀ (k : Box) v, body (k.major, v) = items v (k.items v))
    (hbox : ∀ (k : Box) w xs s r, InBuffer b r → r.err = false →
      r.rest = Item.encodeAll xs ++ s → Readable d (.box k w xs) →
      items (k.count xs.length) xs.length r = .ok () (r.adv (Item.encodeAll xs).length)) :
    Walks b f d := by
  intro r x s hr he hs hx
  -- the head is read first
  have hhead (g : Head) (t : Bytes) (ht : r.rest = g.encode ++ t) (hg : g.Fits)
      (h8 : g.width = .eight → g.val < 2 ^ 32) :
      f r = body (g.major, g.val) (r.adv g.encode.length) := by
    rw [hf, bind_ok (readHead_encode hr he ht hg h8)]
  cases x with
  | atom k w v =>
      rw [hhead ⟨k.major, w, v⟩ s hs ⟨k.major_lt, hx.plain⟩ hx.heads, hatom]
      rfl
  | str k w t =>
      have hs' : r.rest = Head.encode ⟨k.major, w, t.length⟩ ++ (t ++ s) := by
        rw [hs, Item.encode, List.append_assoc]
      rw [hhead _ _ hs' ⟨k.major_lt, hx.plain⟩ hx.heads, hstr,
        skipRun_append (hr.adv_of_append hs') (Reader.rest_adv_of_append hs'), Reader.adv_adv,
        Item.encode, List.length_append]
  | box k w xs =>
      have hs' : r.rest = Head.encode ⟨k.major, w, k.count xs.length⟩ ++
          (Item.encodeAll xs ++ s) := by
        rw [hs, Item.encode, List.append_assoc]
      have hitems : k.items (k.count xs.length) = xs.length := hx.plain.1.2
      rw [hhead _ _ hs' ⟨k.major_lt, hx.plain.1.1⟩ hx.heads.1, hmany, hitems,
        hbox k w xs s _ (hr.adv_of_append hs') he (Reader.rest_adv_of_append hs') hx,
        Reader.adv_adv, Item.encode, List.length_append]
  | tag => exact absurd hx.plain.1 id
  | strOpen => exact absurd hx.plain id
  | boxOpen => exact absurd hx.plain.1 id

/-- `skip_item` reads the items of as many levels as it has left below itself. -/
theorem walks_skipItem (d : ℕ) : Walks b (skipItem (d + 1)) d := by
  have hbody (item : Rd Unit Unit) (d : ℕ)
      (hbox : ∀ (k : Box) w xs s r, InBuffer b r → r.err = false →
        r.rest = Item.encodeAll xs ++ s → Readable d (.box k w xs) →
        times item xs.length r = .ok () (r.adv (Item.encodeAll xs).length)) :
      Walks b (skipBody item) d := by
    refine walks_of_head (fun _ n => times item n) rfl (fun k v => by cases k <;> rfl)
      (fun k v => by cases k <;> rfl) ?_ hbox
    intro k v
    cases k with
    | array => rfl
    | map => exact times_pairs item v
  induction d with
  | zero =>
      refine hbody _ 0 ?_
      intro k w xs s r _ _ _ hx
      exact absurd hx.depth (Nat.not_succ_le_zero _)
  | succ d ih =>
      refine hbody _ (d + 1) ?_
      intro k w xs s r hr he hs hx
      exact ih.times hr he hs fun x hm => hx.item hm

theorem validateItems_run (hr : InBuffer b r) {item : Rd Unit Unit} {v n : ℕ}
    (hv : v ≤ r.rest.length) : validateItems item v n r = times item n r := by
  rw [validateItems, bind_ok (bytesLeft_run hr), if_neg (Nat.not_lt.mpr hv)]

/-- `validate_item` reads the items of as many levels as it has left. -/
theorem walks_validateItem (d : ℕ) : Walks b (validateItem d) d := by
  have hbody (items : ℕ → ℕ → Rd Unit Unit) (d : ℕ)
      (hbox : ∀ (k : Box) w xs s r, InBuffer b r → r.err = false →
        r.rest = Item.encodeAll xs ++ s → Readable d (.box k w xs) →
        items (k.count xs.length) xs.length r = .ok () (r.adv (Item.encodeAll xs).length)) :
      Walks b (validateBody items) d :=
    walks_of_head items rfl (fun k v => by cases k <;> rfl) (fun k v => by cases k <;> rfl)
      (fun k v => by cases k <;> rfl) hbox
  induction d with
  | zero =>
      refine hbody _ 0 ?_
      intro k w xs s r _ _ _ hx
      exact absurd hx.depth (Nat.not_succ_le_zero _)
  | succ d ih =>
      refine hbody _ (d + 1) ?_
      intro k w xs s r hr he hs hx
      -- the count is not larger than the number of bytes left
      have hcount : k.count xs.length ≤ r.rest.length := by
        have h₁ := k.count_le xs.length
        have h₂ := Item.length_le_encodeAll xs
        rw [hs, List.length_append]
        omega
      rw [validateItems_run hr hcount]
      exact ih.times hr he hs fun x hm => hx.item hm

/-! ### What is read is an item -/

/-- What `f` passes over is an item of at most `d` levels. -/
def Finds (b : Buffer) (f : Rd Unit Unit) (d : ℕ) : Prop :=
  ∀ r r', InBuffer b r → r.err = false → f r = .ok () r' →
    ∃ x, Readable d x ∧ r.rest = x.encode ++ r'.rest ∧ r' = r.adv x.encode.length

theorem Finds.times {f : Rd Unit Unit} (hf : Finds b f d) {n : ℕ} (hr : InBuffer b r)
    (he : r.err = false) (h : times f n r = .ok () r') :
    ∃ xs, xs.length = n ∧ (∀ x ∈ xs, Readable d x) ∧ r.rest = Item.encodeAll xs ++ r'.rest ∧
      r' = r.adv (Item.encodeAll xs).length := by
  induction n generalizing r with
  | zero =>
      injection h with _ h
      exact ⟨[], rfl, by simp, by rw [h]; rfl, h.symm⟩
  | succ n ih =>
      obtain ⟨_, r₁, h₁, h₂⟩ := ok_of_bind h
      obtain ⟨x, hx, hs, rfl⟩ := hf r r₁ hr he h₁
      obtain ⟨xs, hn, hxs, hs', rfl⟩ := ih (hr.adv_of_append hs) he h₂
      refine ⟨x :: xs, by simp [hn], List.forall_mem_cons.mpr ⟨hx, hxs⟩, ?_, ?_⟩
      · rw [hs, hs', Item.encodeAll, List.append_assoc]
      · rw [Reader.adv_adv, Item.encodeAll, List.length_append]

theorem finds_validateBody {items : ℕ → ℕ → Rd Unit Unit}
    (hbox : ∀ (k : Box) w v r r', InBuffer b r → r.err = false → v < w.bound →
      (w = .eight → v < 2 ^ 32) → items v (k.items v) r = .ok () r' →
      ∃ xs, k.count xs.length = v ∧ Readable d (.box k w xs) ∧
        r.rest = Item.encodeAll xs ++ r'.rest ∧ r' = r.adv (Item.encodeAll xs).length) :
    Finds b (validateBody items) d := by
  intro r r' hr he h
  obtain ⟨⟨mt, v⟩, r₁, h₁, h₂⟩ := ok_of_bind h
  obtain ⟨w, hf, h8, rfl, hs⟩ := head_of_readHead hr he h₁
  have hin : InBuffer b (r.adv (w.bytes + 1)) := by
    have := hr.adv_of_append hs
    rwa [Head.encode_length] at this
  -- the three kinds of items
  have hatom (k : Atom) (hk : mt = k.major) (h : (pure () : Rd Unit Unit) (r.adv (w.bytes + 1)) =
      .ok () r') : ∃ x, Readable d x ∧ r.rest = x.encode ++ r'.rest ∧
        r' = r.adv x.encode.length := by
    injection h with _ h
    subst hk
    refine ⟨.atom k w v, ⟨hf.val, h8, Nat.zero_le d⟩, ?_, ?_⟩
    · rw [hs, h]
      rfl
    · rw [← h, Item.encode, Head.encode_length]
  have hstr (k : Str) (hk : mt = k.major) (h : skipRun v (r.adv (w.bytes + 1)) = .ok () r') :
      ∃ x, Readable d x ∧ r.rest = x.encode ++ r'.rest ∧ r' = r.adv x.encode.length := by
    rw [skipRun_run hin] at h
    split at h
    · cases h
    · rename_i hlen
      injection h with _ h
      subst hk
      have hl : ((r.adv (w.bytes + 1)).rest.take v).length = v := by
        rw [List.length_take]
        omega
      have hfit : ((r.adv (w.bytes + 1)).rest.take v).length < w.bound := hl.symm ▸ hf.val
      have height : w = .eight → ((r.adv (w.bytes + 1)).rest.take v).length < 2 ^ 32 :=
        hl.symm ▸ h8
      refine ⟨.str k w ((r.adv (w.bytes + 1)).rest.take v), ⟨hfit, height, Nat.zero_le d⟩, ?_, ?_⟩
      · rw [Item.encode, hl, ← h, Reader.rest_adv (r.adv _), List.append_assoc,
          List.take_append_drop]
        exact hs
      · rw [← h, Item.encode, List.length_append, hl, Head.encode_length, Reader.adv_adv]
  have hmany (k : Box) (hk : mt = k.major) (h : items v (k.items v) (r.adv (w.bytes + 1)) =
      .ok () r') : ∃ x, Readable d x ∧ r.rest = x.encode ++ r'.rest ∧
        r' = r.adv x.encode.length := by
    subst hk
    obtain ⟨xs, hc, hx, hs', hr'⟩ := hbox k w v _ _ hin he hf.val h8 h
    refine ⟨.box k w xs, hx, ?_, ?_⟩
    · rw [Item.encode, hc, List.append_assoc, ← hs']
      exact hs
    · rw [hr', Item.encode, hc, List.length_append, Head.encode_length, Reader.adv_adv]
  dsimp only at h₂
  split at h₂
  · exact hatom .uint rfl h₂
  · exact hatom .nint rfl h₂
  · exact hatom .simple rfl h₂
  · exact hstr .bytes rfl h₂
  · exact hstr .text rfl h₂
  · exact hmany .array rfl h₂
  · exact hmany .map rfl h₂
  · cases h₂

theorem finds_validateItem (d : ℕ) : Finds b (validateItem d) d := by
  induction d with
  | zero => exact finds_validateBody fun _ _ _ _ _ _ _ _ _ h => by cases h
  | succ d ih =>
      refine finds_validateBody fun k w v r r' hr he hfit h8 h => ?_
      rw [validateItems, bind_ok (bytesLeft_run hr)] at h
      split at h
      · cases h
      · obtain ⟨xs, hn, hxs, hs, hr'⟩ := ih.times hr he h
        have hc : k.count xs.length = v := by rw [hn, k.count_items]
        refine ⟨xs, hc, ⟨?_, ?_, ?_⟩, hs, hr'⟩
        · exact ⟨⟨hc.symm ▸ hfit, by rw [hc, hn]⟩, Item.allIn_iff.mpr fun x hx => (hxs x hx).plain⟩
        · refine ⟨fun hw => ?_, Item.allIn_iff.mpr fun x hx => (hxs x hx).heads⟩
          rw [hc]
          exact h8 hw
        · exact Nat.succ_le_succ (Item.depthAll_le.mpr fun x hx => (hxs x hx).depth)

/-! ### `cbor_validate` -/

/-- The strings `cbor_validate` accepts are the encodings of the items it can read. -/
theorem cborValidate_iff (b : Buffer) :
    cborValidate b.bytes = some 0 ↔ ∃ t, t.encode = b.bytes ∧ Readable cborMaxDepth t := by
  have hin := inBuffer_init b
  have hrest : (cborReaderInit b.bytes).rest = b.bytes := rfl
  constructor
  · intro h
    unfold cborValidate at h
    cases hv : validateWhole (cborReaderInit b.bytes) with
    | fail e r => simp [hv, Out.code] at h
    | fault => simp [hv, Out.code] at h
    | ok a r =>
        obtain ⟨_, r₁, h₁, h₂⟩ := ok_of_bind hv
        obtain ⟨t, ht, hs, rfl⟩ := finds_validateItem cborMaxDepth _ _ hin rfl h₁
        rw [reader_bind] at h₂
        split at h₂
        · rename_i hpos
          refine ⟨t, ?_, ht⟩
          rw [hrest] at hs
          have hnil : ((cborReaderInit b.bytes).adv t.encode.length).rest = [] := by
            apply List.eq_nil_of_length_eq_zero
            rw [Reader.rest_length, hpos, Nat.sub_self]
          rw [hs, hnil, List.append_nil]
        · cases h₂
  · rintro ⟨t, ht, hread⟩
    have hs : (cborReaderInit b.bytes).rest = t.encode ++ [] := by
      rw [List.append_nil, ht, hrest]
    have hrun := walks_validateItem cborMaxDepth _ t [] hin rfl hs hread
    have hpos : ((cborReaderInit b.bytes).adv t.encode.length).pos =
        ((cborReaderInit b.bytes).adv t.encode.length).len := by
      show 0 + t.encode.length = b.bytes.length
      rw [ht, Nat.zero_add]
    unfold cborValidate validateWhole
    rw [bind_ok hrun, reader_bind, if_pos hpos]
    rfl

/-- The grammar: one well-formed item of RFC 8949 and no byte after it, with definite lengths
and no tags, at most four arrays and maps in each other, and no value above 2^32 - 1 in a head of
eight bytes. -/
def InGrammar (s : Bytes) : Prop :=
  ∃ t : Item, t.encode = s ∧ t.WellFormed ∧ t.Definite ∧ t.Untagged ∧ t.depth ≤ 4 ∧
    t.HeadsBelow (2 ^ 32)

/-- The string would be in the grammar if the RFC allowed simple values below 32 in the byte
after the head, and it has one of them. -/
def LowSimple (s : Bytes) : Prop :=
  ∃ t : Item, t.encode = s ∧ t.All Item.FitsHere ∧ ¬t.All Item.SimpleHere ∧ t.Definite ∧
    t.Untagged ∧ t.depth ≤ 4 ∧ t.HeadsBelow (2 ^ 32)

/-- `cbor_validate` accepts the grammar exactly on the strings without such a simple value. -/
theorem cborValidate_grammar (b : Buffer) :
    (cborValidate b.bytes = some 0 ↔ InGrammar b.bytes) ↔ ¬LowSimple b.bytes := by
  rw [cborValidate_iff]
  constructor
  · rintro h ⟨t, ht, hfits, hlow, hdef, htags, hd, h32⟩
    have hp : t.Plain := Item.plain_iff.mpr ⟨hfits, hdef, htags⟩
    obtain ⟨u, hu, hwf, hdef', htags', -, -⟩ := h.mp ⟨t, ht, hp, h32, hd⟩
    have hup : u.Plain := Item.plain_iff.mpr ⟨hwf.fits, hdef', htags'⟩
    -- the string is the encoding of one item only
    have heq : t.encode ++ [] = u.encode ++ [] := by rw [ht, hu]
    obtain ⟨rfl, -⟩ := Item.encode_injective hp hup heq
    exact hlow hwf.simple
  · intro hlow
    constructor
    · rintro ⟨t, ht, hr⟩
      obtain ⟨hfits, hdef, htags⟩ := Item.plain_iff.mp hr.plain
      refine ⟨t, ht, ⟨hfits, ?_⟩, hdef, htags, hr.depth, hr.heads⟩
      by_contra hs
      exact hlow ⟨t, ht, hfits, hs, hdef, htags, hr.depth, hr.heads⟩
    · rintro ⟨t, ht, hwf, hdef, htags, hd, h32⟩
      exact ⟨t, ht, Item.plain_iff.mpr ⟨hwf.fits, hdef, htags⟩, h32, hd⟩

/-- The two bytes `f8 00` are accepted, and they are no item of the RFC. -/
theorem cborValidate_low_simple :
    ¬∀ b : Buffer, cborValidate b.bytes = some 0 ↔ InGrammar b.bytes := by
  intro h
  let t : Item := .atom .simple .one 0
  have ht : t.Plain := by
    show 0 < Width.bound .one
    decide
  let b : Buffer := ⟨[0xf8, 0x00], by decide⟩
  have hacc : cborValidate b.bytes = some 0 := by decide +kernel
  obtain ⟨u, hu, hwf, hdef, htags, -, -⟩ := (h b).mp hacc
  have hup : u.Plain := Item.plain_iff.mpr ⟨hwf.fits, hdef, htags⟩
  have heq : t.encode ++ [] = u.encode ++ [] := by
    rw [hu]
    rfl
  obtain ⟨rfl, -⟩ := Item.encode_injective ht hup heq
  exact absurd hwf.simple (by decide : ¬32 ≤ 0)

/-! ### `cbor_reader_skip` -/

/-- Skipping the item that starts at a place of an accepted string. -/
theorem cborReaderSkip_occurs {t x : Item} {pre post : Bytes} (ht : t.encode = b.bytes)
    (hr : Readable cborMaxDepth t) (hx : t.Occurs pre x post) :
    cborReaderSkip ⟨b.bytes, pre.length, false⟩ =
      .ok () ⟨b.bytes, pre.length + x.encode.length, false⟩ := by
  have hb : b.bytes = pre ++ (x.encode ++ post) := by rw [← ht, hx.encode]
  let r : Reader := ⟨b.bytes, pre.length, false⟩
  have hin : InBuffer b r := ⟨rfl, by show pre.length ≤ b.bytes.length; simp [hb]⟩
  have hrest : r.rest = x.encode ++ post := by
    show b.bytes.drop pre.length = _
    rw [hb, List.drop_left]
  have hread : Readable cborSkipMaxDepth x :=
    ⟨hx.all hr.plain, hx.all hr.heads, (hx.depth.trans hr.depth).trans (by decide)⟩
  exact walks_skipItem cborSkipMaxDepth r x post hin rfl hrest hread

/-- On a string that `cbor_validate` accepts, `cbor_reader_skip` passes over the item that
starts at any place of it, and ends where that item ends: at the end of the string or where
another item starts. On any string whatever, no reader function reads outside it, whatever was
called before. -/
theorem cborReaderSkip_agrees (b : Buffer) :
    (cborValidate b.bytes = some 0 →
      ∃ t : Item, t.encode = b.bytes ∧ Readable cborMaxDepth t ∧
        ∀ (pre : Bytes) (x : Item) (post : Bytes), t.Occurs pre x post →
        cborReaderSkip ⟨b.bytes, pre.length, false⟩ =
          .ok () ⟨b.bytes, pre.length + x.encode.length, false⟩ ∧
        pre.length + x.encode.length ≤ b.bytes.length ∧
        (pre.length + x.encode.length = b.bytes.length ∨
          ∃ y post', t.Occurs (pre ++ x.encode) y post')) ∧
    (∀ r calls, InBuffer b r → ∃ replies r', performAll calls r = some (replies, r') ∧
      r'.buf = b.bytes ∧ r'.pos ≤ r'.len ∧ ∀ a, some a ∈ replies → a.In b) ∧
    (validateWhole (cborReaderInit b.bytes)).Stays b fun _ => True := by
  refine ⟨fun hacc => ?_, fun r calls hr => ?_, ?_⟩
  · obtain ⟨t, ht, hr⟩ := (cborValidate_iff b).mp hacc
    refine ⟨t, ht, hr, fun pre x post hx => ⟨cborReaderSkip_occurs ht hr hx, ?_, ?_⟩⟩
    · rw [← ht, hx.encode, List.length_append, List.length_append]
      omega
    · rcases hx.next hr.plain with rfl | hnext
      · left
        rw [← ht, hx.encode, List.append_nil, List.length_append]
      · exact .inr hnext
  · obtain ⟨replies, r', h, hr', hin⟩ := performAll_stays calls hr
    exact ⟨replies, r', h, hr'.buf, hr'.pos, hin⟩
  · exact stays_validateWhole _ (inBuffer_init b)

/-- On `{1: [2, 3]}` it passes over the array. -/
theorem cborReaderSkip_agrees_map :
    let b : Buffer := ⟨[0xa1, 0x01, 0x82, 0x02, 0x03], by decide⟩
    (∃ t : Item, t.encode = b.bytes ∧ ∀ (pre : Bytes) (x : Item) (post : Bytes),
      t.Occurs pre x post → cborReaderSkip ⟨b.bytes, pre.length, false⟩ =
        .ok () ⟨b.bytes, pre.length + x.encode.length, false⟩) ∧
    cborReaderSkip ⟨b.bytes, 2, false⟩ = .ok () ⟨b.bytes, 5, false⟩ := by
  intro b
  obtain ⟨t, ht, -, h⟩ := (cborReaderSkip_agrees b).1 (by decide +kernel)
  exact ⟨⟨t, ht, fun pre x post hx => (h pre x post hx).1⟩, by decide +kernel⟩

end Nixtropic.Fido
