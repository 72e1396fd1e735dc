import Nixtropic.Fido.ReaderItems
import Nixtropic.Fido.Writer

/-!
Writing a tree with the `cbor_write_*` functions and reading it back.

A tree is written member by member with no look at the results, as the commands
do; the error is read at the end. It is read by a caller that peeks at the major
type and takes the reader for it.
-/

namespace Nixtropic.Fido

open Cbor Rd

variable {b : Buffer} {r : Reader} {d : ℕ}

/-! ### Writing -/

mutual

/-- The calls that write a tree. There is none for the other simple values and for floats. -/
def writeValue : Value → Writer → Writer
  | .uint n, w => (cborWriteUint n w).2
  | .nint n, w => (cborWriteNegint (-1 - n) w).2
  | .bytes s, w => (cborWriteByteString s w).2
  | .text s, w => (cborWriteText (s ++ [0]) w).2
  | .array xs, w => writeItems xs (cborWriteArrayHeader xs.length w).2
  | .map ms, w => writeMembers ms (cborWriteMapHeader ms.length w).2
  | .bool v, w => (cborWriteBool v w).2
  | .null, w => (cborWriteNull w).2
  | .simple _, w => w
  | .float _ _, w => w

def writeItems : List Value → Writer → Writer
  | [], w => w
  | x :: xs, w => writeItems xs (writeValue x w)

def writeMembers : List (Value × Value) → Writer → Writer
  | [], w => w
  | m :: ms, w => writeMembers ms (writePair m w)

def writePair : Value × Value → Writer → Writer
  | (k, v), w => writeValue v (writeValue k w)

end

/-- What the writers can write: integers of 32 bits on each side of zero, byte strings, texts
without a zero byte, booleans and null. -/
def WritableHere : Value → Prop
  | .uint n => n < 2 ^ 32
  | .nint n => n < 2 ^ 32
  | .text s => 0 ∉ s
  | .simple _ => False
  | .float _ _ => False
  | _ => True

/-- A tree of these, with at most four arrays and maps in each other. -/
structure Writable (t : Value) : Prop where
  here : t.All WritableHere
  depth : t.depth ≤ cborMaxDepth

/-- The calls append the encoding with the shortest heads. -/
theorem adds_writeValue {t : Value} (h : t.All WritableHere) :
    Writer.Adds (writeValue t) t.item.encode := by
  induction t with
  | uint n => exact (Writer.appends_putHead (by decide) n).adds
  | nint n =>
      have hn := Writer.appends_writeNegint n
      rw [cborNegint, Writer.putHead_eq_encode] at hn
      exact hn.adds
  | bytes s =>
      have hs := Writer.appends_writeByteString s
      rw [cborByteString, Writer.putHead_eq_encode] at hs
      exact hs.adds
  | text s =>
      have hs := Writer.appends_writeText (s := s) h []
      rw [cborText, Writer.putHead_eq_encode] at hs
      exact hs.adds
  | array xs ih =>
      have hxs := Value.allIn_iff.mp h.2
      have hlen : (Value.items xs).length = xs.length := by rw [Value.items_eq, List.length_map]
      have hitems : Writer.Adds (writeItems xs) (Item.encodeAll (Value.items xs)) := by
        clear hlen h
        induction xs with
        | nil => exact Writer.Adds.id
        | cons x xs ihxs =>
            exact (ih x List.mem_cons_self (hxs x List.mem_cons_self)).comp
              (ihxs (fun y hy => ih y (List.mem_cons_of_mem x hy))
                fun y hy => hxs y (List.mem_cons_of_mem x hy))
      have hhead : Writer.Adds (fun w => (cborWriteArrayHeader xs.length w).2)
          (Head.encode ⟨4, .shortest xs.length, (Value.items xs).length⟩) := by
        rw [hlen]
        exact (Writer.appends_putHead (by decide) xs.length).adds
      exact hhead.comp hitems
  | map ms ih =>
      have hms := Value.allMembers_iff.mp h.2
      have hcount : Box.count .map (Value.memberItems ms).length = ms.length := by
        rw [Value.memberItems_length]
        exact Box.count_items .map ms.length
      have hitems : Writer.Adds (writeMembers ms) (Item.encodeAll (Value.memberItems ms)) := by
        clear hcount h
        induction ms with
        | nil => exact Writer.Adds.id
        | cons m ms ihms =>
            obtain ⟨k, v⟩ := m
            obtain ⟨hk, hv⟩ := ih _ List.mem_cons_self
            obtain ⟨hk', hv'⟩ := hms _ List.mem_cons_self
            have hrest := ihms (fun n hn => ih n (List.mem_cons_of_mem _ hn))
              fun n hn => hms n (List.mem_cons_of_mem _ hn)
            have hcons : Item.encodeAll (Value.memberItems ((k, v) :: ms)) =
                k.item.encode ++ v.item.encode ++ Item.encodeAll (Value.memberItems ms) := by
              rw [Value.memberItems, Item.encodeAll_append]
              simp [Value.pairItems, Item.encodeAll]
            rw [hcons]
            exact ((hk hk').comp (hv hv')).comp hrest
      have hhead : Writer.Adds (fun w => (cborWriteMapHeader ms.length w).2)
          (Head.encode ⟨5, .shortest ms.length, Box.count .map (Value.memberItems ms).length⟩) := by
        rw [hcount]
        exact (Writer.appends_putHead (by decide) ms.length).adds
      exact hhead.comp hitems
  | bool v =>
      have hv := (Writer.appends_writeBool v).adds
      cases v <;> exact hv
  | null => exact Writer.appends_writeNull.adds
  | simple n => exact absurd h id
  | float w bits => exact absurd h id

/-! ### Reading -/

/-- Read `n` times with `f`. -/
def collect {α : Type} (f : Rd Unit α) : ℕ → Rd Unit (List α)
  | 0 => pure []
  | n + 1 => do
      let x ← f
      let xs ← collect f n
      pure (x :: xs)

/-- The bytes of a string. -/
def readContent (f : Rd Unit Span) : Rd Unit Bytes := do
  let s ← f
  let r ← reader
  pure (s.of r.buf)

def readSimple : Rd Unit Value := do
  let (_, v) ← cborReaderReadHead
  match v with
  | 20 => pure (.bool false)
  | 21 => pure (.bool true)
  | 22 => pure .null
  | _ => refuse

/-- The reader for the major type that is peeked at; `box` reads arrays and maps. -/
def readBody (box : Box → Rd Unit Value) : Rd Unit Value := do
  match ← cborReaderPeekMajor with
  | some 0 => do
      let v ← cborReaderReadUint
      pure (.uint v)
  | some 1 => do
      let (_, v) ← cborReaderReadHead
      pure (.nint v)
  | some 2 => do
      let s ← readContent cborReaderReadBytes
      pure (.bytes s)
  | some 3 => do
      let s ← readContent cborReaderReadText
      pure (.text s)
  | some 4 => box .array
  | some 5 => box .map
  | some 7 => readSimple
  | _ => refuse

def readMember (f : Rd Unit Value) : Rd Unit (Value × Value) := do
  let k ← f
  let v ← f
  pure (k, v)

def readItems (f : Rd Unit Value) : Box → Rd Unit Value
  | .array => do
      let n ← cborReaderReadArrayHeader
      let xs ← collect f n
      pure (.array xs)
  | .map => do
      let n ← cborReaderReadMapHeader
      let ms ← collect (readMember f) n
      pure (.map ms)

/-- The tree at the position, with at most `d` arrays and maps in each other. -/
def readValue : ℕ → Rd Unit Value
  | 0 => readBody fun _ => refuse
  | d + 1 => readBody (readItems (readValue d))

theorem reads_content {k : Str} {w : Width} {s : Bytes} (hf : s.length < w.bound)
    (h8 : w = .eight → s.length < 2 ^ 32) :
    Reads b (readContent (readByteRun k.major)) (Item.encode (.str k w s)) s := by
  intro r t hr he hs
  obtain ⟨sp, hrun, hsp, -⟩ := readByteRun_str hr he hs hf h8
  rw [readContent, bind_ok hrun, reader_bind]
  show Out.ok (sp.of r.buf) _ = _
  rw [hsp]

theorem reads_items {f : Rd Unit Value} {xs : List Value}
    (hf : ∀ x ∈ xs, Reads b f x.item.encode x) :
    Reads b (collect f xs.length) (Item.encodeAll (Value.items xs)) xs := by
  induction xs with
  | nil => exact Reads.pure
  | cons x xs ih =>
      refine (hf x List.mem_cons_self).bind (Reads.map ?_)
      exact ih fun y hy => hf y (List.mem_cons_of_mem x hy)

theorem reads_members {f : Rd Unit Value} {ms : List (Value × Value)}
    (hf : ∀ m ∈ ms, Reads b f m.1.item.encode m.1 ∧ Reads b f m.2.item.encode m.2) :
    Reads b (collect (readMember f) ms.length) (Item.encodeAll (Value.memberItems ms)) ms := by
  induction ms with
  | nil => exact Reads.pure
  | cons m ms ih =>
      obtain ⟨k, v⟩ := m
      obtain ⟨hk, hv⟩ := hf _ List.mem_cons_self
      have hm : Reads b (readMember f) (k.item.encode ++ v.item.encode) (k, v) := hk.bind hv.map
      refine (hm.bind (Reads.map (ih fun n hn => hf n (List.mem_cons_of_mem _ hn)))).congr ?_
      rw [Value.memberItems, Item.encodeAll_append]
      simp [Value.pairItems, Item.encodeAll]

/-- The numbers and lengths of a tree have 32 bits. -/
def NarrowHere : Value → Prop
  | .uint n => n < 2 ^ 32
  | .nint n => n < 2 ^ 32
  | .bytes s => s.length < 2 ^ 32
  | .text s => s.length < 2 ^ 32
  | .array xs => xs.length < 2 ^ 32
  | .map ms => ms.length < 2 ^ 32
  | .bool _ => True
  | .null => True
  | .simple _ => False
  | .float _ _ => False

theorem fits_of_narrow {t : Value} (h : t.All NarrowHere) : t.All Value.FitsHere := by
  refine h.mono fun x hx => ?_
  cases x with
  | uint n | nint n => exact Nat.lt_trans hx (by decide)
  | bytes s | text s => exact Nat.lt_trans hx (by decide)
  | array xs => exact Nat.lt_trans hx (by decide)
  | map ms => exact Nat.lt_trans hx (by decide)
  | bool v | null => trivial
  | simple n => exact absurd hx id
  | float w bits => exact absurd hx id

theorem count_memberItems (ms : List (Value × Value)) :
    Box.count .map (Value.memberItems ms).length = ms.length := by
  rw [Value.memberItems_length]
  exact Box.count_items .map ms.length

theorem items_length (xs : List Value) : (Value.items xs).length = xs.length := by
  rw [Value.items_eq, List.length_map]

theorem heads_of_narrow {t : Value} (h : t.All NarrowHere) : t.item.HeadsBelow (2 ^ 32) := by
  induction t with
  | uint n | nint n => exact fun _ => h
  | bytes s | text s => exact fun _ => h
  | array xs ih =>
      refine ⟨fun _ => ?_, Item.allIn_iff.mpr (Value.forall_mem_items.mpr fun x hx => ?_)⟩
      · show (Value.items xs).length < _
        rw [items_length]
        exact h.1
      · exact ih x hx (Value.allIn_iff.mp h.2 x hx)
  | map ms ih =>
      refine ⟨fun _ => ?_, Item.allIn_iff.mpr (Value.forall_mem_memberItems.mpr fun m hm => ?_)⟩
      · rw [count_memberItems]
        exact h.1
      · have hm' := Value.allMembers_iff.mp h.2 m hm
        exact ⟨(ih m hm).1 hm'.1, (ih m hm).2 hm'.2⟩
  | bool v =>
      intro hw
      cases hw
  | null =>
      intro hw
      cases hw
  | simple n => exact absurd h id
  | float w bits => exact absurd h id

theorem length_encode_le {x : Item} {xs : List Item} (hx : x ∈ xs) :
    x.encode.length ≤ (Item.encodeAll xs).length := by
  obtain ⟨l, r, rfl⟩ := List.append_of_mem hx
  rw [Item.encodeAll_append, Item.encodeAll, List.length_append, List.length_append]
  omega

/-- What is shorter than 2^32 bytes has lengths of 32 bits. -/
theorem narrow_of_length {t : Value} (h : t.All WritableHere)
    (hlen : t.item.encode.length < 2 ^ 32) : t.All NarrowHere := by
  induction t with
  | uint n | nint n => exact h
  | bytes s | text s =>
      have := List.length_append ▸ hlen
      show s.length < 2 ^ 32
      omega
  | array xs ih =>
      have hle : (Item.encodeAll (Value.items xs)).length ≤
          (Value.array xs).item.encode.length := by
        show _ ≤ (Head.encode _ ++ Item.encodeAll (Value.items xs)).length
        rw [List.length_append]
        omega
      have hxs := Item.length_le_encodeAll (Value.items xs)
      rw [items_length] at hxs
      refine ⟨by show xs.length < _; omega, Value.allIn_iff.mpr fun x hx => ?_⟩
      have hx' := Value.forall_mem_items.mp (fun y hy => length_encode_le (x := y) hy) x hx
      exact ih x hx (Value.allIn_iff.mp h.2 x hx) (by omega)
  | map ms ih =>
      have hle : (Item.encodeAll (Value.memberItems ms)).length ≤
          (Value.map ms).item.encode.length := by
        show _ ≤ (Head.encode _ ++ Item.encodeAll (Value.memberItems ms)).length
        rw [List.length_append]
        omega
      have hms := Item.length_le_encodeAll (Value.memberItems ms)
      rw [Value.memberItems_length] at hms
      refine ⟨by show ms.length < _; omega, Value.allMembers_iff.mpr fun m hm => ?_⟩
      have hm' := Value.forall_mem_memberItems.mp (fun y hy => length_encode_le (x := y) hy) m hm
      have hw := Value.allMembers_iff.mp h.2 m hm
      exact ⟨(ih m hm).1 hw.1 (by omega), (ih m hm).2 hw.2 (by omega)⟩
  | bool v | null => trivial
  | simple n => exact absurd h id
  | float w bits => exact absurd h id

theorem reads_simple {v : ℕ} {t : Value} (hv : v = 20 ∧ t = .bool false ∨ v = 21 ∧ t = .bool true ∨
    v = 22 ∧ t = .null) : Reads b readSimple (Head.encode ⟨7, .zero, v⟩) t := by
  have hlt : v < 24 := by omega
  have hhead := reads_head (b := b) (g := ⟨7, .zero, v⟩) ⟨Atom.simple.major_lt, hlt⟩
    fun hw => nomatch hw
  have hread : Reads b readSimple (Head.encode ⟨7, .zero, v⟩ ++ []) t := by
    refine hhead.bind ?_
    rcases hv with ⟨rfl, rfl⟩ | ⟨rfl, rfl⟩ | ⟨rfl, rfl⟩ <;> exact Reads.pure
  rwa [List.append_nil] at hread

/-- What has no level reads the same at every depth. -/
theorem reads_of_body {s : Bytes} {t : Value} (h : ∀ box, Reads b (readBody box) s t) :
    Reads b (readValue d) s t := by
  cases d with
  | zero => exact h _
  | succ d => exact h _

/-- A tree is read where its item stands. -/
theorem reads_readValue {t : Value} (h : t.All NarrowHere) (hd : t.depth ≤ d) :
    Reads b (readValue d) t.item.encode t := by
  have hp {t : Value} (h : t.All NarrowHere) : t.item.Plain := Value.item_plain (fits_of_narrow h)
  induction t generalizing d with
  | uint n =>
      have hg : (⟨0, .shortest n, n⟩ : Head).Fits := ⟨Atom.uint.major_lt, hp h⟩
      exact reads_of_body fun box => Reads.peek_head hg (reads_typed hg (heads_of_narrow h)).map
  | nint n =>
      have hg : (⟨1, .shortest n, n⟩ : Head).Fits := ⟨Atom.nint.major_lt, hp h⟩
      exact reads_of_body fun box => Reads.peek_head hg (reads_head hg (heads_of_narrow h)).map
  | bytes s =>
      have hg : (⟨2, .shortest s.length, s.length⟩ : Head).Fits := ⟨Str.bytes.major_lt, hp h⟩
      exact reads_of_body fun box =>
        Reads.peek hg (reads_content (k := .bytes) (hp h) (heads_of_narrow h)).map
  | text s =>
      have hg : (⟨3, .shortest s.length, s.length⟩ : Head).Fits := ⟨Str.text.major_lt, hp h⟩
      exact reads_of_body fun box =>
        Reads.peek hg (reads_content (k := .text) (hp h) (heads_of_narrow h)).map
  | bool v =>
      have hg : (⟨7, .zero, if v then 21 else 20⟩ : Head).Fits := ⟨Atom.simple.major_lt, hp h⟩
      exact reads_of_body fun box => Reads.peek_head hg (reads_simple (by cases v <;> simp))
  | null =>
      have hg : (⟨7, .zero, 22⟩ : Head).Fits := ⟨Atom.simple.major_lt, hp h⟩
      exact reads_of_body fun box => Reads.peek_head hg (reads_simple (.inr (.inr ⟨rfl, rfl⟩)))
  | simple n => exact absurd h id
  | float w bits => exact absurd h id
  | array xs ih =>
      cases d with
      | zero => exact absurd hd (Nat.not_succ_le_zero _)
      | succ d =>
          have hg : (⟨4, .shortest xs.length, (Value.items xs).length⟩ : Head).Fits :=
            ⟨Box.array.major_lt, (hp h).1.1⟩
          have hn : (Value.items xs).length < 2 ^ 32 := by
            rw [items_length]
            exact h.1
          have hitems : Reads b (collect (readValue d) (Value.items xs).length)
              (Item.encodeAll (Value.items xs)) xs := by
            rw [items_length]
            refine reads_items fun x hx => ?_
            exact ih x hx (Value.allIn_iff.mp h.2 x hx)
              (Value.depthAll_le.mp (Nat.le_of_succ_le_succ hd) x hx)
          exact Reads.peek hg ((reads_count hg hn).bind hitems.map)
  | map ms ih =>
      cases d with
      | zero => exact absurd hd (Nat.not_succ_le_zero _)
      | succ d =>
          have hg : (⟨5, .shortest ms.length, Box.count .map (Value.memberItems ms).length⟩ :
              Head).Fits := ⟨Box.map.major_lt, (hp h).1.1⟩
          have hn : Box.count .map (Value.memberItems ms).length < 2 ^ 32 := by
            rw [count_memberItems]
            exact h.1
          have hitems : Reads b (collect (readMember (readValue d))
              (Box.count .map (Value.memberItems ms).length))
              (Item.encodeAll (Value.memberItems ms)) ms := by
            rw [count_memberItems]
            refine reads_members fun m hm => ?_
            have hm' := Value.allMembers_iff.mp h.2 m hm
            have hdm := Value.depthMembers_le.mp (Nat.le_of_succ_le_succ hd) m hm
            exact ⟨(ih m hm).1 hm'.1 hdm.1, (ih m hm).2 hm'.2 hdm.2⟩
          exact Reads.peek hg ((reads_count hg hn).bind hitems.map)

/-! ### The round trip -/

/-- The calls on a writer. -/
inductive WriterCall where
  | uint (v : ℕ)
  | negint (v : ℤ)
  | byteString (s : Bytes)
  | text (s : Bytes)
  | arrayHeader (count : ℕ)
  | mapHeader (count : ℕ)
  | bool (v : Bool)
  | null

def WriterCall.perform : WriterCall → Writer → Writer
  | .uint v, w => (cborWriteUint v w).2
  | .negint v, w => (cborWriteNegint v w).2
  | .byteString s, w => (cborWriteByteString s w).2
  | .text s, w => (cborWriteText s w).2
  | .arrayHeader n, w => (cborWriteArrayHeader n w).2
  | .mapHeader n, w => (cborWriteMapHeader n w).2
  | .bool v, w => (cborWriteBool v w).2
  | .null, w => (cborWriteNull w).2

/-- After an error no call does anything. -/
theorem WriterCall.stuck (c : WriterCall) {w : Writer} (h : w.err = true) : c.perform w = w := by
  cases c with
  | uint v => exact (Writer.appends_writeUint v).adds.stuck w h
  | negint v =>
      show (if 0 ≤ v then Writer.refuse w else Writer.putHead 1 (-(v + 1)).toNat w).2 = w
      split
      · show { w with err := true } = w
        rw [← h]
      · exact (Writer.appends_putHead (by decide) _).adds.stuck w h
  | byteString s => exact (Writer.appends_writeByteString s).adds.stuck w h
  | text s =>
      exact ((Writer.appends_putHead (by decide) (strlen s)).andThen
        (Writer.Appends.putBytes (s.take (strlen s)))).adds.stuck w h
  | arrayHeader n => exact (Writer.appends_writeArrayHeader n).adds.stuck w h
  | mapHeader n => exact (Writer.appends_writeMapHeader n).adds.stuck w h
  | bool v => exact (Writer.appends_writeBool v).adds.stuck w h
  | null => exact Writer.appends_writeNull.adds.stuck w h

/-- The size of an object that stands beside the 16 bytes of its writer in an address space of
2^32 bytes. -/
structure Capacity where
  size : ℕ
  apart : size + 16 ≤ 2 ^ 32

/-- No head could be shorter. -/
def ShortestHere : Item → Prop
  | .atom _ w v => ∀ w' : Width, v < w'.bound → w.bytes ≤ w'.bytes
  | .str _ w s => ∀ w' : Width, s.length < w'.bound → w.bytes ≤ w'.bytes
  | .box k w xs => ∀ w' : Width, k.count xs.length < w'.bound → w.bytes ≤ w'.bytes
  | _ => False

theorem item_shortest {t : Value} (h : t.All NarrowHere) : t.item.All ShortestHere := by
  induction t with
  | uint n | nint n => exact fun _ => Width.shortest_least
  | bytes s | text s => exact fun _ => Width.shortest_least
  | array xs ih =>
      refine ⟨fun w hw => ?_, Item.allIn_iff.mpr (Value.forall_mem_items.mpr fun x hx => ?_)⟩
      · have hw : (Value.items xs).length < w.bound := hw
        rw [items_length] at hw
        exact Width.shortest_least hw
      · exact ih x hx (Value.allIn_iff.mp h.2 x hx)
  | map ms ih =>
      refine ⟨fun w hw => ?_, Item.allIn_iff.mpr (Value.forall_mem_memberItems.mpr fun m hm => ?_)⟩
      · rw [count_memberItems] at hw
        exact Width.shortest_least hw
      · have hm' := Value.allMembers_iff.mp h.2 m hm
        exact ⟨(ih m hm).1 hm'.1, (ih m hm).2 hm'.2⟩
  | bool v => exact fun _ _ => Nat.zero_le _
  | null => exact fun _ _ => Nat.zero_le _
  | simple n => exact absurd h id
  | float w bits => exact absurd h id

/-- Writing a tree sets the error exactly when its encoding is longer than the capacity, and
never touches the memory from there on; once set the error stays. Otherwise what was written is the
encoding with the shortest heads, `cbor_validate` accepts it and the readers return the tree. -/
theorem cborWrite_round_trip (t : Value) (ht : Writable t) (mem : ℕ → UInt8) (cap : Capacity) :
    let w := writeValue t (cborWriterInit mem cap.size)
    (w.err = true ↔ cap.size < t.item.encode.length) ∧
    (∀ i, cap.size ≤ i → w.mem i = mem i) ∧
    (w.err = true → ∀ calls : List WriterCall, calls.foldl (fun w c => c.perform w) w = w) ∧
    (w.err = false → w.bytes = t.item.encode ∧ t.item.All ShortestHere ∧
      cborValidate w.bytes = some 0 ∧
      readValue cborMaxDepth (cborReaderInit w.bytes) =
        .ok t ⟨w.bytes, w.bytes.length, false⟩) := by
  intro w
  have hadds := adds_writeValue ht.here
  have hok : (cborWriterInit mem cap.size).Ok := ⟨Nat.zero_le _, cap.apart⟩
  have hstuck : w.err = true → ∀ calls : List WriterCall,
      calls.foldl (fun w c => c.perform w) w = w := by
    intro h calls
    induction calls with
    | nil => rfl
    | cons c calls ih => rw [List.foldl_cons, c.stuck h, ih]
  by_cases hlen : cap.size < t.item.encode.length
  · have hfull := hadds.full _ hok rfl (by show cap.size < 0 + _; omega)
    have herr : w.err = true := hfull.err
    refine ⟨⟨fun _ => hlen, fun _ => herr⟩, hfull.mem, hstuck, fun h => ?_⟩
    rw [herr] at h
    cases h
  · have hroom : 0 + t.item.encode.length ≤ cap.size := by omega
    have hw : w = (cborWriterInit mem cap.size).append t.item.encode :=
      hadds.room _ hok rfl hroom
    have herr : w.err = false := by rw [hw]; rfl
    have hbytes : w.bytes = t.item.encode := by
      rw [hw, Writer.bytes_append]
      rfl
    have hn : t.All NarrowHere := narrow_of_length ht.here (by have := cap.apart; omega)
    have hd : t.item.depth ≤ cborMaxDepth := t.item_depth ▸ ht.depth
    refine ⟨⟨fun h => ?_, fun h => absurd h hlen⟩, fun i hi => ?_, hstuck, fun _ => ?_⟩
    · rw [herr] at h
      cases h
    · rw [hw]
      exact Writer.append_mem hroom hi
    · let b : Buffer := ⟨w.bytes, by rw [hbytes]; have := cap.apart; omega⟩
      have hread := reads_readValue (b := b) hn ht.depth (cborReaderInit w.bytes) []
        (inBuffer_init b) rfl (by rw [List.append_nil, ← hbytes]; rfl)
      refine ⟨hbytes, item_shortest hn, ?_, ?_⟩
      · exact (cborValidate_iff b).mpr ⟨t.item, hbytes.symm,
          Value.item_plain (fits_of_narrow hn), heads_of_narrow hn, hd⟩
      · rw [hread, ← hbytes]
        simp [Reader.adv, cborReaderInit]

/-- The map `{1: "abc", 2: [7, -8]}` in 64 bytes. -/
theorem cborWrite_round_trip_map :
    let t := Value.map [(.uint 1, .text [97, 98, 99]), (.uint 2, .array [.uint 7, .nint 7])]
    let w := writeValue t (cborWriterInit (fun _ => 0) 64)
    w.err = false ∧ w.bytes = [0xa2, 1, 0x63, 97, 98, 99, 2, 0x82, 7, 0x27] ∧
      readValue cborMaxDepth (cborReaderInit w.bytes) = .ok t ⟨w.bytes, w.bytes.length, false⟩ := by
  intro t w
  have ht : Writable t := by
    refine ⟨?_, by decide⟩
    simp [t, Value.All, Value.AllMembers, Value.AllPair, Value.AllIn, WritableHere]
  obtain ⟨herr, -, -, hread⟩ := cborWrite_round_trip t ht (fun _ => 0) ⟨64, by decide⟩
  have hno : w.err = false := by
    cases hw : w.err with
    | false => rfl
    | true => exact absurd (herr.mp hw) (by decide)
  obtain ⟨hbytes, -, -, hval⟩ := hread hno
  exact ⟨hno, hbytes, hval⟩

end Nixtropic.Fido
