import Nixtropic.Cbor.Head

/-!
The data items of RFC 8949, as they are written: a tree that keeps the width of
every head, so that an item has one encoding and a string of bytes is the
encoding of at most one of the items whose lengths are all definite.

`WellFormed` is section 3 of the RFC. The items of definite length and without
tags are read back by `decodeItem`.
-/

namespace Cbor

/-- Items that are one head: the integers, and major type 7 (simple values and
floats). -/
inductive Atom where
  | uint
  | nint
  | simple
  deriving DecidableEq, Repr

inductive Str where
  | bytes
  | text
  deriving DecidableEq, Repr

inductive Box where
  | array
  | map
  deriving DecidableEq, Repr

def Atom.major : Atom → ℕ
  | uint => 0
  | nint => 1
  | simple => 7

def Str.major : Str → ℕ
  | bytes => 2
  | text => 3

def Box.major : Box → ℕ
  | array => 4
  | map => 5

/-- The items of an array or map whose head says `v`: a map has a key and a value for each. -/
def Box.items : Box → ℕ → ℕ
  | array, v => v
  | map, v => 2 * v

/-- What the head of an array or map of `n` items says. -/
def Box.count : Box → ℕ → ℕ
  | array, n => n
  | map, n => n / 2

theorem Box.count_items (k : Box) (v : ℕ) : k.count (k.items v) = v := by
  cases k with
  | array => rfl
  | map => show 2 * v / 2 = v; omega

theorem Box.count_le (k : Box) (n : ℕ) : k.count n ≤ n := by
  cases k with
  | array => exact le_rfl
  | map => exact Nat.div_le_self n 2

theorem Atom.major_lt (k : Atom) : k.major < 8 := by cases k <;> decide
theorem Str.major_lt (k : Str) : k.major < 8 := by cases k <;> decide
theorem Box.major_lt (k : Box) : k.major < 8 := by cases k <;> decide

/-- A data item. The items of a map are its keys and values in turn. -/
inductive Item where
  | atom (k : Atom) (w : Width) (v : ℕ)
  | str (k : Str) (w : Width) (s : Bytes)
  | box (k : Box) (w : Width) (xs : List Item)
  | tag (w : Width) (v : ℕ) (x : Item)
  -- without a length: chunks of strings, or items, up to a break
  | strOpen (k : Str) (cs : List (Width × Bytes))
  | boxOpen (k : Box) (xs : List Item)

namespace Item

/-- An initial byte with additional information 31. -/
def openByte (m : ℕ) : UInt8 := UInt8.ofNat (m * 32 + 31)

mutual

def encode : Item → Bytes
  | .atom k w v => Head.encode ⟨k.major, w, v⟩
  | .str k w s => Head.encode ⟨k.major, w, s.length⟩ ++ s
  | .box k w xs => Head.encode ⟨k.major, w, k.count xs.length⟩ ++ encodeAll xs
  | .tag w v x => Head.encode ⟨6, w, v⟩ ++ encode x
  | .strOpen k cs =>
      openByte k.major ::
        cs.flatMap (fun c => Head.encode ⟨k.major, c.1, c.2.length⟩ ++ c.2) ++ [0xff]
  | .boxOpen k xs => openByte k.major :: encodeAll xs ++ [0xff]

def encodeAll : List Item → Bytes
  | [] => []
  | x :: xs => encode x ++ encodeAll xs

end

mutual

/-- The arrays and maps around each other at the deepest place. -/
def depth : Item → ℕ
  | .atom _ _ _ => 0
  | .str _ _ _ => 0
  | .box _ _ xs => depthAll xs + 1
  | .tag _ _ x => depth x
  | .strOpen _ _ => 0
  | .boxOpen _ xs => depthAll xs + 1

def depthAll : List Item → ℕ
  | [] => 0
  | x :: xs => max (depth x) (depthAll xs)

end

mutual

/-- `p` holds of every item in the tree, this one included. -/
def All (p : Item → Prop) : Item → Prop
  | .atom k w v => p (.atom k w v)
  | .str k w s => p (.str k w s)
  | .box k w xs => p (.box k w xs) ∧ AllIn p xs
  | .tag w v x => p (.tag w v x) ∧ All p x
  | .strOpen k cs => p (.strOpen k cs)
  | .boxOpen k xs => p (.boxOpen k xs) ∧ AllIn p xs

def AllIn (p : Item → Prop) : List Item → Prop
  | [] => True
  | x :: xs => All p x ∧ AllIn p xs

end

/-- Induction on an item, with the hypothesis for the members of a list. -/
@[elab_as_elim, induction_eliminator]
theorem induct {P : Item → Prop}
    (atom : ∀ k w v, P (.atom k w v))
    (str : ∀ k w s, P (.str k w s))
    (box : ∀ k w xs, (∀ x ∈ xs, P x) → P (.box k w xs))
    (tag : ∀ w v x, P x → P (.tag w v x))
    (strOpen : ∀ k cs, P (.strOpen k cs))
    (boxOpen : ∀ k xs, (∀ x ∈ xs, P x) → P (.boxOpen k xs)) (t : Item) : P t :=
  @Item.rec P (fun xs => ∀ x ∈ xs, P x) atom str box tag strOpen boxOpen
    (fun _ h => absurd h List.not_mem_nil)
    (fun _ _ hy hxs x h => (List.mem_cons.mp h).elim (fun e => e ▸ hy) (hxs x)) t

theorem allIn_iff {p : Item → Prop} {xs : List Item} : AllIn p xs ↔ ∀ x ∈ xs, x.All p := by
  induction xs with
  | nil => simp [AllIn]
  | cons x xs ih => simp [AllIn, ih]

theorem depthAll_le {xs : List Item} {d : ℕ} : depthAll xs ≤ d ↔ ∀ x ∈ xs, x.depth ≤ d := by
  induction xs with
  | nil => simp [depthAll]
  | cons x xs ih => simp [depthAll, ih]

theorem All.here {p : Item → Prop} {t : Item} (h : t.All p) : p t := by
  cases t with
  | atom | str | strOpen => exact h
  | box | tag | boxOpen => exact h.1

theorem all_and {p q : Item → Prop} {t : Item} :
    t.All (fun x => p x ∧ q x) ↔ t.All p ∧ t.All q := by
  induction t with
  | atom | str | strOpen => exact Iff.rfl
  | box k w xs ih | boxOpen k xs ih =>
      simp only [All, allIn_iff]
      constructor
      · rintro ⟨⟨hp, hq⟩, h⟩
        exact ⟨⟨hp, fun x hx => ((ih x hx).mp (h x hx)).1⟩,
          hq, fun x hx => ((ih x hx).mp (h x hx)).2⟩
      · rintro ⟨⟨hp, hps⟩, hq, hqs⟩
        exact ⟨⟨hp, hq⟩, fun x hx => (ih x hx).mpr ⟨hps x hx, hqs x hx⟩⟩
  | tag w v x ih =>
      simp only [All, ih]
      tauto

theorem All.mono {p q : Item → Prop} (hpq : ∀ x, p x → q x) {t : Item} (h : t.All p) :
    t.All q := by
  induction t with
  | atom | str | strOpen => exact hpq _ h
  | box k w xs ih | boxOpen k xs ih =>
      exact ⟨hpq _ h.1, allIn_iff.mpr fun x hx => ih x hx (allIn_iff.mp h.2 x hx)⟩
  | tag w v x ih => exact ⟨hpq _ h.1, ih h.2⟩

/-- Every item takes at least one byte. -/
theorem encode_pos (t : Item) : 0 < t.encode.length := by
  cases t with
  | atom | str | box | tag => simp [encode]
  | strOpen | boxOpen => simp [encode]

theorem length_le_encodeAll (xs : List Item) : xs.length ≤ (encodeAll xs).length := by
  induction xs with
  | nil => exact le_rfl
  | cons x xs ih =>
      have := encode_pos x
      simp only [encodeAll, List.length_cons, List.length_append]
      omega

theorem encodeAll_append (xs ys : List Item) :
    encodeAll (xs ++ ys) = encodeAll xs ++ encodeAll ys := by
  induction xs with
  | nil => rfl
  | cons x xs ih => rw [List.cons_append, encodeAll, ih, encodeAll, List.append_assoc]

/-! ### Well-formed items -/

/-- Every argument fits the width of its head, and a map has as many values as keys. -/
def FitsHere : Item → Prop
  | .atom _ w v => v < w.bound
  | .str _ w s => s.length < w.bound
  | .box k w xs => k.count xs.length < w.bound ∧ k.items (k.count xs.length) = xs.length
  | .tag w v _ => v < w.bound
  | .strOpen _ cs => ∀ c ∈ cs, c.2.length < c.1.bound
  | .boxOpen k xs => k.items (k.count xs.length) = xs.length

/-- A simple value in the byte after the head is 32 or more. -/
def SimpleHere : Item → Prop
  | .atom .simple .one v => 32 ≤ v
  | _ => True

/-- The item is well formed (RFC 8949, section 3 and appendix C). -/
structure WellFormed (t : Item) : Prop where
  fits : t.All FitsHere
  simple : t.All SimpleHere

def ClosedHere : Item → Prop
  | .strOpen _ _ => False
  | .boxOpen _ _ => False
  | _ => True

def UntaggedHere : Item → Prop
  | .tag _ _ _ => False
  | _ => True

/-- Every length is definite. -/
def Definite (t : Item) : Prop := t.All ClosedHere

def Untagged (t : Item) : Prop := t.All UntaggedHere

def ValueBelow (n : ℕ) : Item → Prop
  | .atom _ w v => w = .eight → v < n
  | .str _ w s => w = .eight → s.length < n
  | .box k w xs => w = .eight → k.count xs.length < n
  | .tag w v _ => w = .eight → v < n
  | .strOpen _ cs => ∀ c ∈ cs, c.1 = .eight → c.2.length < n
  | .boxOpen _ _ => True

/-- No head of eight bytes says `n` or more. -/
def HeadsBelow (n : ℕ) (t : Item) : Prop := t.All (ValueBelow n)

/-- What `decodeItem` reads: every argument fits, the lengths are definite and
there are no tags. -/
def PlainHere : Item → Prop
  | .atom _ w v => v < w.bound
  | .str _ w s => s.length < w.bound
  | .box k w xs => k.count xs.length < w.bound ∧ k.items (k.count xs.length) = xs.length
  | _ => False

def Plain (t : Item) : Prop := t.All PlainHere

theorem plain_iff {t : Item} : t.Plain ↔ t.All FitsHere ∧ t.Definite ∧ t.Untagged := by
  unfold Plain Definite Untagged
  rw [← all_and, ← all_and]
  have h (x : Item) : PlainHere x ↔ FitsHere x ∧ ClosedHere x ∧ UntaggedHere x := by
    cases x <;> simp [PlainHere, FitsHere, ClosedHere, UntaggedHere]
  exact ⟨All.mono fun x hx => (h x).mp hx, All.mono fun x hx => (h x).mpr hx⟩

/-- The major type of the initial byte. -/
def major : Item → ℕ
  | .atom k _ _ => k.major
  | .str k _ _ => k.major
  | .box k _ _ => k.major
  | .tag _ _ _ => 6
  | .strOpen k _ => k.major
  | .boxOpen k _ => k.major

/-- A plain item starts with a head of its major type. -/
theorem head_of_plain {t : Item} (h : t.Plain) :
    ∃ (g : Head) (s : Bytes), g.Fits ∧ t.encode = g.encode ++ s ∧ g.major = t.major := by
  cases t with
  | atom k w v =>
      exact ⟨⟨k.major, w, v⟩, [], ⟨k.major_lt, h⟩, by rw [encode, List.append_nil], rfl⟩
  | str k w s => exact ⟨⟨k.major, w, s.length⟩, s, ⟨k.major_lt, h⟩, rfl, rfl⟩
  | box k w xs => exact ⟨⟨k.major, w, k.count xs.length⟩, _, ⟨k.major_lt, h.1.1⟩, rfl, rfl⟩
  | tag => exact absurd h.1 id
  | strOpen => exact absurd h id
  | boxOpen => exact absurd h.1 id

/-! ### Decoding -/

/-- Read `n` items one after the other. -/
def decodeMany (f : Bytes → Option (Item × Bytes)) : ℕ → Bytes → Option (List Item × Bytes)
  | 0, s => some ([], s)
  | n + 1, s =>
      match f s with
      | none => none
      | some (x, s) =>
          match decodeMany f n s with
          | none => none
          | some (xs, s) => some (x :: xs, s)

/-- The string after its head. -/
def decodeStr (k : Str) (h : Head) (s : Bytes) : Option (Item × Bytes) :=
  if s.length < h.val then none else some (.str k h.width (s.take h.val), s.drop h.val)

/-- The items after the head of an array or map, each read with `f`. -/
def decodeBox (f : Bytes → Option (Item × Bytes)) (k : Box) (h : Head) (s : Bytes) :
    Option (Item × Bytes) :=
  match decodeMany f (k.items h.val) s with
  | none => none
  | some (xs, s) => some (.box k h.width xs, s)

/-- The rest of an item whose head was read. `box` reads the items of an array or map. -/
def decodeBody (box : Box → Head → Bytes → Option (Item × Bytes)) (h : Head) (s : Bytes) :
    Option (Item × Bytes) :=
  match h.major with
  | 0 => some (.atom .uint h.width h.val, s)
  | 1 => some (.atom .nint h.width h.val, s)
  | 2 => decodeStr .bytes h s
  | 3 => decodeStr .text h s
  | 4 => box .array h s
  | 5 => box .map h s
  | 7 => some (.atom .simple h.width h.val, s)
  | _ => none

/-- The item at the front, with at most `d` arrays and maps in each other, and
what comes after it. -/
def decodeItem : ℕ → Bytes → Option (Item × Bytes)
  | 0, b => (decodeHead b).bind fun h => decodeBody (fun _ _ _ => none) h.1 h.2
  | d + 1, b => (decodeHead b).bind fun h => decodeBody (decodeBox (decodeItem d)) h.1 h.2

/-- What a string was encoded to is read back. -/
theorem decodeStr_append {k : Str} {w : Width} (s t : Bytes) :
    decodeStr k ⟨k.major, w, s.length⟩ (s ++ t) = some (.str k w s, t) := by
  unfold decodeStr
  rw [if_neg (by simp), List.take_left, List.drop_left]

theorem decodeMany_encodeAll {f : Bytes → Option (Item × Bytes)} {xs : List Item}
    (h : ∀ x ∈ xs, ∀ s, f (x.encode ++ s) = some (x, s)) (s : Bytes) :
    decodeMany f xs.length (encodeAll xs ++ s) = some (xs, s) := by
  induction xs with
  | nil => rfl
  | cons x xs ih =>
      rw [List.length_cons, decodeMany, encodeAll, List.append_assoc,
        h x List.mem_cons_self]
      simp only [ih fun y hy => h y (List.mem_cons_of_mem x hy)]

/-- What a plain item was encoded to is read back. -/
theorem decodeItem_encode {t : Item} {d : ℕ} (ht : t.Plain) (hd : t.depth ≤ d) (s : Bytes) :
    decodeItem d (t.encode ++ s) = some (t, s) := by
  -- the head comes first, at every depth
  have hhead (d : ℕ) (h : Head) (hf : h.Fits) (r : Bytes) (box)
      (hbox : decodeItem d (h.encode ++ r) =
        (decodeHead (h.encode ++ r)).bind fun h => decodeBody box h.1 h.2) :
      decodeItem d (h.encode ++ r) = decodeBody box h r := by
    rw [hbox, decodeHead_encode hf]
    rfl
  induction t generalizing d s with
  | atom k w v =>
      have hf : (⟨k.major, w, v⟩ : Head).Fits := ⟨k.major_lt, ht⟩
      cases d <;>
      · rw [encode, hhead _ _ hf _ _ rfl]
        cases k <;> rfl
  | str k w b =>
      have hf : (⟨k.major, w, b.length⟩ : Head).Fits := ⟨k.major_lt, ht⟩
      cases d <;>
      · rw [encode, List.append_assoc, hhead _ _ hf _ _ rfl]
        cases k <;> exact decodeStr_append b s
  | box k w xs ih =>
      have hf : (⟨k.major, w, k.count xs.length⟩ : Head).Fits := ⟨k.major_lt, ht.1.1⟩
      cases d with
      | zero => exact absurd hd (Nat.not_succ_le_zero _)
      | succ d =>
          have hxs : depthAll xs ≤ d := Nat.le_of_succ_le_succ hd
          have hmany := @decodeMany_encodeAll (decodeItem d) xs
            (fun x hx s => ih x hx (allIn_iff.mp ht.2 x hx) (depthAll_le.mp hxs x hx) s) s
          have hbox : decodeBox (decodeItem d) k ⟨k.major, w, k.count xs.length⟩
              (encodeAll xs ++ s) = some (.box k w xs, s) := by
            unfold decodeBox
            rw [show k.items _ = xs.length from ht.1.2, hmany]
          rw [encode, List.append_assoc, hhead _ _ hf _ _ rfl]
          cases k <;> exact hbox
  | tag => exact absurd ht.1 id
  | strOpen => exact absurd ht id
  | boxOpen => exact absurd ht.1 id

/-- A string of bytes is the encoding of at most one plain item. -/
theorem encode_injective {t u : Item} (ht : t.Plain) (hu : u.Plain) {r s : Bytes}
    (h : t.encode ++ r = u.encode ++ s) : t = u ∧ r = s := by
  have h₁ := decodeItem_encode ht (Nat.le_max_left t.depth u.depth) r
  have h₂ := decodeItem_encode hu (Nat.le_max_right t.depth u.depth) s
  rw [h, h₂] at h₁
  obtain ⟨rfl, rfl⟩ := Prod.mk.inj (Option.some.inj h₁)
  exact ⟨rfl, rfl⟩

end Item

end Cbor
