import Nixtropic.Cbor.Item

/-!
The values that data items stand for. A value does not say how wide the heads
were, and the members of a map are pairs.

`Value.item` writes a value with the shortest heads; `Item.value` is the value of
an item, and takes it back.
-/

namespace Cbor

/-- The generic data model of RFC 8949, without tags. -/
inductive Value where
  | uint (n : ℕ)
  -- the integer `-1 - n`
  | nint (n : ℕ)
  | bytes (s : Bytes)
  | text (s : Bytes)
  | array (xs : List Value)
  | map (ms : List (Value × Value))
  | bool (b : Bool)
  | null
  | simple (n : ℕ)
  | float (w : Width) (bits : ℕ)

namespace Value

mutual

/-- The item with the shortest heads. -/
def item : Value → Item
  | .uint n => .atom .uint (.shortest n) n
  | .nint n => .atom .nint (.shortest n) n
  | .bytes s => .str .bytes (.shortest s.length) s
  | .text s => .str .text (.shortest s.length) s
  | .array xs => .box .array (.shortest xs.length) (items xs)
  | .map ms => .box .map (.shortest ms.length) (memberItems ms)
  | .bool b => .atom .simple .zero (if b then 21 else 20)
  | .null => .atom .simple .zero 22
  | .simple n => .atom .simple (if n < 24 then .zero else .one) n
  | .float w bits => .atom .simple w bits

def items : List Value → List Item
  | [] => []
  | x :: xs => item x :: items xs

def memberItems : List (Value × Value) → List Item
  | [] => []
  | m :: ms => pairItems m ++ memberItems ms

def pairItems : Value × Value → List Item
  | (k, v) => [item k, item v]

end

mutual

/-- The arrays and maps around each other at the deepest place. -/
def depth : Value → ℕ
  | .array xs => depthAll xs + 1
  | .map ms => depthMembers ms + 1
  | .uint _ | .nint _ | .bytes _ | .text _ | .bool _ | .null | .simple _ | .float _ _ => 0

def depthAll : List Value → ℕ
  | [] => 0
  | x :: xs => max (depth x) (depthAll xs)

def depthMembers : List (Value × Value) → ℕ
  | [] => 0
  | m :: ms => max (depthPair m) (depthMembers ms)

def depthPair : Value × Value → ℕ
  | (k, v) => max (depth k) (depth v)

end

mutual

/-- `p` holds of every value in the tree, this one included. -/
def All (p : Value → Prop) : Value → Prop
  | .array xs => p (.array xs) ∧ AllIn p xs
  | .map ms => p (.map ms) ∧ AllMembers p ms
  | .uint n => p (.uint n)
  | .nint n => p (.nint n)
  | .bytes s => p (.bytes s)
  | .text s => p (.text s)
  | .bool b => p (.bool b)
  | .null => p .null
  | .simple n => p (.simple n)
  | .float w bits => p (.float w bits)

def AllIn (p : Value → Prop) : List Value → Prop
  | [] => True
  | x :: xs => All p x ∧ AllIn p xs

def AllMembers (p : Value → Prop) : List (Value × Value) → Prop
  | [] => True
  | m :: ms => AllPair p m ∧ AllMembers p ms

def AllPair (p : Value → Prop) : Value × Value → Prop
  | (k, v) => All p k ∧ All p v

end

/-- Induction on a value, with the hypothesis for the items of an array and for the keys and
values of a map. -/
@[elab_as_elim, induction_eliminator]
theorem induct {P : Value → Prop}
    (uint : ∀ n, P (.uint n)) (nint : ∀ n, P (.nint n))
    (bytes : ∀ s, P (.bytes s)) (text : ∀ s, P (.text s))
    (array : ∀ xs, (∀ x ∈ xs, P x) → P (.array xs))
    (map : ∀ ms, (∀ m ∈ ms, P m.1 ∧ P m.2) → P (.map ms))
    (bool : ∀ b, P (.bool b)) (null : P .null)
    (simple : ∀ n, P (.simple n)) (float : ∀ w bits, P (.float w bits)) (t : Value) : P t :=
  @Value.rec P (fun xs => ∀ x ∈ xs, P x) (fun ms => ∀ m ∈ ms, P m.1 ∧ P m.2)
    (fun m => P m.1 ∧ P m.2) uint nint bytes text array map bool null simple float
    (fun _ h => absurd h List.not_mem_nil)
    (fun _ _ hy hxs x h => (List.mem_cons.mp h).elim (fun e => e ▸ hy) (hxs x))
    (fun _ h => absurd h List.not_mem_nil)
    (fun _ _ hm hms m h => (List.mem_cons.mp h).elim (fun e => e ▸ hm) (hms m))
    (fun _ _ hk hv => ⟨hk, hv⟩) t

section Lists

variable {xs : List Value} {ms : List (Value × Value)} {p : Value → Prop} {d : ℕ}

theorem items_eq (xs : List Value) : items xs = xs.map item := by
  induction xs with
  | nil => rfl
  | cons x xs ih => rw [items, ih, List.map_cons]

theorem memberItems_eq (ms : List (Value × Value)) :
    memberItems ms = ms.flatMap fun m => [item m.1, item m.2] := by
  induction ms with
  | nil => rfl
  | cons m ms ih => rw [memberItems, ih, List.flatMap_cons, pairItems]

theorem memberItems_length (ms : List (Value × Value)) :
    (memberItems ms).length = 2 * ms.length := by
  induction ms with
  | nil => rfl
  | cons m ms ih =>
      rw [memberItems, List.length_append, ih, pairItems]
      simp
      omega

theorem forall_mem_items {q : Item → Prop} :
    (∀ y ∈ items xs, q y) ↔ ∀ x ∈ xs, q x.item := by
  rw [items_eq]
  simp

theorem forall_mem_memberItems {q : Item → Prop} :
    (∀ y ∈ memberItems ms, q y) ↔ ∀ m ∈ ms, q m.1.item ∧ q m.2.item := by
  rw [memberItems_eq]
  constructor
  · intro h m hm
    exact ⟨h _ (List.mem_flatMap.mpr ⟨m, hm, by simp⟩), h _ (List.mem_flatMap.mpr ⟨m, hm, by simp⟩)⟩
  · intro h y hy
    obtain ⟨m, hm, hy⟩ := List.mem_flatMap.mp hy
    rcases List.mem_cons.mp hy with rfl | hy
    · exact (h m hm).1
    · obtain rfl := List.mem_singleton.mp hy
      exact (h m hm).2

theorem allIn_iff : AllIn p xs ↔ ∀ x ∈ xs, x.All p := by
  induction xs with
  | nil => simp [AllIn]
  | cons x xs ih => simp [AllIn, ih]

theorem allMembers_iff : AllMembers p ms ↔ ∀ m ∈ ms, m.1.All p ∧ m.2.All p := by
  induction ms with
  | nil => simp [AllMembers]
  | cons m ms ih =>
      obtain ⟨k, v⟩ := m
      simp [AllMembers, AllPair, ih]

theorem depthAll_le : depthAll xs ≤ d ↔ ∀ x ∈ xs, x.depth ≤ d := by
  induction xs with
  | nil => simp [depthAll]
  | cons x xs ih => simp [depthAll, ih]

theorem depthMembers_le : depthMembers ms ≤ d ↔ ∀ m ∈ ms, m.1.depth ≤ d ∧ m.2.depth ≤ d := by
  induction ms with
  | nil => simp [depthMembers]
  | cons m ms ih =>
      obtain ⟨k, v⟩ := m
      simp [depthMembers, depthPair, ih, and_assoc]

end Lists

theorem All.here {p : Value → Prop} {t : Value} (h : t.All p) : p t := by
  cases t with
  | array | map => exact h.1
  | _ => exact h

theorem All.mono {p q : Value → Prop} (hpq : ∀ x, p x → q x) {t : Value} (h : t.All p) :
    t.All q := by
  induction t with
  | array xs ih =>
      exact ⟨hpq _ h.1, allIn_iff.mpr fun x hx => ih x hx (allIn_iff.mp h.2 x hx)⟩
  | map ms ih =>
      exact ⟨hpq _ h.1, allMembers_iff.mpr fun m hm =>
        ⟨(ih m hm).1 (allMembers_iff.mp h.2 m hm).1, (ih m hm).2 (allMembers_iff.mp h.2 m hm).2⟩⟩
  | _ => exact hpq _ h

/-- The numbers and lengths have a head, and what is a simple value or a float here is one. -/
def FitsHere : Value → Prop
  | .uint n => n < 2 ^ 64
  | .nint n => n < 2 ^ 64
  | .bytes s => s.length < 2 ^ 64
  | .text s => s.length < 2 ^ 64
  | .array xs => xs.length < 2 ^ 64
  | .map ms => ms.length < 2 ^ 64
  | .bool _ => True
  | .null => True
  | .simple n => n < 20 ∨ n = 23 ∨ 32 ≤ n ∧ n < 2 ^ 8
  | .float w bits => (w = .two ∨ w = .four ∨ w = .eight) ∧ bits < w.bound

/-- The item of a value is one that can be decoded. -/
theorem item_plain {t : Value} (h : t.All FitsHere) : t.item.Plain := by
  induction t with
  | uint n | nint n => exact Width.shortest_fits h
  | bytes s | text s => exact Width.shortest_fits h
  | array xs ih =>
      have hlen : (items xs).length = xs.length := by rw [items_eq, List.length_map]
      refine ⟨⟨?_, rfl⟩, Item.allIn_iff.mpr (forall_mem_items.mpr fun x hx => ?_)⟩
      · show (items xs).length < _
        rw [hlen]
        exact Width.shortest_fits h.1
      · exact ih x hx (allIn_iff.mp h.2 x hx)
  | map ms ih =>
      have hlen := memberItems_length ms
      have hcount : Box.count .map (memberItems ms).length = ms.length := by
        rw [hlen]
        exact Box.count_items .map ms.length
      refine ⟨⟨?_, ?_⟩, Item.allIn_iff.mpr (forall_mem_memberItems.mpr fun m hm => ?_)⟩
      · rw [hcount]
        exact Width.shortest_fits h.1
      · rw [hcount, hlen]
        rfl
      · have hp := allMembers_iff.mp h.2 m hm
        exact ⟨(ih m hm).1 hp.1, (ih m hm).2 hp.2⟩
  | bool b =>
      show (if b then 21 else 20) < 24
      cases b <;> decide
  | null =>
      show 22 < 24
      decide
  | simple n =>
      show n < Width.bound (if n < 24 then .zero else .one)
      split
      · assumption
      · show n < 256
        have h : n < 20 ∨ n = 23 ∨ 32 ≤ n ∧ n < 2 ^ 8 := h
        omega
  | float w bits => exact h.2

theorem item_depth (t : Value) : t.item.depth = t.depth := by
  induction t with
  | array xs ih =>
      have hle (d : ℕ) : Item.depthAll (items xs) ≤ d ↔ depthAll xs ≤ d := by
        rw [Item.depthAll_le, depthAll_le, forall_mem_items]
        exact forall₂_congr fun x hx => by rw [ih x hx]
      exact congrArg (· + 1) (Nat.le_antisymm ((hle _).mpr le_rfl) ((hle _).mp le_rfl))
  | map ms ih =>
      have hle (d : ℕ) : Item.depthAll (memberItems ms) ≤ d ↔ depthMembers ms ≤ d := by
        rw [Item.depthAll_le, depthMembers_le, forall_mem_memberItems]
        exact forall₂_congr fun m hm => by rw [(ih m hm).1, (ih m hm).2]
      exact congrArg (· + 1) (Nat.le_antisymm ((hle _).mpr le_rfl) ((hle _).mp le_rfl))
  | _ => rfl

/-- A value of major type 7. False, true and null are in the head itself. -/
def ofSeven : Width → ℕ → Value
  | .zero, v => if v = 20 then .bool false else if v = 21 then .bool true else
      if v = 22 then .null else .simple v
  | .one, v => .simple v
  | w, v => .float w v

/-- The major type of its items. -/
def major : Value → ℕ
  | .uint _ => 0
  | .nint _ => 1
  | .bytes _ => 2
  | .text _ => 3
  | .array _ => 4
  | .map _ => 5
  | .bool _ => 7
  | .null => 7
  | .simple _ => 7
  | .float _ _ => 7

theorem ofSeven_major (w : Width) (v : ℕ) : (ofSeven w v).major = 7 := by
  cases w with
  | zero =>
      unfold ofSeven
      repeat' split
      all_goals rfl
  | _ => rfl

end Value

/-- The members of a map from its keys and values in turn. -/
def pairs {α : Type} : List α → List (α × α)
  | k :: v :: xs => (k, v) :: pairs xs
  | _ => []

theorem pairs_flatMap {α β : Type} (f : α → β) (ms : List (α × α)) :
    pairs (ms.flatMap fun m => [f m.1, f m.2]) = ms.map fun m => (f m.1, f m.2) := by
  induction ms with
  | nil => rfl
  | cons m ms ih => simp [pairs, ih]

namespace Item

mutual

/-- The value of an item; of a tagged one, that of its content. -/
def value : Item → Value
  | .atom .uint _ v => .uint v
  | .atom .nint _ v => .nint v
  | .atom .simple w v => .ofSeven w v
  | .str .bytes _ s => .bytes s
  | .str .text _ s => .text s
  | .box .array _ xs => .array (values xs)
  | .box .map _ xs => .map (pairs (values xs))
  | .tag _ _ x => value x
  | .strOpen .bytes cs => .bytes (cs.flatMap Prod.snd)
  | .strOpen .text cs => .text (cs.flatMap Prod.snd)
  | .boxOpen .array xs => .array (values xs)
  | .boxOpen .map xs => .map (pairs (values xs))

def values : List Item → List Value
  | [] => []
  | x :: xs => value x :: values xs

end

/-- A plain item and its value have one major type. -/
theorem value_major {t : Item} (h : t.Plain) : t.value.major = t.major := by
  cases t with
  | atom k w v =>
      cases k with
      | uint => rfl
      | nint => rfl
      | simple => exact Value.ofSeven_major w v
  | str k w s => cases k <;> rfl
  | box k w xs => cases k <;> rfl
  | tag => exact absurd h.1 id
  | strOpen => exact absurd h id
  | boxOpen => exact absurd h.1 id

theorem values_eq (xs : List Item) : values xs = xs.map value := by
  induction xs with
  | nil => rfl
  | cons x xs ih => rw [values, ih, List.map_cons]

/-- The value that stands at the front of the bytes, with at most `d` levels, and nothing after
it. -/
def decode (d : ℕ) (b : Bytes) : Option Value :=
  match decodeItem d b with
  | some (t, []) => some t.value
  | _ => none

theorem decode_encode {t : Item} {d : ℕ} (ht : t.Plain) (hd : t.depth ≤ d) :
    decode d t.encode = some t.value := by
  have h := decodeItem_encode ht hd []
  rw [List.append_nil] at h
  simp only [decode, h]

end Item

namespace Value

/-- A value is that of its item. -/
theorem value_item {t : Value} (h : t.All FitsHere) : t.item.value = t := by
  induction t with
  | uint n | nint n => rfl
  | bytes s | text s => rfl
  | array xs ih =>
      have hxs : xs.map (Item.value ∘ item) = xs :=
        (List.map_congr_left fun x hx => ih x hx (allIn_iff.mp h.2 x hx)).trans (List.map_id xs)
      show Value.array (Item.values (items xs)) = _
      rw [Item.values_eq, items_eq, List.map_map, hxs]
  | map ms ih =>
      have hms : ms.map (fun m => (m.1.item.value, m.2.item.value)) = ms := by
        refine (List.map_congr_left fun m hm => ?_).trans (List.map_id ms)
        have hp := allMembers_iff.mp h.2 m hm
        rw [(ih m hm).1 hp.1, (ih m hm).2 hp.2]
        rfl
      show Value.map (pairs (Item.values (memberItems ms))) = _
      rw [Item.values_eq, memberItems_eq, List.map_flatMap]
      exact congrArg Value.map ((pairs_flatMap (Item.value ∘ item) ms).trans hms)
  | bool b => cases b <;> rfl
  | null => rfl
  | simple n =>
      have h : n < 20 ∨ n = 23 ∨ 32 ≤ n ∧ n < 2 ^ 8 := h
      show Value.ofSeven (if n < 24 then .zero else .one) n = _
      split
      · show (if n = 20 then _ else if n = 21 then _ else if n = 22 then _ else Value.simple n) = _
        rw [if_neg (by omega), if_neg (by omega), if_neg (by omega)]
      · rfl
  | float w bits => rcases h.1 with rfl | rfl | rfl <;> rfl

/-- The shortest encoding of a value is decoded to it. -/
theorem decode_item {t : Value} {d : ℕ} (h : t.All FitsHere) (hd : t.depth ≤ d) :
    Item.decode d t.item.encode = some t := by
  rw [Item.decode_encode (item_plain h) ((item_depth t).le.trans hd), value_item h]

theorem encode_map (ms : List (Value × Value)) :
    (Value.map ms).item.encode = Head.encode ⟨5, .shortest ms.length, ms.length⟩ ++
      ms.flatMap fun m => m.1.item.encode ++ m.2.item.encode := by
  have hcount : Box.count .map (memberItems ms).length = ms.length := by
    rw [memberItems_length]
    exact Box.count_items .map ms.length
  have hall : Item.encodeAll (memberItems ms) =
      ms.flatMap fun m => m.1.item.encode ++ m.2.item.encode := by
    clear hcount
    induction ms with
    | nil => rfl
    | cons m ms ih =>
        obtain ⟨k, v⟩ := m
        rw [memberItems, Item.encodeAll_append, ih, List.flatMap_cons, pairItems]
        simp [Item.encodeAll]
  show Head.encode ⟨Box.major .map, .shortest ms.length, Box.count .map (memberItems ms).length⟩ ++
    Item.encodeAll (memberItems ms) = _
  rw [hcount, hall]
  rfl

/-! ### Looking into a map -/

def isUint (n : ℕ) : Value → Bool
  | .uint k => k == n
  | _ => false

def isText (s : Bytes) : Value → Bool
  | .text t => t == s
  | _ => false

/-- What stands under the first key that is looked for. -/
def under (p : Value → Bool) : Value → Option Value
  | .map ms => (ms.find? fun m => p m.1).map Prod.snd
  | _ => none

def uint? : Value → Option ℕ
  | .uint n => some n
  | _ => none

def bytes? : Value → Option Bytes
  | .bytes s => some s
  | _ => none

end Value

end Cbor
