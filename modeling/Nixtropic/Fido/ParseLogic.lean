import Nixtropic.Fido.ReaderItems
import Nixtropic.Fido.RequestRules

/-!
Rules for the parsers of `ctap2_parse.c`: a parser that walks over the bytes of an
item answers what a rule says about the value of the item.

There is one rule for each way in which the parsers are built: a call after
another, a typed read, a test of a key, and the loops over the members of a map
and over the items of an array.
-/

namespace Nixtropic.Fido

open Cbor Rd

variable {b : Buffer} {r : Reader} {α β γ δ σ : Type} {d : ℕ}

/-- On the bytes `s`, wherever they stand, `f` does what `spec` says: it passes over them and
returns something that `R` relates to the result, or it fails with the same status. -/
def Parses (b : Buffer) (f : Rd Status α) (s : Bytes) (spec : Except Status β) (R : α → β → Prop) :
    Prop :=
  ∀ r t, InBuffer b r → r.err = false → r.rest = s ++ t →
    match spec with
    | .ok c => ∃ a, f r = .ok a (r.adv s.length) ∧ R a c
    | .error e => ∃ r', f r = .fail e r'

namespace Parses

variable {f : Rd Status α} {g : α → Rd Status γ} {s t : Bytes} {R : α → β → Prop}
  {P : γ → δ → Prop} {spec : Except Status β} {q : β → Except Status δ}

theorem pure {a : α} {c : β} (h : R a c) : Parses b (Pure.pure a : Rd Status α) [] (.ok c) R :=
  fun _ _ _ _ _ => ⟨a, rfl, h⟩

theorem throw {e : Status} : Parses b (Rd.throw e : Rd Status α) s (.error e : Except Status β) R :=
  fun r _ _ _ _ => ⟨r, rfl⟩

theorem mono {Q : α → β → Prop} (h : Parses b f s spec R) (hRQ : ∀ a c, R a c → Q a c) :
    Parses b f s spec Q := by
  intro r t hr he hs
  have hf := h r t hr he hs
  cases spec with
  | ok c =>
      obtain ⟨a, ha, hc⟩ := hf
      exact ⟨a, ha, hRQ a c hc⟩
  | error e => exact hf

theorem of_reads {a : α} {c : β} (hf : Reads b f s a) (h : R a c) : Parses b f s (.ok c) R :=
  fun r t hr he hs => ⟨a, hf r t hr he hs, h⟩

/-- A call, and what follows it unless it failed. -/
theorem bind (hf : Parses b f s spec R) (hg : ∀ a c, R a c → Parses b (g a) t (q c) P) :
    Parses b (f >>= g) (s ++ t) (spec >>= q) P := by
  intro r u hr he hs
  rw [List.append_assoc] at hs
  have h₁ := hf r _ hr he hs
  cases spec with
  | error e =>
      obtain ⟨r', hr'⟩ := h₁
      exact ⟨r', bind_fail hr'⟩
  | ok c =>
      obtain ⟨a, ha, hc⟩ := h₁
      have h₂ := hg a c hc _ u (hr.adv_of_append hs) he (Reader.rest_adv_of_append hs)
      rw [Reader.adv_adv, ← List.length_append] at h₂
      show match q c with
        | .ok c => ∃ a, (f >>= g) r = _ ∧ P a c
        | .error e => ∃ r', (f >>= g) r = _
      rw [bind_ok ha]
      exact h₂

/-- A call at the end, whose result is only taken over. -/
theorem map {k : α → γ} {l : β → δ} (hf : Parses b f s spec R) (h : ∀ a c, R a c → P (k a) (l c)) :
    Parses b (f >>= fun a => Pure.pure (k a)) s (l <$> spec) P := by
  have hb := hf.bind (g := fun a => Pure.pure (k a)) (q := fun c => Except.ok (l c))
    fun a c hac => .pure (h a c hac)
  rw [List.append_nil] at hb
  cases spec with
  | ok c => exact hb
  | error e => exact hb

/-- What is read is the same, and more is said of it. -/
theorem thenPure {l : β → δ} {Q : α → δ → Prop} (hf : Parses b f s spec R)
    (h : ∀ a c, R a c → Q a (l c)) : Parses b f s (spec >>= fun c => Pure.pure (l c)) Q := by
  intro r t hr he hs
  have hf := hf r t hr he hs
  cases spec with
  | ok c =>
      obtain ⟨a, ha, hc⟩ := hf
      exact ⟨a, ha, h a c hc⟩
  | error e => exact hf

/-- A result that is tested: nothing more is read. -/
theorem andThen (hf : Parses b f s spec R) (hg : ∀ a c, R a c → Parses b (g a) [] (q c) P) :
    Parses b (f >>= g) s (spec >>= q) P := by
  have h := hf.bind hg
  rwa [List.append_nil] at h

/-- The test of a key. -/
theorem keyIs {k : Span} {key : Bytes} {name : String} {g : Bool → Rd Status α}
    (hk : k.of b.bytes = key) (hg : Parses b (g (key = ascii name)) s spec R) :
    Parses b (Fido.keyIs k name >>= g) s spec R := by
  intro r t hr he hs
  have hrun : (Fido.keyIs k name : Rd Status Bool) r = .ok (decide (key = ascii name)) r := by
    show Out.ok (decide (k.of r.buf = ascii name)) r = _
    rw [hr.buf, hk]
  rw [bind_ok hrun]
  exact hg r t hr he hs

/-- The two ways after the test of a key. -/
theorem ifKey {k : Span} {key : Bytes} {name : String} {f g : Rd Status α}
    (hk : k.of b.bytes = key) (hf : key = ascii name → Parses b f s spec R)
    (hg : key ≠ ascii name → Parses b g s spec R) :
    Parses b (Fido.keyIs k name >>= fun c => if c then f else g) s spec R := by
  refine .keyIs hk ?_
  by_cases h : key = ascii name
  · rw [if_pos (decide_eq_true h)]
    exact hf h
  · rw [if_neg (by simpa using h)]
    exact hg h

end Parses

/-- The items the parsers meet: those of a string that `cbor_validate` accepts. -/
abbrev Met (x : Item) : Prop := Readable cborMaxDepth x

/-- The items of an array or map that is met. -/
theorem met_item {k : Box} {w : Width} {xs : List Item} (h : Met (.box k w xs)) :
    ∀ x ∈ xs, Met x := by
  intro x hx
  refine ⟨Item.allIn_iff.mp h.plain.2 x hx, Item.allIn_iff.mp h.heads.2 x hx, ?_⟩
  have hd := h.depth
  have hxs : Item.depthAll xs + 1 ≤ cborMaxDepth := hd
  exact (Item.depthAll_le.mp le_rfl x hx).trans (Nat.le_of_succ_le hxs)

theorem orInvalid_ok {f : Rd Unit α} {a : α} {r' : Reader} (h : f r = .ok a r') :
    orInvalid f r = .ok a r' := by
  unfold orInvalid
  rw [h]

/-! ### Typed reads -/

theorem want_head {g : Head} {t : Bytes} (hg : g.Fits) (hs : r.rest = g.encode ++ t) (m : ℕ) :
    want m r = if g.major = m then .ok () r else .fail .cborUnexpectedType r := by
  rw [want, bind_ok (peekMajor_head hs hg)]
  by_cases h : g.major = m
  · rw [if_pos h, if_pos (congrArg some h)]
    rfl
  · rw [if_neg h, if_neg fun hsome => h (Option.some.inj hsome)]
    rfl

theorem want_run {x : Item} {t : Bytes} (hx : x.Plain) (hs : r.rest = x.encode ++ t) (m : ℕ) :
    want m r = if x.major = m then .ok () r else .fail .cborUnexpectedType r := by
  obtain ⟨g, s, hg, henc, hm⟩ := Item.head_of_plain hx
  rw [← hm]
  exact want_head hg (by rw [hs, henc, List.append_assoc]) m

/-- A read of an item that must be of major type `m`. -/
theorem parses_typed {f : Rd Unit α} {as : Value → Except Status β} {R : α → β → Prop} {m : ℕ}
    (has : ∀ v : Value, v.major ≠ m → as v = .error .cborUnexpectedType) {x : Item} (hx : Met x)
    (hread : x.major = m → ∃ c, as x.value = .ok c ∧ ∀ r t, InBuffer b r → r.err = false →
      r.rest = x.encode ++ t → ∃ a, f r = .ok a (r.adv x.encode.length) ∧ R a c) :
    Parses b (do want m; orInvalid f) x.encode (as x.value) R := by
  intro r t hr he hs
  have hw := want_run hx.plain hs m
  by_cases hm : x.major = m
  · rw [if_pos hm] at hw
    obtain ⟨c, hspec, hread⟩ := hread hm
    obtain ⟨a, ha, hac⟩ := hread r t hr he hs
    rw [hspec]
    exact ⟨a, by rw [bind_ok hw, orInvalid_ok ha], hac⟩
  · rw [if_neg hm] at hw
    rw [has _ (Item.value_major hx.plain ▸ hm)]
    exact ⟨r, bind_fail hw⟩

theorem asText_error (v : Value) (h : v.major ≠ 3) : asText v = .error .cborUnexpectedType := by
  cases v with
  | text => exact absurd rfl h
  | _ => rfl

theorem asBytes_error (v : Value) (h : v.major ≠ 2) : asBytes v = .error .cborUnexpectedType := by
  cases v with
  | bytes => exact absurd rfl h
  | _ => rfl

theorem asUint_error (v : Value) (h : v.major ≠ 0) : asUint v = .error .cborUnexpectedType := by
  cases v with
  | uint => exact absurd rfl h
  | _ => rfl

theorem asArray_error (v : Value) (h : v.major ≠ 4) : asArray v = .error .cborUnexpectedType := by
  cases v with
  | array => exact absurd rfl h
  | _ => rfl

theorem asMap_error (v : Value) (h : v.major ≠ 5) : asMap v = .error .cborUnexpectedType := by
  cases v with
  | map => exact absurd rfl h
  | _ => rfl

/-- The items of the major types, when they are plain. -/
theorem item_of_major {x : Item} (hx : x.Plain) :
    (∃ k w v, x = .atom k w v ∧ x.major = k.major) ∨ (∃ k w s, x = .str k w s ∧ x.major = k.major) ∨
      ∃ k w xs, x = .box k w xs ∧ x.major = k.major := by
  cases x with
  | atom k w v => exact .inl ⟨k, w, v, rfl, rfl⟩
  | str k w s => exact .inr (.inl ⟨k, w, s, rfl, rfl⟩)
  | box k w xs => exact .inr (.inr ⟨k, w, xs, rfl, rfl⟩)
  | tag => exact absurd hx.1 id
  | strOpen => exact absurd hx id
  | boxOpen => exact absurd hx.1 id

theorem atom_of_major {x : Item} (hx : x.Plain) {k : Atom} (h : x.major = k.major) :
    ∃ w v, x = .atom k w v := by
  rcases item_of_major hx with ⟨k', w, v, rfl, h'⟩ | ⟨k', w, s, rfl, h'⟩ | ⟨k', w, xs, rfl, h'⟩
  · cases k <;> cases k' <;> first
      | exact ⟨w, v, rfl⟩
      | cases h
  · cases k <;> cases k' <;> cases h
  · cases k <;> cases k' <;> cases h

theorem str_of_major {x : Item} (hx : x.Plain) {k : Str} (h : x.major = k.major) :
    ∃ w s, x = .str k w s := by
  rcases item_of_major hx with ⟨k', w, v, rfl, h'⟩ | ⟨k', w, s, rfl, h'⟩ | ⟨k', w, xs, rfl, h'⟩
  · cases k <;> cases k' <;> cases h
  · cases k <;> cases k' <;> first
      | exact ⟨w, s, rfl⟩
      | cases h
  · cases k <;> cases k' <;> cases h

theorem box_of_major {x : Item} (hx : x.Plain) {k : Box} (h : x.major = k.major) :
    ∃ w xs, x = .box k w xs := by
  rcases item_of_major hx with ⟨k', w, v, rfl, h'⟩ | ⟨k', w, s, rfl, h'⟩ | ⟨k', w, xs, rfl, h'⟩
  · cases k <;> cases k' <;> cases h
  · cases k <;> cases k' <;> cases h
  · cases k <;> cases k' <;> first
      | exact ⟨w, xs, rfl⟩
      | cases h

/-- The span lies in the request and covers these bytes. -/
def Covers (b : Buffer) (sp : Span) (s : Bytes) : Prop := sp.of b.bytes = s ∧ sp.In b

theorem Covers.len {sp : Span} {s : Bytes} (h : Covers b sp s) : sp.len = s.length := by
  obtain ⟨rfl, hin⟩ := h
  have hin : sp.off + sp.len ≤ b.bytes.length := hin
  rw [Span.of, List.length_take, List.length_drop]
  omega

theorem readByteRun_covers {k : Str} {w : Width} {s : Bytes} (hx : Met (.str k w s)) (r : Reader)
    (t : Bytes) (hr : InBuffer b r) (he : r.err = false)
    (hs : r.rest = Item.encode (.str k w s) ++ t) :
    ∃ sp, readByteRun k.major r = .ok sp (r.adv (Item.encode (.str k w s)).length) ∧
      Covers b sp s := by
  obtain ⟨sp, hrun, hof, hin⟩ := readByteRun_str hr he hs hx.plain hx.heads
  exact ⟨sp, hrun, hr.buf ▸ hof, hin⟩

theorem parses_rdText {x : Item} (hx : Met x) :
    Parses b rdText x.encode (asText x.value) (Covers b) := by
  refine parses_typed asText_error hx fun hm => ?_
  obtain ⟨w, s, rfl⟩ := str_of_major (k := .text) hx.plain hm
  exact ⟨s, rfl, readByteRun_covers hx⟩

theorem parses_rdBytes {x : Item} (hx : Met x) :
    Parses b rdBytes x.encode (asBytes x.value) (Covers b) := by
  refine parses_typed asBytes_error hx fun hm => ?_
  obtain ⟨w, s, rfl⟩ := str_of_major (k := .bytes) hx.plain hm
  exact ⟨s, rfl, readByteRun_covers hx⟩

theorem parses_rdParamKey {x : Item} (hx : Met x) :
    Parses b rdParamKey x.encode (asUint x.value) (· = ·) := by
  refine parses_typed asUint_error hx fun hm => ?_
  obtain ⟨w, v, rfl⟩ := atom_of_major (k := .uint) hx.plain hm
  refine ⟨v, rfl, fun r t hr he hs => ?_⟩
  exact ⟨v, readTyped_head (g := ⟨0, w, v⟩) hr he hs ⟨Atom.major_lt .uint, hx.plain⟩ hx.heads, rfl⟩

theorem parses_rdSmallUint {x : Item} (hx : Met x) :
    Parses b rdSmallUint x.encode (protocolRule x.value) (· = ·) := by
  have hf : rdSmallUint = rdParamKey >>= fun v => pure (if 0xffff < v then 0xffff else v) := by
    rw [rdParamKey, bind_assoc]
    rfl
  rw [hf]
  refine (parses_rdParamKey hx).map fun v n hv => ?_
  obtain rfl := hv
  split <;> omega

theorem parses_rdSkip {x : Item} (hx : Met x) {c : β} :
    Parses b rdSkip x.encode (.ok c) fun _ _ => True := by
  intro r t hr he hs
  have hread : Readable cborSkipMaxDepth x := hx.mono (by decide)
  exact ⟨(), orInvalid_ok (walks_skipItem cborSkipMaxDepth r x t hr he hs hread), trivial⟩

/-- The algorithm that was read, or a number at a limit of the type that is no algorithm. -/
def SameAlg (a z : ℤ) : Prop := (a = algEddsa ↔ z = -8) ∧ (a = algEs256 ↔ z = -7)

/-- `rd_int` on the argument of a head. -/
def clamped (mt v : ℕ) : ℤ :=
  if 0x7fffffff < v then (if mt = 0 then int32Max else int32Min)
  else (if mt = 0 then (v : ℤ) else -1 - v)

theorem sameAlg_uint (v : ℕ) : SameAlg (clamped 0 v) v := by
  unfold SameAlg clamped algEddsa algEs256 int32Max
  rw [if_pos rfl, if_pos rfl]
  split <;> omega

theorem sameAlg_nint (v : ℕ) : SameAlg (clamped 1 v) (-1 - v) := by
  unfold SameAlg clamped algEddsa algEs256 int32Min
  rw [if_neg Nat.one_ne_zero, if_neg Nat.one_ne_zero]
  split <;> omega

theorem asInt_error (v : Value) (h₀ : v.major ≠ 0) (h₁ : v.major ≠ 1) :
    asInt v = .error .cborUnexpectedType := by
  cases v with
  | uint => exact absurd rfl h₀
  | nint => exact absurd rfl h₁
  | _ => rfl

theorem parses_rdInt {x : Item} (hx : Met x) :
    Parses b rdInt x.encode (asInt x.value) SameAlg := by
  intro r t hr he hs
  obtain ⟨g, s, hg, henc, hm⟩ := Item.head_of_plain hx.plain
  have hpeek : (cborReaderPeekMajor : Rd Status (Option ℕ)) r = .ok (some x.major) r := by
    rw [← hm]
    exact peekMajor_head (by rw [hs, henc, List.append_assoc]) hg
  -- the head of an integer, and the number that is made of it
  have hread (k : Atom) (w : Width) (v : ℕ) (hxk : x = .atom k w v) :
      (orInvalid cborReaderReadHead >>= fun h : ℕ × ℕ =>
        if 0x7fffffff < h.2 then pure (if h.1 = 0 then int32Max else int32Min)
        else pure (if h.1 = 0 then (h.2 : ℤ) else -1 - h.2) : Rd Status ℤ) r =
        .ok (clamped k.major v) (r.adv x.encode.length) := by
    subst hxk
    have hhead := readHead_encode (g := ⟨k.major, w, v⟩) hr he hs ⟨k.major_lt, hx.plain⟩ hx.heads
    rw [bind_ok (orInvalid_ok hhead)]
    unfold clamped
    dsimp only
    split <;> rfl
  unfold rdInt
  rw [bind_ok hpeek]
  by_cases h₀ : x.major = 0
  · obtain ⟨w, v, hxv⟩ := atom_of_major (k := .uint) hx.plain h₀
    rw [if_neg fun h => h.1 (congrArg some h₀), hread .uint w v hxv, hxv]
    exact ⟨_, rfl, sameAlg_uint v⟩
  by_cases h₁ : x.major = 1
  · obtain ⟨w, v, hxv⟩ := atom_of_major (k := .nint) hx.plain h₁
    rw [if_neg fun h => h.2 (congrArg some h₁), hread .nint w v hxv, hxv]
    exact ⟨_, rfl, sameAlg_nint v⟩
  · rw [if_pos ⟨fun h => h₀ (Option.some.inj h), fun h => h₁ (Option.some.inj h)⟩,
      asInt_error _ (Item.value_major hx.plain ▸ h₀) (Item.value_major hx.plain ▸ h₁)]
    exact ⟨r, rfl⟩

theorem laxBool_ofSeven (w : Width) (v : ℕ) :
    laxBool (.ofSeven w v) = if v = 20 then some false else if v = 21 then some true else none := by
  cases w with
  | zero =>
      show laxBool (if v = 20 then .bool false else if v = 21 then .bool true else
        if v = 22 then .null else .simple v) = _
      by_cases h₀ : v = 20
      · rw [if_pos h₀, if_pos h₀]
        rfl
      by_cases h₁ : v = 21
      · rw [if_neg h₀, if_pos h₁, if_neg h₀, if_pos h₁]
        rfl
      by_cases h₂ : v = 22
      · rw [if_neg h₀, if_neg h₁, if_pos h₂, if_neg h₀, if_neg h₁]
        rfl
      · rw [if_neg h₀, if_neg h₁, if_neg h₂]
        rfl
  | _ => rfl

theorem boolRule_error (v : Value) (h : v.major ≠ 7) :
    boolRule laxBool v = .error .cborUnexpectedType := by
  cases v with
  | bool | simple | null | float => exact absurd rfl h
  | _ => rfl

theorem parses_rdBool {x : Item} (hx : Met x) :
    Parses b rdBool x.encode (boolRule laxBool x.value) (· = ·) := by
  intro r t hr he hs
  have hw := want_run hx.plain hs 7
  unfold rdBool
  by_cases hm : x.major = 7
  · rw [if_pos hm] at hw
    obtain ⟨w, v, rfl⟩ := atom_of_major (k := .simple) hx.plain hm
    have hhead := readHead_encode (g := ⟨7, w, v⟩) hr he hs ⟨Atom.major_lt .simple, hx.plain⟩
      hx.heads
    rw [bind_ok hw, bind_ok (orInvalid_ok hhead)]
    have hspec : laxBool (Item.value (.atom .simple w v)) =
        if v = 20 then some false else if v = 21 then some true else none := laxBool_ofSeven w v
    unfold boolRule
    rw [hspec]
    dsimp only
    by_cases h₀ : v = 20
    · rw [if_pos h₀, if_pos h₀]
      exact ⟨false, rfl, rfl⟩
    by_cases h₁ : v = 21
    · rw [if_neg h₀, if_neg h₀, if_pos h₁, if_pos h₁]
      exact ⟨true, rfl, rfl⟩
    · rw [if_neg h₀, if_neg h₀, if_neg h₁, if_neg h₁]
      exact ⟨_, rfl⟩
  · rw [if_neg hm] at hw
    rw [boolRule_error _ (Item.value_major hx.plain ▸ hm)]
    exact ⟨r, bind_fail hw⟩

/-! ### Loops -/

/-- A loop that reads one thing after another. `I` is what its state says of the things read
so far. -/
theorem parses_loop {ι : Type} {g : σ → Rd Status σ} {c : ι → Bytes}
    {f : ι → Except Status δ} {I : List δ → σ → Prop} {xs : List ι}
    (hbody : ∀ x ∈ xs, ∀ es s, I es s →
      Parses b (g s) (c x) (f x) fun s' e => I (es ++ [e]) s')
    {es : List δ} {s : σ} (hs : I es s) :
    Parses b (loop g xs.length s) (xs.flatMap c) (xs.mapM f)
      fun s' es' => I (es ++ es') s' := by
  induction xs generalizing es s with
  | nil => exact .pure (by show I (es ++ []) s; rwa [List.append_nil])
  | cons x xs ih =>
      rw [List.flatMap_cons, List.mapM_cons]
      refine (hbody x List.mem_cons_self es s hs).bind fun s' e he => ?_
      refine (ih (fun y hy => hbody y (List.mem_cons_of_mem x hy)) he).thenPure fun s'' es' h => ?_
      rwa [List.append_assoc] at h

theorem encodeAll_eq (xs : List Item) : Item.encodeAll xs = xs.flatMap Item.encode := by
  induction xs with
  | nil => rfl
  | cons x xs ih => rw [Item.encodeAll, ih, List.flatMap_cons]

/-- The members of a map, in whose items keys and values take turns. -/
theorem pairs_of_even {xs : List Item} {n : ℕ} (h : xs.length = 2 * n) :
    (pairs xs).length = n ∧
      Item.encodeAll xs = (pairs xs).flatMap (fun m => m.1.encode ++ m.2.encode) ∧
      pairs (Item.values xs) = (pairs xs).map (fun m => (m.1.value, m.2.value)) ∧
      ∀ m ∈ pairs xs, m.1 ∈ xs ∧ m.2 ∈ xs := by
  induction n generalizing xs with
  | zero =>
      obtain rfl := List.length_eq_zero_iff.mp h
      exact ⟨rfl, rfl, rfl, fun _ hm => absurd hm List.not_mem_nil⟩
  | succ n ih =>
      obtain ⟨k, v, xs, rfl⟩ : ∃ k v ys, xs = k :: v :: ys := by
        match xs, h with
        | k :: v :: ys, _ => exact ⟨k, v, ys, rfl⟩
      obtain ⟨hlen, henc, hval, hmem⟩ := ih (show xs.length = 2 * n by simp at h; omega)
      refine ⟨congrArg (· + 1) hlen, ?_, ?_, ?_⟩
      · rw [pairs, List.flatMap_cons, Item.encodeAll, Item.encodeAll, henc, List.append_assoc]
      · rw [pairs, List.map_cons, Item.values, Item.values, pairs, hval]
      · intro m hm
        rw [pairs] at hm
        rcases List.mem_cons.mp hm with rfl | hm
        · simp
        · exact ⟨List.mem_cons_of_mem _ (List.mem_cons_of_mem _ (hmem m hm).1),
            List.mem_cons_of_mem _ (List.mem_cons_of_mem _ (hmem m hm).2)⟩

/-- The head of an array or map of the type that is wanted. -/
theorem reads_header {k : Box} {w : Width} {xs : List Item} (hx : Met (.box k w xs)) :
    Reads b (do want k.major; orInvalid (readCount k.major) : Rd Status ℕ)
      (Head.encode ⟨k.major, w, k.count xs.length⟩) (k.count xs.length) := by
  intro r t hr he hs
  have hg : Head.Fits ⟨k.major, w, k.count xs.length⟩ := ⟨k.major_lt, hx.plain.1.1⟩
  have hv : k.count xs.length < 2 ^ 32 := by
    by_cases h : w = .eight
    · exact hx.heads.1 h
    · exact Nat.lt_of_lt_of_le hx.plain.1.1 (Width.bound_le h)
  have hw := want_head hg hs k.major
  rw [if_pos rfl] at hw
  rw [bind_ok hw, orInvalid_ok (readCount_head hr he hs hg hv)]

/-- A loop over what is in an array or map, after a head of the type that is wanted. -/
theorem parses_box {k : Box} {as : Value → Except Status (List γ)} {rule : γ → Except Status δ}
    {body : σ → Rd Status σ} {s : σ} {R : σ → List δ → Prop}
    (has : ∀ v : Value, v.major ≠ k.major → as v = .error .cborUnexpectedType)
    {x : Item} (hx : Met x)
    (hloop : ∀ w xs, x = .box k w xs → ∃ ys, as x.value = .ok ys ∧
      Parses b (loop body (k.count xs.length) s) (Item.encodeAll xs) (ys.mapM rule) R) :
    Parses b ((do want k.major; orInvalid (readCount k.major)) >>= fun n => loop body n s)
      x.encode (as x.value >>= fun ys => ys.mapM rule) R := by
  by_cases hm : x.major = k.major
  · obtain ⟨w, xs, rfl⟩ := box_of_major hx.plain hm
    obtain ⟨ys, has, hloop⟩ := hloop w xs rfl
    rw [has]
    have hread := Parses.of_reads (c := ys) (R := fun n _ => n = k.count xs.length)
      (reads_header (b := b) hx) rfl
    refine hread.bind (q := fun _ => ys.mapM rule) fun n _ hn => ?_
    rw [hn]
    exact hloop
  · rw [has _ (Item.value_major hx.plain ▸ hm), bind_assoc]
    intro r t hr he hs
    have hw := want_run hx.plain hs k.major
    rw [if_neg hm] at hw
    exact ⟨r, bind_fail hw⟩

/-- The items of an array, in their order. -/
theorem parses_array {g : σ → Rd Status σ} {f : Value → Except Status δ}
    {I : List δ → σ → Prop} {s : σ} (hs : I [] s)
    (hbody : ∀ x es s, Met x → I es s →
      Parses b (g s) x.encode (f x.value) fun s' e => I (es ++ [e]) s')
    {x : Item} (hx : Met x) :
    Parses b (rdArray >>= fun n => loop g n s) x.encode
      (asArray x.value >>= fun xs => xs.mapM f) fun s' es => I es s' := by
  refine parses_box (k := .array) asArray_error hx fun w xs hxs => ⟨Item.values xs, hxs ▸ rfl, ?_⟩
  have hitem := met_item (hxs ▸ hx)
  have h := parses_loop (b := b) (c := Item.encode) (f := fun x => f x.value)
    (fun x hm es s hs => hbody x es s (hitem x hm) hs) hs
  rw [encodeAll_eq, Item.values_eq, List.mapM_map]
  exact h

/-- The members of a map, in their order. -/
theorem parses_map {g : σ → Rd Status σ} {f : Value × Value → Except Status δ}
    {I : List δ → σ → Prop} {s : σ} (hs : I [] s)
    (hbody : ∀ k v es s, Met k → Met v → I es s →
      Parses b (g s) (k.encode ++ v.encode) (f (k.value, v.value))
        fun s' e => I (es ++ [e]) s')
    {x : Item} (hx : Met x) :
    Parses b (rdMap >>= fun n => loop g n s) x.encode
      (asMap x.value >>= fun ms => ms.mapM f) fun s' es => I es s' := by
  refine parses_box (k := .map) asMap_error hx fun w xs hxs =>
    ⟨pairs (Item.values xs), hxs ▸ rfl, ?_⟩
  subst hxs
  have hitem := met_item hx
  obtain ⟨hlen, henc, hval, hmem⟩ := pairs_of_even hx.plain.1.2.symm
  have h := parses_loop (b := b) (c := fun m : Item × Item => m.1.encode ++ m.2.encode)
    (f := fun m => f (m.1.value, m.2.value))
    (fun m hm es s hs => hbody m.1 m.2 es s (hitem _ (hmem m hm).1) (hitem _ (hmem m hm).2) hs) hs
  rw [hlen] at h
  rw [henc, hval, List.mapM_map]
  exact h

end Nixtropic.Fido
