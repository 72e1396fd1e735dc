import Nixtropic.Fido.ParseLogic

/-!
The readers of single members, against the rules for the values of these members.

The rule for an option is the one `rd_bool` follows, `laxBool`.
-/

namespace Nixtropic.Fido

open Cbor Rd

variable {b : Buffer} {x : Item} {α β δ : Type}

@[simp] theorem lastOf_nil (f : α → Option β) : lastOf f [] = none := rfl

@[simp] theorem lastOf_snoc (f : α → Option β) (xs : List α) (a : α) :
    lastOf f (xs ++ [a]) = (f a).or (lastOf f xs) := by
  unfold lastOf
  rw [List.filterMap_append, List.filterMap_cons, List.filterMap_nil]
  cases f a with
  | none => rw [List.append_nil]; rfl
  | some c => rw [List.getLast?_append]; rfl

/-- The bytes a span covers. -/
theorem parses_content {sp : Span} {s : Bytes} (h : Covers b sp s) :
    Parses b (content sp) [] (.ok s : Except Status Bytes) (· = ·) := by
  intro r t hr _ _
  refine ⟨sp.of r.buf, rfl, ?_⟩
  rw [hr.buf]
  exact h.1

/-- A value that is passed over. -/
theorem parses_skip {R : α → β → Prop} {a : α} {c : β} (hx : Met x) (h : R a c) :
    Parses b (do rdSkip; pure a) x.encode (.ok c) R :=
  (parses_rdSkip (c := ()) hx).map (k := fun _ => a) (l := fun _ => c) fun _ _ _ => h

/-- `rd_client_hash` -/
theorem parses_rdClientHash (hx : Met x) :
    Parses b rdClientHash x.encode (hashRule x.value) (· = ·) := by
  refine (parses_rdBytes hx).andThen fun sp s hs => ?_
  rw [hs.len]
  by_cases h : s.length = 32
  · rw [if_pos h, if_neg fun hne => hne h]
    exact parses_content hs
  · rw [if_neg h, if_pos h]
    exact .throw

/-- A loop over the members of a map, and a test of what it collected. -/
theorem Parses.mapThen {σ γ ε : Type} {body : σ → Rd Status σ} {s : σ} {k : σ → Rd Status γ}
    {rule : Value × Value → Except Status δ} {l : List δ → Except Status ε}
    {R : σ → List δ → Prop} {P : γ → ε → Prop}
    (hf : Parses b (rdMap >>= fun n => loop body n s) x.encode
      (asMap x.value >>= fun ms => ms.mapM rule) R)
    (hk : ∀ s es, R s es → Parses b (k s) [] (l es) P) :
    Parses b (do let n ← rdMap; let s ← loop body n s; k s) x.encode
      (do let ms ← asMap x.value; let es ← ms.mapM rule; l es) P := by
  have h := hf.andThen hk
  rwa [bind_assoc, LawfulMonad.bind_assoc] at h

/-! ### Entities -/

/-- `rd_rp`, and `rd_user` up to its length check. -/
theorem parses_rdId {rd : Rd Status Span} {read : Value → Except Status Bytes}
    (hrd : ∀ {x : Item}, Met x → Parses b rd x.encode (read x.value) (Covers b)) (hx : Met x) :
    Parses b (rdId rd) x.encode (idRule read x.value) (Covers b) := by
  refine Parses.mapThen (R := fun o ids => Option.Rel (Covers b) o (lastOf id ids))
    (parses_map (I := fun ids o => Option.Rel (Covers b) o (lastOf id ids)) .none ?_ hx) ?_
  · intro k v ids o hk hv ho
    refine (parses_rdText hk).bind fun sp s hs => .ifKey hs.1 (fun h => ?_) fun h => ?_
    · rw [if_pos h]
      refine (hrd hv).map fun p c hp => ?_
      rw [lastOf_snoc]
      exact .some hp
    · rw [if_neg h]
      refine parses_skip hv ?_
      rw [lastOf_snoc]
      exact ho
  · intro o ids ho
    generalize lastOf id ids = last at ho ⊢
    cases ho with
    | none => exact .throw
    | some h => exact .pure h

/-- `rd_user` -/
theorem parses_rdUser (hx : Met x) :
    Parses b rdUser x.encode (userRule x.value) (Covers b) := by
  refine (parses_rdId parses_rdBytes hx).andThen fun sp s hs => ?_
  rw [hs.len]
  by_cases h : s.length ≤ 64
  · rw [if_pos h, if_pos (show s.length ≤ userIdMax from h)]
    exact .pure hs
  · rw [if_neg h, if_neg (show ¬ s.length ≤ userIdMax from h)]
    exact .throw

/-! ### Lists of maps -/

/-- One member of an entry of pubKeyCredParams or of a descriptor. -/
theorem parses_entryMember {σ : Type} {rd : Rd Status α} {read : Value → Except Status β}
    {R : α → β → Prop} (hrd : ∀ {x : Item}, Met x → Parses b rd x.encode (read x.value) R)
    {name : String} {s : σ} {withWhat : α → σ} {withType : Bool → σ} {Q : σ → EntryMember β → Prop}
    (hwhat : ∀ a c, R a c → Q (withWhat a) (.what c))
    (htype : ∀ t, Q (withType (t = ascii "public-key")) (.type t)) (hskip : Q s .unknown)
    {k v : Item} (hk : Met k) (hv : Met v) :
    Parses b (do
      let k ← rdText
      if ← keyIs k name then do
        let a ← rd
        pure (withWhat a)
      else if ← keyIs k "type" then do
        let t ← rdText
        pure (withType (← keyIs t "public-key"))
      else do
        rdSkip
        pure s) (k.encode ++ v.encode) (entryMember name read (k.value, v.value)) Q := by
  refine (parses_rdText hk).bind fun sp key hkey => .ifKey hkey.1 (fun h => ?_) fun h => ?_
  · rw [if_pos h]
    exact (hrd hv).map hwhat
  rw [if_neg h]
  refine .ifKey hkey.1 (fun h' => ?_) fun h' => ?_
  · rw [if_pos h']
    refine (parses_rdText hv).andThen (q := fun t => .ok (EntryMember.type t)) fun sp t ht => ?_
    exact .keyIs ht.1 (.pure (htype t))
  · rw [if_neg h']
    exact parses_skip hv hskip

/-- What an entry has read so far, in the state of its loop. -/
structure EntryState (R : α → β → Prop) (a : Option α) (publicKey : Option Bool)
    (es : List (EntryMember β)) : Prop where
  what : Option.Rel R a (lastOf EntryMember.what? es)
  type : publicKey = (lastOf EntryMember.type? es).map fun t => decide (t = ascii "public-key")

namespace EntryState

variable {R : α → β → Prop} {a : Option α} {publicKey : Option Bool} {es : List (EntryMember β)}

theorem init : EntryState R none none [] := ⟨.none, rfl⟩

theorem withWhat (h : EntryState R a publicKey es) {c : α} {d : β} (hcd : R c d) :
    EntryState R (some c) publicKey (es ++ [.what d]) := by
  refine ⟨?_, ?_⟩
  · rw [lastOf_snoc]
    exact .some hcd
  · rw [lastOf_snoc]
    exact h.type

theorem withType (h : EntryState R a publicKey es) (t : Bytes) :
    EntryState R a (some (t = ascii "public-key")) (es ++ [.type t]) := by
  refine ⟨?_, ?_⟩
  · rw [lastOf_snoc]
    exact h.what
  · rw [lastOf_snoc]
    rfl

theorem unknown (h : EntryState R a publicKey es) :
    EntryState R a publicKey (es ++ [.unknown]) := by
  refine ⟨?_, ?_⟩
  · rw [lastOf_snoc]
    exact h.what
  · rw [lastOf_snoc]
    exact h.type

/-- One of the two members is missing, or both were there. -/
theorem missing_or_both (h : EntryState R a publicKey es) :
    (a = none ∧ lastOf EntryMember.what? es = none) ∨
      (∃ c d, a = some c ∧ lastOf EntryMember.what? es = some d ∧ publicKey = none ∧
        lastOf EntryMember.type? es = none) ∨
      ∃ c d t, R c d ∧ a = some c ∧ lastOf EntryMember.what? es = some d ∧
        publicKey = some (decide (t = ascii "public-key")) ∧
        lastOf EntryMember.type? es = some t := by
  obtain ⟨hwhat, htype⟩ := h
  generalize lastOf EntryMember.what? es = what at hwhat ⊢
  generalize lastOf EntryMember.type? es = type at htype ⊢
  subst htype
  cases hwhat with
  | none => exact .inl ⟨rfl, rfl⟩
  | some hcd =>
      cases type with
      | none => exact .inr (.inl ⟨_, _, rfl, rfl, rfl, rfl⟩)
      | some t => exact .inr (.inr ⟨_, _, t, hcd, rfl, rfl, rfl, rfl⟩)

end EntryState

/-- The algorithm that was chosen; 0 when there was none. -/
def Chosen (z : ℤ) (o : Option ℤ) : Prop := o = if z = 0 then none else some z

theorem Chosen.none : Chosen 0 none := (if_pos rfl).symm

/-- The first supported one stays. -/
theorem Chosen.next {z a : ℤ} {es : List (ℤ × Bytes)} (h : Chosen z (es.findSome? supported))
    {d : ℤ} {t : Bytes} (had : SameAlg a d) :
    Chosen (if z = 0 ∧ decide (t = ascii "public-key") ∧ (a = algEddsa ∨ a = algEs256) then
      a else z)
      ((es ++ [(d, t)]).findSome? supported) := by
  obtain ⟨h₈, h₇⟩ := had
  unfold algEddsa at h₈ ⊢
  unfold algEs256 at h₇ ⊢
  unfold Chosen at h ⊢
  rw [List.findSome?_append, h, List.findSome?_singleton]
  by_cases hz : z = 0
  · rw [if_pos hz, Option.none_or, supported]
    by_cases hs : t = ascii "public-key" ∧ (d = -8 ∨ d = -7)
    · have hnew : (if z = 0 ∧ decide (t = ascii "public-key") ∧ (a = -8 ∨ a = -7) then a else z) =
          d := by
        rw [if_pos ⟨hz, decide_eq_true hs.1, hs.2.imp h₈.mpr h₇.mpr⟩]
        omega
      rw [if_pos hs, hnew, if_neg (by omega)]
    · have hold : (if z = 0 ∧ decide (t = ascii "public-key") ∧ (a = -8 ∨ a = -7) then a else z) =
          z := by
        refine if_neg fun ⟨_, ht, ha⟩ => ?_
        exact hs ⟨of_decide_eq_true ht, ha.imp h₈.mp h₇.mp⟩
      rw [if_neg hs, hold, if_pos hz]
  · have hold : (if z = 0 ∧ decide (t = ascii "public-key") ∧ (a = -8 ∨ a = -7) then a else z) =
        z := if_neg fun h => hz h.1
    rw [if_neg hz, hold, if_neg hz, Option.some_or]

/-- `rd_cred_params` -/
theorem parses_rdCredParams (hx : Met x) :
    Parses b rdCredParams x.encode (paramsRule x.value) Chosen := by
  have hparam {x : Item} (es : List (ℤ × Bytes)) (z : ℤ) (hx : Met x)
      (hz : Chosen z (es.findSome? supported)) :
      Parses b (rdParam z) x.encode (entryRule "alg" asInt x.value)
        fun z e => Chosen z ((es ++ [e]).findSome? supported) := by
    refine Parses.mapThen (parses_map (I := fun es e => EntryState SameAlg e.alg e.publicKey es)
      EntryState.init (fun k v es e hk hv he => ?_) hx) ?_
    · exact parses_entryMember parses_rdInt
        (fun _ _ h => he.withWhat h) he.withType he.unknown hk hv
    · intro e ms he
      obtain ⟨ha, hw⟩ | ⟨c, d, ha, hw, hp, ht⟩ | ⟨c, d, t, hcd, ha, hw, hp, ht⟩ :=
        he.missing_or_both
      · rw [ha, hw]
        exact .throw
      · rw [ha, hw, hp, ht]
        exact .throw
      · rw [ha, hw, hp, ht]
        exact .pure (hz.next hcd)
  have hloop := parses_array (b := b) (I := fun es z => Chosen z (es.findSome? supported))
    Chosen.none (fun x es z => hparam es z) hx
  have h := hloop.thenPure (l := fun es => es.findSome? supported) fun z es h => h
  rwa [LawfulMonad.bind_assoc] at h

/-- `rd_descriptor` -/
theorem parses_rdDescriptor (hx : Met x) :
    Parses b rdDescriptor x.encode (entryRule "id" asBytes x.value) fun d e =>
      Covers b d.1 e.1 ∧ d.2 = decide (e.2 = ascii "public-key") := by
  refine Parses.mapThen (parses_map (I := fun es d => EntryState (Covers b) d.id d.publicKey es)
    EntryState.init (fun k v es e hk hv he => ?_) hx) ?_
  · exact parses_entryMember parses_rdBytes
      (fun _ _ h => he.withWhat h) he.withType he.unknown hk hv
  · intro e ms he
    obtain ⟨ha, hw⟩ | ⟨c, d, ha, hw, hp, ht⟩ | ⟨c, d, t, hcd, ha, hw, hp, ht⟩ := he.missing_or_both
    · rw [ha, hw]
      exact .throw
    · rw [ha, hw, hp, ht]
      exact .throw
    · rw [ha, hw, hp, ht]
      exact .pure ⟨hcd, rfl⟩

/-- `rd_cred_list`: the bytes of the array, which is a list. -/
theorem parses_credList (hx : Met x) :
    Parses b rdCredList x.encode (listRule x.value)
      fun sp v => sp.of b.bytes = x.encode ∧ listRule x.value = .ok v ∧ v = x.value := by
  have hitem {x : Item} (hx : Met x) :
      Parses b (do let _ ← rdDescriptor; pure () : Rd Status Unit) x.encode
        (entryRule "id" asBytes x.value) fun _ _ => True := by
    have h := (parses_rdDescriptor (b := b) hx).map (P := fun _ _ => True) (k := fun _ => ())
      (l := id) fun _ _ _ => trivial
    rwa [id_map] at h
  have hloop : Parses b (rdArray >>= fun n => loop (fun _ => do let _ ← rdDescriptor; pure ()) n ())
      x.encode (listRule x.value) fun _ v => v = x.value := by
    have h := (parses_array (b := b) (I := fun _ _ => True) (s := ()) trivial
      (fun x _ _ hx _ => hitem hx) hx).thenPure (l := fun _ => x.value)
        (Q := fun _ v => v = x.value)
      fun _ _ _ => rfl
    rwa [LawfulMonad.bind_assoc] at h
  intro r t hr he hs
  have hl := hloop r t hr he hs
  have hspan : Span.of ⟨r.pos, r.pos + x.encode.length - r.pos⟩ b.bytes = x.encode := by
    rw [Nat.add_sub_cancel_left, Span.of, ← hr.buf]
    show r.rest.take x.encode.length = _
    rw [hs, List.take_left]
  unfold rdCredList
  rw [reader_bind, ← bind_assoc]
  generalize listRule x.value = spec at hl ⊢
  cases spec with
  | ok v =>
      obtain ⟨_, hrun, hv⟩ := hl
      refine ⟨⟨r.pos, r.pos + x.encode.length - r.pos⟩, ?_, hspan, rfl, hv⟩
      rw [bind_ok hrun]
      rfl
  | error e =>
      obtain ⟨r', hrun⟩ := hl
      exact ⟨r', bind_fail hrun⟩

/-- These bytes stand for the value. -/
theorem parses_rdCredList (hx : Met x) :
    Parses b rdCredList x.encode (listRule x.value)
      fun sp v => Item.decode cborMaxDepth (sp.of b.bytes) = some v := by
  refine (parses_credList hx).mono fun sp v hsp => ?_
  obtain ⟨hspan, -, rfl⟩ := hsp
  rw [hspan]
  exact Item.decode_encode hx.plain hx.depth

/-! ### Options and extensions -/

/-- What the options say that were read one after the other. -/
def optionsAfter (os : List (OptionName × Bool)) : Options :=
  let last (n : OptionName) := lastOf (fun o => if o.1 = n then some o.2 else none) os
  ⟨last .rk, last .up, last .uv⟩

theorem optionsOf_eq (xs : List Field) :
    optionsOf xs = optionsAfter (xs.flatMap Field.options?) := rfl

/-- One more option. -/
def Options.set (opt : Options) (n : OptionName) (c : Bool) : Options :=
  match n with
  | .rk => { opt with rk := some c }
  | .up => { opt with up := some c }
  | .uv => { opt with uv := some c }

theorem optionsAfter_snoc (os : List (OptionName × Bool)) (n : OptionName) (c : Bool) :
    optionsAfter (os ++ [(n, c)]) = (optionsAfter os).set n c := by
  unfold optionsAfter
  simp only [lastOf_snoc]
  cases n <;> rfl

/-- One member of options. -/
theorem parses_rdOption {k v : Item} (hk : Met k) (hv : Met v) {os : List (OptionName × Bool)} :
    Parses b (rdOption (optionsAfter os)) (k.encode ++ v.encode)
      (optionMember laxBool (k.value, v.value))
      fun opt o => opt = optionsAfter (os ++ o.toList) := by
  refine (parses_rdText hk).bind fun sp s hs => ?_
  -- a known one is set
  have hset (n : OptionName) :
      Parses b (do let c ← rdBool; pure ((optionsAfter os).set n c)) v.encode
        (do let c ← boolRule laxBool v.value; pure (some (n, c)))
        fun opt o => opt = optionsAfter (os ++ o.toList) := by
    refine (parses_rdBool hv).map (l := fun c => some (n, c)) fun c d hcd => ?_
    rw [hcd]
    exact (optionsAfter_snoc os n d).symm
  have hfound (n : OptionName) (ns : List OptionName) (h : s = ascii n.key) :
      (n :: ns).find? (fun n => decide (s = ascii n.key)) = some n :=
    List.find?_cons_of_pos (decide_eq_true h)
  have hother (n : OptionName) (ns : List OptionName) (h : ¬ s = ascii n.key) :
      (n :: ns).find? (fun n => decide (s = ascii n.key)) =
        ns.find? fun n => decide (s = ascii n.key) :=
    List.find?_cons_of_neg fun h' => h (of_decide_eq_true h')
  refine .ifKey hs.1 (fun hrk => ?_) fun hrk => ?_
  · rw [hfound .rk _ hrk]
    exact hset .rk
  rw [hother .rk _ hrk]
  refine .ifKey hs.1 (fun hup => ?_) fun hup => ?_
  · rw [hfound .up _ hup]
    exact hset .up
  rw [hother .up _ hup]
  refine .ifKey hs.1 (fun huv => ?_) fun huv => ?_
  · rw [hfound .uv _ huv]
    exact hset .uv
  rw [hother .uv _ huv]
  refine parses_skip hv ?_
  show _ = optionsAfter (os ++ [])
  rw [List.append_nil]

/-- `rd_options`, after the options `os`. -/
theorem parses_rdOptions {os : List (OptionName × Bool)} (hx : Met x) :
    Parses b (rdOptions (optionsAfter os)) x.encode (optionsRule laxBool x.value)
      fun opt os' => opt = optionsAfter (os ++ os') := by
  have hloop := parses_map (b := b) (g := rdOption) (f := optionMember laxBool)
    (I := fun es opt => opt = optionsAfter (os ++ es.filterMap id)) (s := optionsAfter os)
    (by rw [List.filterMap_nil, List.append_nil]) (fun k v es opt hk hv hopt => ?_) hx
  · have h := hloop.thenPure (l := fun es => es.filterMap id)
      (Q := fun opt os' => opt = optionsAfter (os ++ os')) fun _ _ h => h
    rwa [LawfulMonad.bind_assoc] at h
  · rw [hopt]
    refine (parses_rdOption hk hv).mono fun opt o ho => ?_
    rw [ho, List.filterMap_append, List.append_assoc]
    cases o <;> rfl

/-- `rd_extensions` -/
theorem parses_rdExtensions {wanted : Bool} (hx : Met x) :
    Parses b (rdExtensions wanted) x.encode (extensionsRule x.value)
      fun w named => w = (wanted || named) := by
  have hmember {k v : Item} (w : Bool) (hk : Met k) (hv : Met v) :
      Parses b (do
        let k ← rdText
        let named ← keyIs k "credProps"
        rdSkip
        pure (named || w)) (k.encode ++ v.encode) (asText k.value)
        fun w' s => w' = (decide (s = ascii "credProps") || w) := by
    have h := (parses_rdText (b := b) hk).bind (q := fun s => Except.ok s) (t := v.encode)
      (g := fun k => do let named ← keyIs k "credProps"; rdSkip; pure (named || w))
      (P := fun w' s => w' = (decide (s = ascii "credProps") || w))
      fun sp s hs => .keyIs hs.1 (parses_skip hv rfl)
    have hspec : (asText k.value >>= fun s => Except.ok s) = asText k.value := by
      cases asText k.value <;> rfl
    rwa [hspec] at h
  have hloop := parses_map (b := b) (f := fun m => asText m.1)
    (I := fun es w => w = (wanted || es.any fun s => s = ascii "credProps")) (s := wanted)
    (by simp) (fun k v es w hk hv hw => (hmember w hk hv).mono fun w' s hw' => ?_) hx
  · have h := hloop.thenPure (l := fun ks => ks.any fun k => k = ascii "credProps")
      (Q := fun w named => w = (wanted || named)) fun _ _ h => h
    rwa [LawfulMonad.bind_assoc] at h
  · rw [hw', hw, List.any_append]
    simp [Bool.or_comm, Bool.or_left_comm]

end Nixtropic.Fido
