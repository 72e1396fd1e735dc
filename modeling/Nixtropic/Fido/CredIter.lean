import Nixtropic.Crash.Returns
import Nixtropic.Fido.Ctap2
import Nixtropic.Fido.ParseRequests
import Nixtropic.Tropic.RecPairRuns

/-!
The second walk over a credential list: `ctap2_cred_iter_init` and
`ctap2_cred_iter_next`, and the two loops that use them.

The parser has walked over the list once and kept its bytes. The iterator parses them
again, entry by entry and as late as they are asked for, and has an exit for an entry
that it cannot parse. On what the parser kept it never takes it.
-/

namespace Nixtropic.Fido

open Cbor Crash Rd

/-! ### The iterator -/

/-- `ctap2_cred_iter_t` -/
structure CredIter where
  left : ℕ
  r : Reader

/-- How `ctap2_cred_iter_next` ends. -/
inductive CredNext where
  /-- 1, with an id -/
  | found (id : Bytes) (it : CredIter)
  /-- 0, and no entry is left -/
  | finished
  /-- 0, at the exit that cannot happen for a parsed list -/
  | broken
  /-- a read outside the list -/
  | fault

/-- `ctap2_cred_iter_init`; nothing for a read outside the list. -/
def ctap2CredIterInit : Option Bytes → Option CredIter
  | none => some ⟨0, cborReaderInit []⟩
  | some list =>
      match cborReaderReadArrayHeader (cborReaderInit list) with
      | .ok n r => some ⟨n, r⟩
      | .fail _ r => some ⟨0, r⟩
      | .fault => none

/-- The loop of `ctap2_cred_iter_next` over the entries left. -/
def credNext : ℕ → Reader → CredNext
  | 0, _ => .finished
  | left + 1, r =>
      match rdDescriptor r with
      | .ok (id, publicKey) r' =>
          if publicKey then .found (id.of r'.buf) ⟨left, r'⟩ else credNext left r'
      | .fail _ _ => .broken
      | .fault => .fault

def ctap2CredIterNext (it : CredIter) : CredNext := credNext it.left it.r

/-- The iterator gives these ids, one for each call, and then it is at the end of the list. -/
inductive Yields : CredIter → List Bytes → Prop
  | finished {it : CredIter} (h : ctap2CredIterNext it = .finished) : Yields it []
  | found {it it' : CredIter} {id : Bytes} {ids : List Bytes}
      (h : ctap2CredIterNext it = .found id it') (hrest : Yields it' ids) : Yields it (id :: ids)

/-! ### The loops of the two commands -/

section Loops

variable (F : FidoPrims) (rpHash : Bytes)

/-- `while (ctap2_cred_iter_next(..))` with an early return; `fuel` is more than the entries
left. There is no result behind a read outside the list. -/
def whileNext {σ : Type} (body : Bytes → FidoM (Option σ)) (last : σ) :
    ℕ → CredIter → FidoM (Option σ)
  | 0, _ => pure none
  | fuel + 1, it =>
      match ctap2CredIterNext it with
      | .found id it' => do
          match ← body id with
          | some s => pure (some s)
          | none => whileNext body last fuel it'
      | .finished => pure (some last)
      | .broken => pure (some last)
      | .fault => pure none

/-- The body of both loops: nothing for a credential that is not there, or of another RP. -/
def onFound {σ : Type} (act : ℕ → FidoM σ) (id : Bytes) : FidoM (Option σ) := do
  match ← credstoreFind F id rpHash with
  | some slot => do
      let s ← act slot
      pure (some s)
  | none => pure none

/-- The touch that `mc_excluded` asks for. -/
def mcTouch (_ : ℕ) : FidoM Status := do
  let up ← askTouch .excluded
  pure (if up = .cancel then .keepaliveCancel else .credentialExcluded)

/-- `mc_excluded` over the bytes of the list. -/
def mcExcludedIter (list : Option Bytes) : FidoM (Option Status) :=
  match ctap2CredIterInit list with
  | none => pure none
  | some it => whileNext (onFound F rpHash mcTouch) .ok (it.left + 1) it

/-- `ga_from_allow_list` over the bytes of the list. -/
def gaFromAllowListIter (list : Option Bytes) : FidoM (Option (List ℕ)) :=
  match ctap2CredIterInit list with
  | none => pure none
  | some it => whileNext (onFound F rpHash fun slot => pure [slot]) [] (it.left + 1) it

end Loops

/-! ### What the parsers kept -/

/-- The ids of the entries for public keys, in their order. -/
def publicKeys (es : List (Bytes × Bytes)) : List Bytes :=
  es.filterMap fun e => if e.2 = ascii "public-key" then some e.1 else none

theorem publicKeys_cons (e : Bytes × Bytes) (es : List (Bytes × Bytes)) :
    publicKeys (e :: es) =
      if e.2 = ascii "public-key" then e.1 :: publicKeys es else publicKeys es := by
  rw [publicKeys, List.filterMap_cons]
  by_cases h : e.2 = ascii "public-key"
  · rw [if_pos h, if_pos h]
    rfl
  · rw [if_neg h, if_neg h]
    rfl

/-- The ids in a value that is a credential list. -/
def listedIds (v : Value) : Except Status (List Bytes) := do
  let xs ← asArray v
  let es ← xs.mapM (entryRule "id" asBytes)
  pure (publicKeys es)

section Kept

variable {b : Buffer} {r : Reader} {x : Item}

/-- The span has the bytes of an item that is a list. -/
def KeptList (b : Buffer) (sp : Span) : Prop :=
  ∃ x, Met x ∧ sp.of b.bytes = x.encode ∧ ∃ v, listRule x.value = .ok v

/-- One entry after the other. -/
theorem yields_entries {xs : List Item} (hxs : ∀ x ∈ xs, Met x) {t : Bytes} (hr : InBuffer b r)
    (he : r.err = false) (hs : r.rest = xs.flatMap Item.encode ++ t) {es : List (Bytes × Bytes)}
    (hes : (xs.map Item.value).mapM (entryRule "id" asBytes) = .ok es) :
    Yields ⟨xs.length, r⟩ (publicKeys es) := by
  induction xs generalizing r es with
  | nil =>
      cases hes
      exact .finished rfl
  | cons x xs ih =>
      rw [List.map_cons, List.mapM_cons] at hes
      rw [List.flatMap_cons, List.append_assoc] at hs
      have hx := parses_rdDescriptor (b := b) (hxs x List.mem_cons_self) r _ hr he hs
      cases hentry : entryRule "id" asBytes x.value with
      | error e =>
          rw [hentry] at hes
          cases hes
      | ok e =>
          rw [hentry] at hx hes
          obtain ⟨⟨sp, pk⟩, hrun, hcov, hpk⟩ := hx
          cases hrest : (xs.map Item.value).mapM (entryRule "id" asBytes) with
          | error e' =>
              rw [hrest] at hes
              cases hes
          | ok es' =>
              rw [hrest] at hes
              cases hes
              have hyields := ih (fun y hy => hxs y (List.mem_cons_of_mem x hy))
                (hr.adv_of_append hs) he (Reader.rest_adv_of_append hs) hrest
              have hnext : ctap2CredIterNext ⟨(x :: xs).length, r⟩ =
                  if pk then .found (sp.of (r.adv x.encode.length).buf)
                    ⟨xs.length, r.adv x.encode.length⟩
                  else credNext xs.length (r.adv x.encode.length) := by
                rw [ctap2CredIterNext, List.length_cons, credNext, hrun]
              have hid : sp.of (r.adv x.encode.length).buf = e.1 := by
                rw [Reader.adv_buf, hr.buf]
                exact hcov.1
              have hpk : pk = decide (e.2 = ascii "public-key") := hpk
              rw [publicKeys_cons]
              by_cases hkey : e.2 = ascii "public-key"
              · rw [hpk, decide_eq_true hkey, if_pos rfl, hid] at hnext
                rw [if_pos hkey]
                exact .found hnext hyields
              · rw [hpk, decide_eq_false hkey, if_neg (by decide)] at hnext
                rw [if_neg hkey]
                generalize publicKeys es' = ids at hyields ⊢
                cases hyields with
                | finished h => exact .finished (hnext.trans h)
                | found h hrest => exact .found (hnext.trans h) hrest

/-- The whole list. -/
theorem yields_list (hx : Met x) {v : Value} (hv : listRule x.value = .ok v)
    (hb : x.encode.length + 16 ≤ 2 ^ 32) :
    ∃ ids it, listedIds x.value = .ok ids ∧ ctap2CredIterInit (some x.encode) = some it ∧
      Yields it ids := by
  by_cases hm : x.major = 4
  · obtain ⟨w, xs, rfl⟩ := box_of_major (k := .array) hx.plain hm
    have hr := inBuffer_init ⟨Item.encode (.box .array w xs), hb⟩
    have hs : (cborReaderInit (Item.encode (.box .array w xs))).rest =
        Head.encode ⟨Box.major .array, w, xs.length⟩ ++ (Item.encodeAll xs) := by
      show (Item.encode (.box .array w xs)).drop 0 = _
      rw [List.drop_zero]
      rfl
    have hg : Head.Fits ⟨Box.major .array, w, xs.length⟩ := ⟨Box.major_lt .array, hx.plain.1.1⟩
    have hlen : xs.length < 2 ^ 32 := by
      by_cases h : w = .eight
      · exact hx.heads.1 h
      · exact Nat.lt_of_lt_of_le hx.plain.1.1 (Width.bound_le h)
    have hread := readCount_head hr rfl hs hg hlen
    have hval : asArray (Item.value (.box .array w xs)) = .ok (xs.map Item.value) := by
      rw [← Item.values_eq]
      rfl
    rw [listRule, hval] at hv
    cases hes : (xs.map Item.value).mapM (entryRule "id" asBytes) with
    | error e =>
        have hv : ((xs.map Item.value).mapM (entryRule "id" asBytes) >>= fun _ =>
          Except.ok (Item.value (.box .array w xs))) = .ok v := hv
        rw [hes] at hv
        cases hv
    | ok es =>
        refine ⟨publicKeys es, ⟨xs.length, _⟩, ?_, ?_, yields_entries (t := []) (met_item hx)
          (hr.adv_of_append hs) rfl ?_ hes⟩
        · rw [listedIds, hval]
          show ((xs.map Item.value).mapM (entryRule "id" asBytes) >>= fun es =>
            Except.ok (publicKeys es)) = _
          rw [hes]
          rfl
        · rw [ctap2CredIterInit]
          have hread : cborReaderReadArrayHeader
              (cborReaderInit (Item.encode (.box .array w xs))) = _ :=
            hread
          rw [hread]
        · rw [List.append_nil, ← encodeAll_eq]
          exact Reader.rest_adv_of_append hs
  · have herr := asArray_error x.value (Item.value_major hx.plain ▸ hm)
    rw [listRule, herr] at hv
    cases hv

end Kept

/-! ### Both parsers -/

section Parsers

variable {b : Buffer} {x : Item}

/-- The lists of the fields read so far were kept as lists. -/
def McKept (b : Buffer) (q : McFields Span Span) : Prop := ∀ sp, q.exclude = some sp → KeptList b sp

def GaKept (b : Buffer) (q : GaFields Span Span) : Prop := ∀ sp, q.allow = some sp → KeptList b sp

theorem parses_keptList (hx : Met x) :
    Parses b rdCredList x.encode (listRule x.value) fun sp _ => KeptList b sp :=
  (parses_credList hx).mono fun _ v h => ⟨x, hx, h.1, v, h.2.1⟩

/-- The rules for members do not look at the fields. -/
theorem parses_mcMember_kept {k v : Item} (hk : Met k) (hv : Met v) {q : McFields Span Span}
    (h : McKept b q) {os : List (OptionName × Bool)} (hopt : q.opt = optionsAfter os) :
    Parses b (mcMember q) (k.encode ++ v.encode) (mcRule laxBool (k.value, v.value))
      fun q _ => McKept b q ∧ ∃ os', q.opt = optionsAfter os' := by
  refine (parses_rdParamKey hk).bind fun key key' hkey => ?_
  obtain rfl := hkey
  match key with
  | 1 => exact (parses_rdClientHash hv).map fun s c hs => ⟨h, os, hopt⟩
  | 2 => exact (parses_rdId parses_rdText hv).map fun s c hs => ⟨h, os, hopt⟩
  | 3 => exact (parses_rdUser hv).map fun s c hs => ⟨h, os, hopt⟩
  | 4 => exact (parses_rdCredParams hv).map fun s c hs => ⟨h, os, hopt⟩
  | 5 =>
      refine (parses_keptList hv).map fun s c hs => ⟨fun sp hsp => ?_, os, hopt⟩
      cases hsp
      exact hs
  | 6 => exact (parses_rdExtensions hv).map fun s c hs => ⟨h, os, hopt⟩
  | 7 =>
      rw [hopt]
      exact (parses_rdOptions hv).map fun s c hs => ⟨h, _, hs⟩
  | 8 => exact (parses_rdBytes hv).map fun s c hs => ⟨h, os, hopt⟩
  | 9 => exact (parses_rdSmallUint hv).map fun s c hs => ⟨h, os, hopt⟩
  | 10 => exact .throw
  | 0 | n + 11 => exact parses_skip hv ⟨h, os, hopt⟩

theorem parses_gaMember_kept {k v : Item} (hk : Met k) (hv : Met v) {q : GaFields Span Span}
    (h : GaKept b q) {os : List (OptionName × Bool)} (hopt : q.opt = optionsAfter os) :
    Parses b (gaMember q) (k.encode ++ v.encode) (gaRule laxBool (k.value, v.value))
      fun q _ => GaKept b q ∧ ∃ os', q.opt = optionsAfter os' := by
  refine (parses_rdParamKey hk).bind fun key key' hkey => ?_
  obtain rfl := hkey
  match key with
  | 1 => exact (parses_rdText hv).map fun s c hs => ⟨h, os, hopt⟩
  | 2 => exact (parses_rdClientHash hv).map fun s c hs => ⟨h, os, hopt⟩
  | 3 =>
      refine (parses_keptList hv).map fun s c hs => ⟨fun sp hsp => ?_, os, hopt⟩
      cases hsp
      exact hs
  | 5 =>
      rw [hopt]
      exact (parses_rdOptions hv).map fun s c hs => ⟨h, _, hs⟩
  | 6 => exact (parses_rdBytes hv).map fun s c hs => ⟨h, os, hopt⟩
  | 7 => exact (parses_rdSmallUint hv).map fun s c hs => ⟨h, os, hopt⟩
  | 0 | 4 | n + 8 => exact parses_skip hv ⟨h, os, hopt⟩

/-- A parser that took the request went over all of it. -/
theorem Parses.accepted {α β : Type} {f : Rd Status α} {spec : Except Status β} {R : α → β → Prop}
    {t : Item} (h : Parses b f t.encode spec R) (ht : t.encode = b.bytes)
    {check : α → Except Status α} {q : α}
    (hq : (f (cborReaderInit b.bytes)).result.map (fun q => q.bind check) = some (.ok q)) :
    ∃ a c, R a c ∧ check a = .ok q := by
  have hs : (cborReaderInit b.bytes).rest = t.encode ++ [] := by
    rw [ht, List.append_nil]
    rfl
  have hl := h _ [] (inBuffer_init b) rfl hs
  cases spec with
  | ok c =>
      obtain ⟨a, ha, hac⟩ := hl
      rw [ha] at hq
      exact ⟨a, c, hac, Option.some.inj hq⟩
  | error e =>
      obtain ⟨r', hr'⟩ := hl
      rw [hr'] at hq
      cases hq

theorem kept_makeCred {q : McFields Span Span} (hv : cborValidate b.bytes = some 0)
    (hq : ctap2ParseMakeCred b.bytes = some (.ok q)) : McKept b q := by
  obtain ⟨t, ht, hm⟩ := (cborValidate_iff b).mp hv
  have hloop := parses_map (b := b) (g := mcMember)
    (I := fun _ q => McKept b q ∧ ∃ os, q.opt = optionsAfter os)
    (s := McFields.init) ⟨fun sp hsp => (by cases hsp), [], rfl⟩
    (fun k v es q hk hv hq => hq.2.elim fun os hos => parses_mcMember_kept hk hv hq.1 hos) hm
  obtain ⟨a, c, ha, hcheck⟩ := hloop.accepted ht hq
  have hsame : a = q := by
    rw [McFields.check] at hcheck
    split at hcheck
    · cases hcheck
    · split at hcheck
      · cases hcheck
      · exact Except.ok.inj hcheck
  exact hsame ▸ ha.1

theorem kept_getAssertion {q : GaFields Span Span} (hv : cborValidate b.bytes = some 0)
    (hq : ctap2ParseGetAssertion b.bytes = some (.ok q)) : GaKept b q := by
  obtain ⟨t, ht, hm⟩ := (cborValidate_iff b).mp hv
  have hloop := parses_map (b := b) (g := gaMember)
    (I := fun _ q => GaKept b q ∧ ∃ os, q.opt = optionsAfter os)
    (s := GaFields.init) ⟨fun sp hsp => (by cases hsp), [], rfl⟩
    (fun k v es q hk hv hq => hq.2.elim fun os hos => parses_gaMember_kept hk hv hq.1 hos) hm
  obtain ⟨a, c, ha, hcheck⟩ := hloop.accepted ht hq
  have hsame : a = q := by
    rw [GaFields.check] at hcheck
    split at hcheck
    · cases hcheck
    · exact Except.ok.inj hcheck
  exact hsame ▸ ha.1

end Parsers

/-! ### Both loops -/

section Search

variable {F : FidoPrims} {rpHash : Bytes} {σ : Type} {act : ℕ → FidoM σ} {last : σ}

/-- The first of the ids that is found. -/
def firstHit (F : FidoPrims) (rpHash : Bytes) (act : ℕ → FidoM σ) (last : σ) :
    List Bytes → FidoM σ
  | [] => pure last
  | id :: rest => do
      match ← credstoreFind F id rpHash with
      | some slot => act slot
      | none => firstHit F rpHash act last rest

theorem mcExcluded_eq (ids : List Bytes) :
    mcExcluded F rpHash ids = firstHit F rpHash mcTouch .ok ids := by
  induction ids with
  | nil => rfl
  | cons id rest ih =>
      unfold mcExcluded firstHit
      exact congrArg (credstoreFind F id rpHash >>= ·) (funext fun found => by
        cases found with
        | some slot => rfl
        | none => exact ih)

theorem gaFromAllowList_eq (ids : List Bytes) :
    gaFromAllowList F rpHash ids = firstHit F rpHash (fun slot => pure [slot]) [] ids := by
  induction ids with
  | nil => rfl
  | cons id rest ih =>
      unfold gaFromAllowList firstHit
      exact congrArg (credstoreFind F id rpHash >>= ·) (funext fun found => by
        cases found with
        | some slot => rfl
        | none => exact ih)

theorem credNext_found {left : ℕ} {r : Reader} {id : Bytes} {it : CredIter}
    (h : credNext left r = .found id it) : it.left < left := by
  induction left generalizing r with
  | zero => cases h
  | succ left ih =>
      rw [credNext] at h
      split at h
      · split at h
        · cases h
          exact Nat.lt_succ_self left
        · exact Nat.lt_succ_of_lt (ih h)
      · cases h
      · cases h

theorem Yields.length_le {it : CredIter} {ids : List Bytes} (h : Yields it ids) :
    ids.length ≤ it.left := by
  induction h with
  | finished h => exact Nat.zero_le _
  | found h hrest ih => exact Nat.lt_of_le_of_lt ih (credNext_found h)

/-- The loop over the bytes is the loop over the ids, and it comes to its end. -/
theorem whileNext_eq {it : CredIter} {ids : List Bytes} (h : Yields it ids) {fuel : ℕ}
    (hfuel : ids.length < fuel) :
    whileNext (onFound F rpHash act) last fuel it =
      (do let s ← firstHit F rpHash act last ids; pure (some s)) := by
  induction h generalizing fuel with
  | finished h =>
      cases fuel with
      | zero => cases hfuel
      | succ fuel =>
          rw [whileNext, h, firstHit, LawfulMonad.pure_bind]
  | @found it it' id ids h hrest ih =>
      cases fuel with
      | zero => cases hfuel
      | succ fuel =>
          rw [whileNext, h]
          dsimp only
          rw [onFound, firstHit]
          rw [LawfulMonad.bind_assoc, LawfulMonad.bind_assoc]
          congr 1
          funext found
          cases found with
          | none =>
              rw [LawfulMonad.pure_bind]
              exact ih (Nat.lt_of_succ_lt_succ hfuel)
          | some slot => simp only [LawfulMonad.bind_assoc, LawfulMonad.pure_bind]

/-- None of the ids is found. -/
inductive Missed (F : FidoPrims) (rpHash : Bytes) :
    List Bytes → Point BoardFate FidoRam (Board Note) → Point BoardFate FidoRam (Board Note) → Prop
  | nil (x : Point BoardFate FidoRam (Board Note)) : Missed F rpHash [] x x
  | cons {id : Bytes} {ids : List Bytes} {x x₁ x₂ : Point BoardFate FidoRam (Board Note)}
      (h : Returns (fidoBoard F) (credstoreFind F id rpHash) x none x₁)
      (hrest : Missed F rpHash ids x₁ x₂) : Missed F rpHash (id :: ids) x x₂

/-- The first of the ids that is found is in the slot. -/
def Hit (F : FidoPrims) (rpHash : Bytes) (ids : List Bytes)
    (x : Point BoardFate FidoRam (Board Note)) (slot : ℕ)
    (x' : Point BoardFate FidoRam (Board Note)) : Prop :=
  ∃ pre id post x₁, ids = pre ++ id :: post ∧ Missed F rpHash pre x x₁ ∧
    Returns (fidoBoard F) (credstoreFind F id rpHash) x₁ (some slot) x'

/-- The search behind ids that are not found. -/
theorem Missed.run_eq {pre : List Bytes} {x x₁ : Point BoardFate FidoRam (Board Note)}
    (h : Missed F rpHash pre x x₁) (act : ℕ → FidoM σ) (last : σ) (rest : List Bytes) :
    run (fidoBoard F) ((firstHit F rpHash act last (pre ++ rest)).run x.1) x.2.1 x.2.2 =
      run (fidoBoard F) ((firstHit F rpHash act last rest).run x₁.1) x₁.2.1 x₁.2.2 := by
  induction h with
  | nil x => rfl
  | cons h _ ih =>
      rw [List.cons_append, firstHit, h]
      exact ih

/-- How a search ended. -/
theorem firstHit_cases {ids : List Bytes} {x : Point BoardFate FidoRam (Board Note)} {s : σ}
    {u' : FidoRam} {c' : Board Note}
    (h : run (fidoBoard F) ((firstHit F rpHash act last ids).run x.1) x.2.1 x.2.2 =
      .done (s, u') c') :
    (s = last ∧ ∃ fs', Missed F rpHash ids x (u', fs', c')) ∨
      ∃ slot x', Hit F rpHash ids x slot x' ∧
        run (fidoBoard F) ((act slot).run x'.1) x'.2.1 x'.2.2 = .done (s, u') c' := by
  induction ids generalizing x with
  | nil =>
      cases h
      exact .inl ⟨rfl, x.2.1, .nil x⟩
  | cons id rest ih =>
      rw [firstHit] at h
      obtain ⟨found, x₁, hret, hgo⟩ := returns_of_bind h
      cases found with
      | none =>
          rcases ih hgo with ⟨hs, fs', hmiss⟩ | ⟨slot, x',
            ⟨pre, id', post, x₂, rfl, hpre, hfind⟩, hact⟩
          · exact .inl ⟨hs, fs', .cons hret hmiss⟩
          · exact .inr ⟨slot, x', ⟨id :: pre, id', post, x₂, rfl, .cons hret hpre, hfind⟩, hact⟩
      | some slot => exact .inr ⟨slot, x₁, ⟨[], id, rest, x, rfl, .nil x, hret⟩, hgo⟩

/-- A search whose ids are not found ends with `last`. -/
theorem Missed.missed_run {ids : List Bytes} {x x' : Point BoardFate FidoRam (Board Note)}
    (h : Missed F rpHash ids x x') (act : ℕ → FidoM σ) (last : σ) :
    run (fidoBoard F) ((firstHit F rpHash act last ids).run x.1) x.2.1 x.2.2 =
      .done (last, x'.1) x'.2.2 := by
  have hrun := h.run_eq act last []
  rw [List.append_nil] at hrun
  exact hrun

/-- The status behind a touch. -/
theorem mcTouch_excludes {slot : ℕ} {u u' : FidoRam} {fs : List BoardFate} {c c' : Board Note}
    {s : Status} (h : run (fidoBoard F) ((mcTouch slot).run u) fs c = .done (s, u') c') :
    s = .keepaliveCancel ∨ s = .credentialExcluded := by
  obtain ⟨up, x', -, hgo⟩ := returns_of_bind (x := (u, fs, c)) h
  cases hgo
  split
  · exact .inl rfl
  · exact .inr rfl

end Search

/-! ### What the parsed lists are searched for -/

/-- The ids in the list that was kept, and none where there was no list. -/
def Listed (b : Buffer) (sp : Option Span) (ids : List Bytes) : Prop :=
  match sp with
  | none => ids = []
  | some sp => ∃ v, Span.value b.bytes sp = some v ∧ listedIds v = .ok ids

section Walked

variable {F : FidoPrims} {rpHash : Bytes} {b : Buffer} {sp : Option Span}

/-- The iterator gives the ids of the list. -/
theorem listed_yields (h : ∀ s, sp = some s → KeptList b s) :
    ∃ ids it, Listed b sp ids ∧ ctap2CredIterInit (sp.map (Span.of · b.bytes)) = some it ∧
      Yields it ids := by
  cases sp with
  | none => exact ⟨[], ⟨0, cborReaderInit []⟩, rfl, rfl, .finished rfl⟩
  | some s =>
      obtain ⟨x, hx, hspan, v, hv⟩ := h s rfl
      have hlen : x.encode.length + 16 ≤ 2 ^ 32 := by
        have hle : (s.of b.bytes).length ≤ b.bytes.length := by
          rw [Span.of, List.length_take, List.length_drop]
          omega
        have hapart := b.apart
        rw [← hspan]
        omega
      obtain ⟨ids, it, hids, hinit, hyields⟩ := yields_list hx hv hlen
      refine ⟨ids, it, ⟨x.value, ?_, hids⟩, ?_, hyields⟩
      · rw [Span.value, hspan]
        exact Item.decode_encode hx.plain hx.depth
      · rw [Option.map_some, hspan]
        exact hinit

/-- A loop over the bytes of the list, as a search among its ids. -/
theorem iter_eq {σ : Type} {act : ℕ → FidoM σ} {last : σ} {it : CredIter} {ids : List Bytes}
    (h : Yields it ids) : whileNext (onFound F rpHash act) last (it.left + 1) it =
      (do let s ← firstHit F rpHash act last ids; pure (some s)) :=
  whileNext_eq h (Nat.lt_succ_of_le h.length_le)

theorem mcExcludedIter_eq {it : CredIter} {ids : List Bytes} {list : Option Bytes}
    (hinit : ctap2CredIterInit list = some it) (h : Yields it ids) :
    mcExcludedIter F rpHash list = (do let s ← mcExcluded F rpHash ids; pure (some s)) := by
  rw [mcExcludedIter, hinit, mcExcluded_eq]
  exact iter_eq h

theorem gaFromAllowListIter_eq {it : CredIter} {ids : List Bytes} {list : Option Bytes}
    (hinit : ctap2CredIterInit list = some it) (h : Yields it ids) :
    gaFromAllowListIter F rpHash list =
      (do let s ← gaFromAllowList F rpHash ids; pure (some s)) := by
  rw [gaFromAllowListIter, hinit, gaFromAllowList_eq]
  exact iter_eq h

/-- What a search behind which only `some` is put says of the search. -/
theorem run_some {σ : Type} {m : FidoM σ} {x : Point BoardFate FidoRam (Board Note)}
    {r : Option σ} {u' : FidoRam} {c' : Board Note}
    (h : run (fidoBoard F) ((do let s ← m; pure (some s) : FidoM (Option σ)).run x.1) x.2.1 x.2.2 =
      .done (r, u') c') :
    ∃ s, r = some s ∧ run (fidoBoard F) (m.run x.1) x.2.1 x.2.2 = .done (s, u') c' := by
  obtain ⟨s, x', hret, hgo⟩ := returns_of_bind h
  cases hgo
  exact ⟨s, rfl, hret.run_eq⟩

/-- The excludeList is walked as it was parsed: the iterator gives the ids of its public keys
in their order and ends at its end, and MakeCredential goes on exactly when none is found. -/
def McWalked (F : FidoPrims) (rpHash : Bytes) (b : Buffer) (q : McFields Span Span) : Prop :=
  ∃ ids it, Listed b q.exclude ids ∧
    ctap2CredIterInit (q.exclude.map (Span.of · b.bytes)) = some it ∧ Yields it ids ∧
    ∀ (x : Point BoardFate FidoRam (Board Note)) r u' c',
      run (fidoBoard F) ((mcExcludedIter F rpHash (q.exclude.map (Span.of · b.bytes))).run x.1)
        x.2.1 x.2.2 = .done (r, u') c' →
      (r = some .ok ↔ ∃ fs', Missed F rpHash ids x (u', fs', c')) ∧
      (r ≠ some .ok → (r = some .keepaliveCancel ∨ r = some .credentialExcluded) ∧
        ∃ slot x', Hit F rpHash ids x slot x')

/-- So is the allowList, and GetAssertion takes the first that is found. -/
def GaWalked (F : FidoPrims) (rpHash : Bytes) (b : Buffer) (q : GaFields Span Span) : Prop :=
  ∃ ids it, Listed b q.allow ids ∧
    ctap2CredIterInit (q.allow.map (Span.of · b.bytes)) = some it ∧ Yields it ids ∧
    ∀ (x : Point BoardFate FidoRam (Board Note)) r u' c',
      run (fidoBoard F) ((gaFromAllowListIter F rpHash (q.allow.map (Span.of · b.bytes))).run x.1)
        x.2.1 x.2.2 = .done (r, u') c' →
      (r = some [] ↔ ∃ fs', Missed F rpHash ids x (u', fs', c')) ∧
      (r ≠ some [] → ∃ slot x', Hit F rpHash ids x slot x' ∧ r = some [slot])

/-- The lists of every request that the parsers take are walked as they were parsed. -/
theorem cred_lists_walked (F : FidoPrims) (b : Buffer) (hv : cborValidate b.bytes = some 0)
    (rpHash : Bytes) :
    (∀ q, ctap2ParseMakeCred b.bytes = some (.ok q) → McWalked F rpHash b q) ∧
    (∀ q, ctap2ParseGetAssertion b.bytes = some (.ok q) → GaWalked F rpHash b q) := by
  constructor
  · intro q hq
    obtain ⟨ids, it, hids, hinit, hyields⟩ := listed_yields (kept_makeCred hv hq)
    refine ⟨ids, it, hids, hinit, hyields, fun x r u' c' hrun => ?_⟩
    rw [mcExcludedIter_eq hinit hyields, mcExcluded_eq] at hrun
    obtain ⟨s, rfl, hsearch⟩ := run_some hrun
    have hcases := firstHit_cases hsearch
    refine ⟨⟨fun hok => ?_, ?_⟩, fun hne => ?_⟩
    · cases hok
      rcases hcases with ⟨-, hmiss⟩ | ⟨slot, x', -, htouch⟩
      · exact hmiss
      · rcases mcTouch_excludes htouch with h | h <;> cases h
    · rintro ⟨fs', hmiss⟩
      have hover := hmiss.missed_run mcTouch Status.ok
      rw [hsearch] at hover
      cases hover
      rfl
    · rcases hcases with ⟨rfl, -⟩ | ⟨slot, x', hhit, htouch⟩
      · exact absurd rfl hne
      · exact ⟨(mcTouch_excludes htouch).imp (congrArg some) (congrArg some), slot, x', hhit⟩
  · intro q hq
    obtain ⟨ids, it, hids, hinit, hyields⟩ := listed_yields (kept_getAssertion hv hq)
    refine ⟨ids, it, hids, hinit, hyields, fun x r u' c' hrun => ?_⟩
    rw [gaFromAllowListIter_eq hinit hyields, gaFromAllowList_eq] at hrun
    obtain ⟨s, rfl, hsearch⟩ := run_some hrun
    have hcases := firstHit_cases hsearch
    refine ⟨⟨fun hok => ?_, ?_⟩, fun hne => ?_⟩
    · cases hok
      rcases hcases with ⟨-, hmiss⟩ | ⟨slot, x', -, hpure⟩
      · exact hmiss
      · cases hpure
    · rintro ⟨fs', hmiss⟩
      have hover := hmiss.missed_run (fun slot => pure [slot]) ([] : List ℕ)
      rw [hsearch] at hover
      cases hover
      rfl
    · rcases hcases with ⟨rfl, -⟩ | ⟨slot, x', hhit, hpure⟩
      · exact absurd rfl hne
      · cases hpure
        exact ⟨slot, x', hhit, rfl⟩

/-- A request for an assertion with a list: an entry of another type, and one with its type
twice, whose id is that of a passkey. -/
def allowRequest : Buffer :=
  ⟨[0xa3, 1, 0x61, 0x61, 2, 0x58, 32] ++ List.replicate 32 0 ++
    [3, 0x82, 0xa2, 0x62, 0x69, 0x64, 0x41, 7, 0x64, 0x74, 0x79, 0x70, 0x65, 0x61, 0x61,
      0xa3, 0x64, 0x74, 0x79, 0x70, 0x65, 0x61, 0x61, 0x62, 0x69, 0x64, 0x52] ++ demoMadeId ++
      [0x64, 0x74, 0x79, 0x70, 0x65, 0x6a] ++ ascii "public-key", by decide +kernel⟩

/-- The passkey is the hit, for its own RP. -/
theorem cred_lists_walked_allow : ∃ u ids x',
    ((device mixFido blankBoard).run demoMade).ram = some u ∧
      Listed allowRequest (some ⟨40, 60⟩) ids ∧
      Hit mixFido (mixFido.chip.sha256 [1]) ids
        (u, [], ((device mixFido blankBoard).run demoMade).board) 0 x' := by
  have hv : cborValidate allowRequest.bytes = some 0 := by decide +kernel
  have hq : ctap2ParseGetAssertion allowRequest.bytes =
      some (.ok ⟨some ⟨3, 1⟩, some (List.replicate 32 0), some ⟨40, 60⟩, ⟨none, none, none⟩, none,
        none⟩) := by
    decide +kernel
  have hrun : (((device mixFido blankBoard).run demoMade).ram.bind fun u =>
      returnOf (run (fidoBoard mixFido) ((gaFromAllowListIter mixFido (mixFido.chip.sha256 [1])
        (some (Span.of ⟨40, 60⟩ allowRequest.bytes))).run u) []
          ((device mixFido blankBoard).run demoMade).board)).map Prod.fst = some (some [0]) := by
    decide +kernel
  generalize (device mixFido blankBoard).run demoMade = d at hrun ⊢
  obtain ⟨ids, it, hids, -, -, hwalk⟩ :=
    (cred_lists_walked mixFido allowRequest hv (mixFido.chip.sha256 [1])).2 _ hq
  obtain ⟨⟨r, u'⟩, hbind, hr⟩ := Option.map_eq_some_iff.mp hrun
  obtain ⟨u, hu, hret⟩ := Option.bind_eq_some_iff.mp hbind
  obtain rfl : r = some [0] := hr
  obtain ⟨-, hhit⟩ := hwalk (u, [], d.board) _ u' _ (eq_done hret)
  obtain ⟨slot, x', hhit, hslot⟩ := hhit nofun
  obtain rfl : slot = 0 := by simpa using hslot.symm
  exact ⟨u, ids, x', hu, hids, hhit⟩

end Walked

end Nixtropic.Fido
