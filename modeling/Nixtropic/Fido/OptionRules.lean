import Nixtropic.Fido.RequestRules

/-!
The documented rule for the value of an option, `onlyBool`, and the one `rd_bool`
follows, `laxBool`.

The second takes values that the first refuses. So what the code answers differs
from the reference where the first fault of a request is such a value, unless the
rest of the request has a fault that is answered in the same way.
-/

namespace Nixtropic.Fido

open Cbor

/-! ### Where the two rules for options differ -/

/-- A float, or a simple value, whose argument is that of a boolean. -/
def Confused : Value → Prop
  | .simple n | .float _ n => n = 20 ∨ n = 21
  | _ => False

theorem laxBool_isSome {v : Value} :
    (laxBool v).isSome ↔ (onlyBool v).isSome ∨ Confused v := by
  cases v with
  | simple n | float _ n =>
      show (if n = 20 then some false else if n = 21 then some true else none).isSome = true ↔
        (none : Option Bool).isSome = true ∨ (n = 20 ∨ n = 21)
      by_cases h₀ : n = 20
      · simp [h₀]
      by_cases h₁ : n = 21
      · simp [h₁]
      · simp [h₀, h₁]
  | bool => exact ⟨fun _ => .inl rfl, fun _ => rfl⟩
  | _ => exact ⟨fun h => .inl h, fun h => h.elim id False.elim⟩

/-- The members of an options map whose only fault is that some known option has a confused
value. -/
structure Slips (os : List (Value × Value)) : Prop where
  keys : ∀ o ∈ os, ∃ k, o.1 = .text k
  values : ∀ o ∈ os, ∀ n : OptionName, o.1 = .text (ascii n.key) →
    (∃ c, o.2 = .bool c) ∨ Confused o.2
  confused : ∃ o ∈ os, (∃ n : OptionName, o.1 = .text (ascii n.key)) ∧ Confused o.2

/-- The first member that breaks a documented rule is an options map, under the key `key`, that
only slips, and none of the members after it breaks the rule for a type before another one. -/
def Overlooked (rule : (Value → Option Bool) → Value × Value → Except Status Field) (key : ℕ)
    (v : Value) : Prop :=
  ∃ pre os post, v = .map (pre ++ (.uint key, .map os) :: post) ∧
    (∀ m ∈ pre, ∃ f, rule onlyBool m = .ok f) ∧ Slips os ∧
    post.mapM (rule laxBool) ≠ .error .cborUnexpectedType

variable {δ ρ : Type}

section Lists

variable {ι : Type} {f g : ι → Except Status δ} {xs : List ι}

theorem mapM_ok_iff : (∃ es, xs.mapM f = .ok es) ↔ ∀ x ∈ xs, ∃ e, f x = .ok e := by
  induction xs with
  | nil => exact ⟨fun _ _ h => absurd h List.not_mem_nil, fun _ => ⟨[], rfl⟩⟩
  | cons x xs ih =>
      rw [List.mapM_cons, List.forall_mem_cons, ← ih]
      cases f x with
      | error e => simp [bind, Except.bind]
      | ok e => cases xs.mapM f <;> simp [bind, Except.bind, pure, Except.pure]

theorem mapM_congr (h : ∀ x ∈ xs, f x = g x) : xs.mapM f = xs.mapM g := by
  induction xs with
  | nil => rfl
  | cons x xs ih =>
      rw [List.mapM_cons, List.mapM_cons, h x List.mem_cons_self,
        ih fun y hy => h y (List.mem_cons_of_mem x hy)]

/-- `g` overlooks a fault that `f` finds. -/
def Passed (f g : ι → Except Status δ) (x : ι) : Prop :=
  f x = .error .cborUnexpectedType ∧ ∃ c, g x = .ok c

/-- The first fault that `f` finds is overlooked by `g`, and what `g` finds after it, if anything,
is not of the same kind. -/
def FirstPassed (f g : ι → Except Status δ) (xs : List ι) : Prop :=
  ∃ pre x post, xs = pre ++ x :: post ∧ (∀ y ∈ pre, ∃ c, f y = .ok c) ∧ Passed f g x ∧
    post.mapM g ≠ .error .cborUnexpectedType

theorem firstPassed_cons {x : ι} : FirstPassed f g (x :: xs) ↔
    (Passed f g x ∧ xs.mapM g ≠ .error .cborUnexpectedType) ∨
      (∃ c, f x = .ok c) ∧ FirstPassed f g xs := by
  constructor
  · rintro ⟨pre, y, post, hxs, hpre, hy, hpost⟩
    cases pre with
    | nil =>
        obtain ⟨rfl, rfl⟩ := List.cons.inj hxs
        exact .inl ⟨hy, hpost⟩
    | cons z pre =>
        obtain ⟨rfl, rfl⟩ := List.cons.inj hxs
        exact .inr ⟨hpre _ List.mem_cons_self, pre, y, post, rfl,
          fun z hz => hpre z (List.mem_cons_of_mem _ hz), hy, hpost⟩
  · rintro (⟨hx, hxs⟩ | ⟨hx, pre, y, post, rfl, hpre, hy, hpost⟩)
    · exact ⟨[], x, xs, rfl, fun _ h => absurd h List.not_mem_nil, hx, hxs⟩
    · exact ⟨x :: pre, y, post, rfl, List.forall_mem_cons.mpr ⟨hx, hpre⟩, hy, hpost⟩

/-- Two rules of which the second overlooks some faults: the answers are the same unless the
first fault is overlooked. -/
theorem mapM_agree_iff {last : List δ → Except Status ρ}
    (hfg : ∀ x, f x = g x ∨ Passed f g x) (hlast : ∀ es, last es ≠ .error .cborUnexpectedType) :
    (xs.mapM g >>= last) = (xs.mapM f >>= last) ↔ ¬ FirstPassed f g xs := by
  induction xs generalizing last with
  | nil =>
      refine iff_of_true rfl ?_
      rintro ⟨pre, x, post, h, -⟩
      exact absurd h.symm (by simp)
  | cons x xs ih =>
      rw [List.mapM_cons, List.mapM_cons, firstPassed_cons, LawfulMonad.bind_assoc,
        LawfulMonad.bind_assoc]
      rcases hfg x with heq | ⟨hf, c, hg⟩
      · cases hf : f x with
        | ok c =>
            -- nothing is wrong with the first
            rw [← heq, hf]
            have hrest := @ih (fun es => last (c :: es)) fun es => hlast _
            have hno : ¬ Passed f g x := fun h => by cases hf.symm.trans h.1
            show (xs.mapM g >>= fun es => pure (c :: es)) >>= last =
              (xs.mapM f >>= fun es => pure (c :: es)) >>= last ↔ _
            rw [LawfulMonad.bind_assoc, LawfulMonad.bind_assoc]
            refine hrest.trans (not_congr ?_)
            exact ⟨fun h => .inr ⟨⟨c, rfl⟩, h⟩, fun h => h.elim (fun h => absurd h.1 hno) And.right⟩
        | error e =>
            -- both find the fault
            rw [← heq, hf]
            refine iff_of_true rfl ?_
            rintro (⟨⟨-, c, hc⟩, -⟩ | ⟨⟨c, hc⟩, -⟩)
            · rw [← heq, hf] at hc
              cases hc
            · cases hc
      · -- the fault of the first is overlooked
        rw [hf, hg]
        have hx : Passed f g x := ⟨hf, c, hg⟩
        show (xs.mapM g >>= fun es => pure (c :: es)) >>= last = .error .cborUnexpectedType ↔ _
        rw [LawfulMonad.bind_assoc]
        have hok : ¬ ∃ c, (Except.error .cborUnexpectedType : Except Status δ) = .ok c := by
          rintro ⟨c, h⟩
          cases h
        cases hr : xs.mapM g with
        | error e =>
            show Except.error e = .error .cborUnexpectedType ↔ _
            simp [hx]
        | ok es =>
            show last (c :: es) = .error .cborUnexpectedType ↔ _
            simp [hx, hlast]

end Lists

theorem boolRule_ok_iff {asBool : Value → Option Bool} {v : Value} :
    (∃ c, boolRule asBool v = .ok c) ↔ (asBool v).isSome := by
  unfold boolRule
  cases asBool v <;> simp

/-- What `optionMember` has left once the key is read. -/
def knownMember (asBool : Value → Option Bool) (k : Bytes) (v : Value) :
    Except Status (Option (OptionName × Bool)) :=
  match [OptionName.rk, .up, .uv].find? fun n => k = ascii n.key with
  | some n => do
      let c ← boolRule asBool v
      pure (some (n, c))
  | none => pure none

/-- A member of options passes when its key is a text, and its value a boolean if it is known. -/
theorem optionMember_ok_iff {asBool : Value → Option Bool} {o : Value × Value} :
    (∃ c, optionMember asBool o = .ok c) ↔
      ∃ k, o.1 = .text k ∧ ∀ n : OptionName, k = ascii n.key → (asBool o.2).isSome := by
  obtain ⟨key, v⟩ := o
  cases key with
  | text k =>
      show (∃ c, knownMember asBool k v = .ok c) ↔ _
      unfold knownMember
      cases hfind : [OptionName.rk, .up, .uv].find? fun n => decide (k = ascii n.key) with
      | none =>
          refine iff_of_true ⟨none, rfl⟩ ⟨k, rfl, fun n hn => ?_⟩
          have hall := List.find?_eq_none.mp hfind n (by cases n <;> simp)
          exact absurd (decide_eq_true hn) hall
      | some n =>
          have hn : k = ascii n.key :=
            of_decide_eq_true (List.find?_some
              (p := fun n : OptionName => decide (k = ascii n.key)) hfind)
          have hrule : (∃ c, (do
              let c ← boolRule asBool v
              pure (some (n, c)) : Except Status (Option (OptionName × Bool))) = .ok c) ↔
              ∃ c, boolRule asBool v = .ok c := by
            cases boolRule asBool v <;> simp [bind, Except.bind, pure, Except.pure]
          rw [hrule, boolRule_ok_iff]
          constructor
          · intro h
            exact ⟨k, rfl, fun _ _ => h⟩
          · rintro ⟨k', hk, h⟩
            injection hk with hk
            exact h n (hk ▸ hn)
  | _ =>
      refine iff_of_false ?_ ?_
      · rintro ⟨c, hc⟩
        cases hc
      · rintro ⟨k, hk, -⟩
        cases hk

theorem optionsRule_ok_iff {asBool : Value → Option Bool} {ms : List (Value × Value)} :
    (∃ os, optionsRule asBool (.map ms) = .ok os) ↔
      ∀ o ∈ ms, ∃ c, optionMember asBool o = .ok c := by
  rw [← mapM_ok_iff]
  show (∃ os, (ms.mapM (optionMember asBool) >>= fun os => pure (os.filterMap id)) = .ok os) ↔ _
  cases ms.mapM (optionMember asBool) <;> simp [bind, Except.bind, pure, Except.pure]

/-- The only thing that can be wrong is a type. -/
def OnlyType {α : Type} (r : Except Status α) : Prop := ∀ e, r = .error e → e = .cborUnexpectedType

namespace OnlyType

variable {α β : Type} {r : Except Status α}

theorem ok (a : α) : OnlyType (.ok a) := fun _ h => by cases h

theorem error : OnlyType (.error .cborUnexpectedType : Except Status α) :=
  fun _ h => (Except.error.inj h).symm

theorem bind {f : α → Except Status β} (hr : OnlyType r) (hf : ∀ a, OnlyType (f a)) :
    OnlyType (r >>= f) := by
  cases r with
  | ok a => exact hf a
  | error e => exact fun e' h => hr e' (congrArg Except.error (Except.error.inj h))

theorem mapM {f : α → Except Status β} (hf : ∀ a, OnlyType (f a)) (xs : List α) :
    OnlyType (xs.mapM f) := by
  induction xs with
  | nil => exact .ok []
  | cons x xs ih =>
      rw [List.mapM_cons]
      exact (hf x).bind fun c => ih.bind fun cs => .ok (c :: cs)

theorem asText (v : Value) : OnlyType (asText v) := by
  cases v with
  | text s => exact .ok s
  | _ => exact .error

theorem asMap (v : Value) : OnlyType (asMap v) := by
  cases v with
  | map ms => exact .ok ms
  | _ => exact .error

theorem optionsRule (asBool : Value → Option Bool) (v : Value) :
    OnlyType (optionsRule asBool v) := by
  have hbool (v : Value) : OnlyType (boolRule asBool v) := by
    unfold boolRule
    cases asBool v with
    | none => exact .error
    | some c => exact .ok c
  refine (asMap v).bind fun ms => (mapM (fun o => ?_) ms).bind fun os => .ok _
  refine (asText o.1).bind fun k => ?_
  split
  · exact (hbool o.2).bind fun c => .ok _
  · exact .ok none

end OnlyType

theorem onlyBool_isSome {v : Value} : (onlyBool v).isSome ↔ ∃ c, v = .bool c := by
  cases v <;> simp [onlyBool]

/-- Where the documented rule takes an option, both say the same of it. -/
theorem optionMember_eq {o : Value × Value} (h : ∃ c, optionMember onlyBool o = .ok c) :
    optionMember onlyBool o = optionMember laxBool o := by
  obtain ⟨k, hk, hv⟩ := optionMember_ok_iff.mp h
  unfold optionMember
  rw [hk]
  show knownMember onlyBool k o.2 = knownMember laxBool k o.2
  unfold knownMember
  cases hfind : [OptionName.rk, .up, .uv].find? fun n : OptionName => decide (k = ascii n.key) with
  | none => rfl
  | some n =>
      have hn : k = ascii n.key :=
        of_decide_eq_true (List.find?_some
          (p := fun n : OptionName => decide (k = ascii n.key)) hfind)
      obtain ⟨c, hc⟩ := onlyBool_isSome.mp (hv n hn)
      rw [hc]
      rfl

/-- The two rules for a value of options differ only where the second overlooks a fault. -/
theorem optionsRule_cases (v : Value) :
    optionsRule onlyBool v = optionsRule laxBool v ∨
      Passed (optionsRule onlyBool) (optionsRule laxBool) v := by
  have hstrict := OnlyType.optionsRule onlyBool v
  have hlax := OnlyType.optionsRule laxBool v
  cases hs : optionsRule onlyBool v with
  | error e =>
      obtain rfl := hstrict e hs
      cases hl : optionsRule laxBool v with
      | error e =>
          obtain rfl := hlax e hl
          exact .inl rfl
      | ok os => exact .inr ⟨hs, os, hl⟩
  | ok os =>
      cases v with
      | map ms =>
          have hms := optionsRule_ok_iff.mp ⟨os, hs⟩
          refine .inl (hs.symm.trans ?_)
          show (ms.mapM (optionMember onlyBool) >>= fun os => pure (os.filterMap id)) =
            ms.mapM (optionMember laxBool) >>= fun os => pure (os.filterMap id)
          rw [mapM_congr fun o ho => optionMember_eq (hms o ho)]
      | _ => cases hs

theorem passed_optionsRule {v : Value} :
    Passed (optionsRule onlyBool) (optionsRule laxBool) v ↔ ∃ os, v = .map os ∧ Slips os := by
  constructor
  · rintro ⟨hs, fs, hl⟩
    cases v with
    | map os =>
        have hlax := optionsRule_ok_iff.mp ⟨fs, hl⟩
        refine ⟨os, rfl, ⟨fun o ho => ?_, fun o ho n hn => ?_, ?_⟩⟩
        · obtain ⟨k, hk, -⟩ := optionMember_ok_iff.mp (hlax o ho)
          exact ⟨k, hk⟩
        · obtain ⟨k, hk, hv⟩ := optionMember_ok_iff.mp (hlax o ho)
          obtain rfl : k = ascii n.key := Value.text.inj (hk.symm.trans hn)
          exact (laxBool_isSome.mp (hv n rfl)).imp_left onlyBool_isSome.mp
        · by_contra hno
          -- without a confused value the documented rule takes the map
          have hall : ∀ o ∈ os, ∃ c, optionMember onlyBool o = .ok c := by
            intro o ho
            obtain ⟨k, hk, hv⟩ := optionMember_ok_iff.mp (hlax o ho)
            refine optionMember_ok_iff.mpr ⟨k, hk, fun n hn => ?_⟩
            refine (laxBool_isSome.mp (hv n hn)).resolve_right fun hc => hno ?_
            exact ⟨o, ho, ⟨n, hn ▸ hk⟩, hc⟩
          obtain ⟨fs, hfs⟩ := optionsRule_ok_iff.mpr hall
          cases hs.symm.trans hfs
    | _ => cases hl
  · rintro ⟨os, rfl, hkeys, hvalues, o, ho, ⟨n, hn⟩, hc⟩
    have hlax : ∀ o ∈ os, ∃ c, optionMember laxBool o = .ok c := by
      intro o ho
      obtain ⟨k, hk⟩ := hkeys o ho
      refine optionMember_ok_iff.mpr ⟨k, hk, fun n hn => ?_⟩
      exact laxBool_isSome.mpr ((hvalues o ho n (hn ▸ hk)).imp_left onlyBool_isSome.mpr)
    refine ⟨?_, optionsRule_ok_iff.mpr hlax⟩
    cases hs : optionsRule onlyBool (.map os) with
    | error e => rw [OnlyType.optionsRule _ _ e hs]
    | ok fs =>
        obtain ⟨k, hk, hv⟩ := optionMember_ok_iff.mp (optionsRule_ok_iff.mp ⟨fs, hs⟩ o ho)
        obtain rfl : k = ascii n.key := Value.text.inj (hk.symm.trans hn)
        obtain ⟨c, hb⟩ := onlyBool_isSome.mp (hv n rfl)
        rw [hb] at hc
        exact absurd hc id

/-! ### Requests -/

/-- The rule for the members of a request in which the options are under the key `key`. -/
def OptionsAt (rule : (Value → Option Bool) → Value × Value → Except Status Field) (key : ℕ) :
    Prop :=
  ∀ m, (m.1 = .uint key ∧ ∀ asBool, rule asBool m = Field.options <$> optionsRule asBool m.2) ∨
    (m.1 ≠ .uint key ∧ ∀ asBool, rule asBool m = rule laxBool m)

theorem mcRule_options : OptionsAt mcRule 7 := by
  rintro ⟨k, v⟩
  cases k with
  | uint key =>
      match key with
      | 7 => exact .inl ⟨rfl, fun _ => rfl⟩
      | 0 | 1 | 2 | 3 | 4 | 5 | 6 | 8 | 9 | 10 | n + 11 =>
          refine .inr ⟨fun h => ?_, fun _ => rfl⟩
          injection h with h
          omega
  | _ => exact .inr ⟨fun h => (by cases h), fun _ => rfl⟩

theorem gaRule_options : OptionsAt gaRule 5 := by
  rintro ⟨k, v⟩
  cases k with
  | uint key =>
      match key with
      | 5 => exact .inl ⟨rfl, fun _ => rfl⟩
      | 0 | 1 | 2 | 3 | 4 | 6 | 7 | n + 8 =>
          refine .inr ⟨fun h => ?_, fun _ => rfl⟩
          injection h with h
          omega
  | _ => exact .inr ⟨fun h => (by cases h), fun _ => rfl⟩

theorem passed_map {f g : Value → Except Status δ} {k : δ → ρ} {v : Value} :
    Passed (fun v => k <$> f v) (fun v => k <$> g v) v ↔ Passed f g v := by
  show (k <$> f v = .error .cborUnexpectedType ∧ ∃ c, k <$> g v = .ok c) ↔ (_ ∧ ∃ c, g v = .ok c)
  cases f v <;> cases g v <;> simp [Functor.map, Except.map]

/-- The rules for the members differ only where options slip. -/
theorem OptionsAt.passed {rule : (Value → Option Bool) → Value × Value → Except Status Field}
    {key : ℕ} (h : OptionsAt rule key) (m : Value × Value) :
    (rule onlyBool m = rule laxBool m ∨ Passed (rule onlyBool) (rule laxBool) m) ∧
      (Passed (rule onlyBool) (rule laxBool) m ↔ ∃ os, m = (.uint key, .map os) ∧ Slips os) := by
  obtain ⟨k, v⟩ := m
  rcases h (k, v) with ⟨rfl, hrule⟩ | ⟨hk, hrule⟩
  · have hiff : Passed (rule onlyBool) (rule laxBool) (.uint key, v) ↔
        Passed (optionsRule onlyBool) (optionsRule laxBool) v := by
      rw [← passed_map (k := Field.options), Passed, hrule, hrule]
      rfl
    refine ⟨?_, ?_⟩
    · rw [hiff, hrule, hrule]
      exact (optionsRule_cases v).imp_left fun heq => by rw [heq]
    · rw [hiff, passed_optionsRule]
      simp
  · refine ⟨.inl (hrule onlyBool), iff_of_false ?_ ?_⟩
    · rintro ⟨hs, c, hl⟩
      rw [hrule, hl] at hs
      cases hs
    · rintro ⟨os, hm, -⟩
      exact hk (Prod.mk.inj hm).1

theorem mcResult_ne (es : List Field) : mcResult es ≠ .error .cborUnexpectedType := by
  unfold mcResult
  split <;> simp

theorem gaResult_ne (es : List Field) : gaResult es ≠ .error .cborUnexpectedType := by
  unfold gaResult
  split <;> simp

/-- On a request the two references answer the same unless a fault is overlooked. -/
theorem OptionsAt.agree_iff {ε : Type}
    {rule : (Value → Option Bool) → Value × Value → Except Status Field} {key : ℕ}
    (h : OptionsAt rule key) {last : List Field → Except Status ρ} {k : ρ → ε}
    (hlast : ∀ es, last es ≠ .error .cborUnexpectedType) (v : Value) :
    (asMap v >>= fun ms => ms.mapM (rule laxBool) >>= last).map k =
        (asMap v >>= fun ms => ms.mapM (rule onlyBool) >>= last).map k ↔
      ¬ Overlooked rule key v := by
  cases v with
  | map ms =>
      show ((ms.mapM (rule laxBool) >>= last).map k = (ms.mapM (rule onlyBool) >>= last).map k) ↔ _
      have hmap (x : Except Status (List Field)) :
          (x >>= last).map k = x >>= fun es => (last es).map k := by
        cases x <;> rfl
      have hlast' (es : List Field) : (last es).map k ≠ .error .cborUnexpectedType := by
        intro he
        cases hes : last es with
        | ok c =>
            rw [hes] at he
            cases he
        | error e =>
            rw [hes] at he
            cases he
            exact hlast es hes
      rw [hmap, hmap]
      refine (mapM_agree_iff (fun m => (h.passed m).1) hlast').trans (not_congr ?_)
      constructor
      · rintro ⟨pre, m, post, hms, hpre, hm, hpost⟩
        obtain ⟨os, rfl, hos⟩ := (h.passed m).2.mp hm
        exact ⟨pre, os, post, congrArg Value.map hms, hpre, hos, hpost⟩
      · rintro ⟨pre, os, post, hms, hpre, hos, hpost⟩
        exact ⟨pre, _, post, Value.map.inj hms, hpre, (h.passed _).2.mpr ⟨os, rfl, hos⟩, hpost⟩
  | _ =>
      refine iff_of_true rfl ?_
      rintro ⟨pre, os, post, hv, -⟩
      cases hv

end Nixtropic.Fido
