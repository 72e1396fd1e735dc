import Nixtropic.Fido.Commands
import Nixtropic.Fido.Timers

/-!
Tokens that last.

Nothing in the credential management ends a token but a look at its timers. A token whose
timers do not run out before a time is in use up to then.
-/

namespace Nixtropic.Fido

open Crash

/-- The limit that `expire` goes by. -/
def Token.lifeMs (t : Token) : ℕ := if t.used then puatMaxLifeMs else puatInitialUseMs

/-- The token is in use, and no look at its timers ends it from `now` up to `T`. -/
structure Token.Lasts (t : Token) (now T : ℕ) : Prop where
  inUse : t.inUse = true
  alive : ∀ n, now ≤ n → n ≤ T → t.expired (n % 2 ^ 32) = false

theorem Token.Lasts.later {t : Token} {now later T : ℕ} (h : t.Lasts now T) (hle : now ≤ later) :
    t.Lasts later T :=
  ⟨h.inUse, fun n hn hT => h.alive n (Nat.le_trans hle hn) hT⟩

/-- A token in use is looked at with the longer limit. -/
theorem Token.Lasts.used {t : Token} {now T : ℕ} (h : t.Lasts now T) :
    Token.Lasts { t with used := true } now T := by
  refine ⟨h.inUse, fun n hn hT => ?_⟩
  have halive := h.alive n hn hT
  rw [Token.expired, h.inUse, Bool.true_and, Bool.or_eq_false_iff] at halive
  show (t.inUse && (decide (puatMaxLifeMs < tickDiff (n % 2 ^ 32) t.issuedMs) || _)) = false
  rw [halive.1, h.inUse]
  rfl

/-- The tick does not go faster than the time. -/
theorem tickDiff_le {now n : ℕ} (h : now ≤ n) (since : ℕ) :
    tickDiff (n % 2 ^ 32) since ≤ tickDiff (now % 2 ^ 32) since + (n - now) := by
  rw [tickDiff, tickDiff]
  omega

/-- A token that is young enough at `T` lasts up to then. -/
theorem Token.lasts_of_age {t : Token} (hin : t.inUse = true) {now T : ℕ}
    (h : tickDiff (now % 2 ^ 32) t.issuedMs + (T - now) ≤ t.lifeMs) : t.Lasts now T := by
  refine ⟨hin, fun n hn hT => ?_⟩
  have hage : tickDiff (n % 2 ^ 32) t.issuedMs ≤ t.lifeMs := by
    have hle := tickDiff_le hn t.issuedMs
    omega
  rw [Token.lifeMs] at hage
  rw [Token.expired, hin, Bool.true_and]
  cases hused : t.used with
  | true =>
      rw [hused, if_pos rfl] at hage
      rw [decide_eq_false (Nat.not_lt.mpr hage)]
      rfl
  | false =>
      rw [hused, if_neg (by decide)] at hage
      have hmax : puatInitialUseMs ≤ puatMaxLifeMs := by decide
      rw [decide_eq_false (Nat.not_lt.mpr hage),
        decide_eq_false (Nat.not_lt.mpr (Nat.le_trans hage hmax))]
      rfl

/-- Up to `T` the token is in use. -/
def LastsTo (T : ℕ) (u : FidoRam) (b : Board Note) : Prop := b.now ≤ T → u.token.Lasts b.now T

/-- All but the token. -/
def lastingScope : Scope where
  rmem _ := True
  ecc _ := True
  ram u u' := u'.token = u.token
  note _ := True

theorem lastingScope_base : lastingScope.Base where
  creds := ⟨fun _ _ => trivial, fun _ _ => trivial⟩
  storeInitted _ _ := rfl
  mutating _ _ := rfl
  pin _ _ := rfl
  note _ _ := trivial
  o1 := ⟨fun _ _ => trivial, fun _ _ => rfl⟩
  o2 := ⟨fun _ _ => trivial, fun _ _ => rfl⟩

theorem LastsTo.wait {T : ℕ} {u : FidoRam} {b : Board Note} (h : LastsTo T u b) (d : ℕ) :
    LastsTo T u (b.wait d) :=
  fun hT => (h (Nat.le_trans (Nat.le_add_right _ _) hT)).later (Nat.le_add_right _ _)

theorem lasting_ground (T : ℕ) : Ground lastingScope (LastsTo T) (fun _ => True) where
  cut _ _ _ := trivial
  chip _ _ _ _ h := h
  ecc _ _ _ _ _ h := h
  keygen _ _ _ _ _ h := h
  counter _ _ _ h := h
  wait _ _ d h := h.wait d
  note _ _ _ _ h := h
  ram u u' b hu h hT := by
    have hu : u'.token = u.token := hu
    rw [hu]
    exact h hT

section Keeps

variable {F : FidoPrims} {A : BoardFate → Prop} {T : ℕ}

/-- A look at the timers that ended the token was too late. -/
theorem LastsTo.not_expired {u : FidoRam} {b : Board Note} (h : LastsTo T u b)
    (he : u.token.expired (b.now % 2 ^ 32) = true) : ¬b.now ≤ T := by
  intro hT
  rw [(h hT).alive b.now (Nat.le_refl _) hT] at he
  cases he

theorem lasting_checkCmToken (q : CmReq) (sub : ℕ) :
    Keeps (fidoBoard F) A (LastsTo T) (fun _ => True) (checkCmToken q sub) := by
  intro u b h
  rw [checkCmToken]
  cases q.pinAuth with
  | none => exact h
  | some auth =>
  cases q.protocol with
  | none => exact h
  | some proto =>
  dsimp only
  split
  · exact h
  split
  · exact h
  rw [swp_bind]
  apply swp_halGetTick
  intro d
  have hd := h.wait d
  rw [swp_bind]
  apply swp_puatVerify
  · intro he
    rw [swp_bind, swp_get]
    exact fun hT => absurd hT (hd.not_expired he)
  · intro _ _ w
    rw [swp_bind, swp_get]
    exact hd
  · intro _ _ _ w
    rw [swp_bind, swp_get]
    split
    · exact fun hT => (hd hT).used
    · exact fun hT => (hd hT).used

theorem lasting_cmContinues :
    Keeps (fidoBoard F) A (LastsTo T) (fun _ => True) cmContinues := by
  intro u b h
  have hd : ∀ d, LastsTo T u (b.wait d) := h.wait
  rw [cmContinues, swp_bind]
  apply swp_halGetTick
  intro d
  rw [swp_bind]
  apply swp_puatInUse
  · intro he
    rw [swp_bind, swp_get]
    exact fun hT => absurd hT ((hd d).not_expired he)
  · intro _
    rw [swp_bind, swp_get]
    exact hd d

/-- A request of the credential management leaves the token in use. -/
theorem lasting_credentialMgmt (c : Except Status CmReq) (valid : Bool) :
    Keeps (fidoBoard F) A (LastsTo T) (fun _ => True)
      (fidoHidCborDispatch F ⟨.credentialMgmt c, valid⟩) := by
  have hg : Ground lastingScope (LastsTo T) (fun _ => True) := lasting_ground T
  have ha : Around F A lastingScope (LastsTo T) (fun _ => True) := hg.around lastingScope_base
  have hserve : Keeps (fidoBoard F) A (LastsTo T) (fun _ => True) (serve F (.credentialMgmt c)) :=
    (ha.managing (fun _ _ => rfl) lasting_checkCmToken lasting_cmContinues).credmgmtHandleCbor c
  apply keeps_bind (hg.leave trivial)
  intro _
  apply keeps_bind (ha.dispatch ⟨fun _ _ => rfl, fun _ _ => rfl⟩ hserve)
  exact fun _ => keeps_bind (hg.leave trivial) fun _ => keeps_pure _

end Keeps

end Nixtropic.Fido
