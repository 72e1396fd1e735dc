import Nixtropic.Fido.OptionRules
import Nixtropic.Fido.ParseMembers

/-!
`ctap2_parse_make_cred` and `ctap2_parse_get_assertion`, against the references.

On every request that `cbor_validate` accepts they answer what the references
answer when an option is read as `rd_bool` reads it. The documented rule for
options is another one, and the last section says on which requests the
difference shows.
-/

namespace Nixtropic.Fido

open Cbor Rd

variable {b : Buffer} {x : Item} {σ σ' γ γ' : Type}

/-- The fields with something else for the pointers and for the lists. -/
def McFields.map (f : σ → σ') (g : γ → γ') (q : McFields σ γ) : McFields σ' γ' :=
  { clientHash := q.clientHash, rpId := q.rpId.map f, userId := q.userId.map f, alg := q.alg
    exclude := q.exclude.map g, wantCredProps := q.wantCredProps, opt := q.opt
    pinUvParam := q.pinUvParam.map f, protocol := q.protocol }

def GaFields.map (f : σ → σ') (g : γ → γ') (q : GaFields σ γ) : GaFields σ' γ' :=
  { rpId := q.rpId.map f, clientHash := q.clientHash, allow := q.allow.map g, opt := q.opt
    pinUvParam := q.pinUvParam.map f, protocol := q.protocol }

/-- The value that stands in the bytes of a list. -/
def Span.value (req : Bytes) (s : Span) : Option Value := Item.decode cborMaxDepth (s.of req)

/-- A parser of the whole request and its tests at the end. -/
theorem Parses.request {α β δ ε : Type} {f : Rd Status α} {spec : Except Status β}
    {R : α → β → Prop} {t : Item} (h : Parses b f t.encode spec R) (ht : t.encode = b.bytes)
    {check : α → Except Status α} {last : β → Except Status δ} {view : α → ε} {as : δ → ε}
    (hcheck : ∀ a c, R a c → (check a).map view = (last c).map as) :
    ((f (cborReaderInit b.bytes)).result.map fun q => q.bind check).map (Except.map view) =
      some ((spec >>= last).map as) := by
  have hs : (cborReaderInit b.bytes).rest = t.encode ++ [] := by
    rw [ht, List.append_nil]
    rfl
  have hl := h _ [] (inBuffer_init b) rfl hs
  cases spec with
  | ok c =>
      obtain ⟨a, ha, hac⟩ := hl
      rw [ha]
      exact congrArg some (hcheck a c hac)
  | error e =>
      obtain ⟨r', hr'⟩ := hl
      rw [hr']
      rfl

/-! ### MakeCredential -/

/-- The fields hold what the members read so far say. -/
structure McRead (b : Buffer) (es : List Field) (q : McFields Span Span) : Prop where
  clientHash : q.clientHash = lastOf Field.clientHash? es
  rpId : q.rpId.map (Span.of · b.bytes) = lastOf Field.rpId? es
  userId : q.userId.map (Span.of · b.bytes) = lastOf Field.userId? es
  alg : lastOf Field.alg? es = q.alg.map fun z => if z = 0 then none else some z
  exclude : q.exclude.map (Span.value b.bytes) = (lastOf Field.list? es).map some
  wantCredProps : q.wantCredProps = es.any Field.credProps
  opt : q.opt = optionsAfter (es.flatMap Field.options?)
  pinUvParam : q.pinUvParam.map (Span.of · b.bytes) = lastOf Field.pinUvParam? es
  protocol : q.protocol = lastOf Field.protocol? es

attribute [local simp] Field.clientHash? Field.rpId? Field.userId? Field.alg? Field.list?
  Field.credProps Field.options? Field.pinUvParam? Field.protocol?

theorem mcRead_init : McRead b [] McFields.init := by
  constructor <;> rfl

/-- One member of the request. -/
theorem parses_mcMember {k v : Item} (hk : Met k) (hv : Met v) {es : List Field}
    {q : McFields Span Span} (h : McRead b es q) :
    Parses b (mcMember q) (k.encode ++ v.encode) (mcRule laxBool (k.value, v.value))
      fun q e => McRead b (es ++ [e]) q := by
  obtain ⟨hhash, hrp, huser, halg, hex, hprops, hopt, hpin, hproto⟩ := h
  refine (parses_rdParamKey hk).bind fun key key' hkey => ?_
  obtain rfl := hkey
  match key with
  | 1 =>
      refine (parses_rdClientHash hv).map fun s c hs => ?_
      constructor <;> simp [*]
  | 2 =>
      refine (parses_rdId parses_rdText hv).map fun s c hs => ?_
      constructor <;> simp [hs.1, *]
  | 3 =>
      refine (parses_rdUser hv).map fun s c hs => ?_
      constructor <;> simp [hs.1, *]
  | 4 =>
      refine (parses_rdCredParams hv).map fun z o hz => ?_
      have hz : o = if z = 0 then none else some z := hz
      constructor <;> simp [*]
  | 5 =>
      refine (parses_rdCredList hv).map fun s c hs => ?_
      have hs : s.value b.bytes = some c := hs
      constructor <;> simp [*]
  | 6 =>
      refine (parses_rdExtensions hv).map fun s c hs => ?_
      constructor <;> simp [*]
  | 7 =>
      rw [hopt]
      refine (parses_rdOptions hv).map fun s c hs => ?_
      constructor <;> simp [*]
  | 8 =>
      refine (parses_rdBytes hv).map fun s c hs => ?_
      constructor <;> simp [hs.1, *]
  | 9 =>
      refine (parses_rdSmallUint hv).map fun s c hs => ?_
      constructor <;> simp [*]
  | 10 => exact .throw
  | 0 | n + 11 =>
      refine parses_skip hv ?_
      constructor <;> simp [*]

/-- The tests at the end. -/
theorem McRead.check {es : List Field} {q : McFields Span Span} (h : McRead b es q) :
    q.check.map (McFields.map (Span.of · b.bytes) (Span.value b.bytes)) =
      (mcResult es).map (McFields.map id some) := by
  obtain ⟨hash, rp, user, alg, exclude, props, opt, pin, proto⟩ := q
  obtain ⟨hhash, hrp, huser, halg, hex, hprops, hopt, hpin, hproto⟩ := h
  dsimp only at *
  unfold McFields.check mcResult
  rw [← hhash, ← hrp, ← huser, halg]
  cases hash with
  | none => rfl
  | some hash =>
  cases rp with
  | none => rfl
  | some rp =>
  cases user with
  | none => rfl
  | some user =>
  cases alg with
  | none => rfl
  | some alg =>
  by_cases hz : alg = 0
  · simp [hz, Except.map]
  · simp [hz, Except.map, McFields.map, optionsOf_eq, hex, hprops, hopt, hpin, hproto]

/-- `ctap2_parse_make_cred` on what `cbor_validate` accepts. -/
theorem parseMakeCred_eq {t : Item} (ht : t.encode = b.bytes) (hm : Met t) :
    (ctap2ParseMakeCred b.bytes).map
        (Except.map (McFields.map (Span.of · b.bytes) (Span.value b.bytes))) =
      some ((mcReference laxBool t.value).map (McFields.map id some)) := by
  have hloop := parses_map (b := b) (g := mcMember) (I := fun es q => McRead b es q)
    mcRead_init (fun k v es q hk hv hq => parses_mcMember hk hv hq) hm
  have h := hloop.request ht fun q es (hq : McRead b es q) => hq.check
  rw [LawfulMonad.bind_assoc] at h
  exact h

/-! ### GetAssertion -/

structure GaRead (b : Buffer) (es : List Field) (q : GaFields Span Span) : Prop where
  rpId : q.rpId.map (Span.of · b.bytes) = lastOf Field.rpId? es
  clientHash : q.clientHash = lastOf Field.clientHash? es
  allow : q.allow.map (Span.value b.bytes) = (lastOf Field.list? es).map some
  opt : q.opt = optionsAfter (es.flatMap Field.options?)
  pinUvParam : q.pinUvParam.map (Span.of · b.bytes) = lastOf Field.pinUvParam? es
  protocol : q.protocol = lastOf Field.protocol? es

theorem gaRead_init : GaRead b [] GaFields.init := by
  constructor <;> rfl

theorem parses_gaMember {k v : Item} (hk : Met k) (hv : Met v) {es : List Field}
    {q : GaFields Span Span} (h : GaRead b es q) :
    Parses b (gaMember q) (k.encode ++ v.encode) (gaRule laxBool (k.value, v.value))
      fun q e => GaRead b (es ++ [e]) q := by
  obtain ⟨hrp, hhash, hallow, hopt, hpin, hproto⟩ := h
  refine (parses_rdParamKey hk).bind fun key key' hkey => ?_
  obtain rfl := hkey
  match key with
  | 1 =>
      refine (parses_rdText hv).map fun s c hs => ?_
      constructor <;> simp [hs.1, *]
  | 2 =>
      refine (parses_rdClientHash hv).map fun s c hs => ?_
      constructor <;> simp [*]
  | 3 =>
      refine (parses_rdCredList hv).map fun s c hs => ?_
      have hs : s.value b.bytes = some c := hs
      constructor <;> simp [*]
  | 5 =>
      rw [hopt]
      refine (parses_rdOptions hv).map fun s c hs => ?_
      constructor <;> simp [*]
  | 6 =>
      refine (parses_rdBytes hv).map fun s c hs => ?_
      constructor <;> simp [hs.1, *]
  | 7 =>
      refine (parses_rdSmallUint hv).map fun s c hs => ?_
      constructor <;> simp [*]
  | 0 | 4 | n + 8 =>
      refine parses_skip hv ?_
      constructor <;> simp [*]

theorem GaRead.check {es : List Field} {q : GaFields Span Span} (h : GaRead b es q) :
    q.check.map (GaFields.map (Span.of · b.bytes) (Span.value b.bytes)) =
      (gaResult es).map (GaFields.map id some) := by
  obtain ⟨rp, hash, allow, opt, pin, proto⟩ := q
  obtain ⟨hrp, hhash, hallow, hopt, hpin, hproto⟩ := h
  dsimp only at *
  unfold GaFields.check gaResult
  rw [← hhash, ← hrp]
  cases rp with
  | none => rfl
  | some rp =>
  cases hash with
  | none => rfl
  | some hash => simp [Except.map, GaFields.map, optionsOf_eq, hallow, hopt, hpin, hproto]

/-- `ctap2_parse_get_assertion` on what `cbor_validate` accepts. -/
theorem parseGetAssertion_eq {t : Item} (ht : t.encode = b.bytes) (hm : Met t) :
    (ctap2ParseGetAssertion b.bytes).map
        (Except.map (GaFields.map (Span.of · b.bytes) (Span.value b.bytes))) =
      some ((gaReference laxBool t.value).map (GaFields.map id some)) := by
  have hloop := parses_map (b := b) (g := gaMember) (I := fun es q => GaRead b es q)
    gaRead_init (fun k v es q hk hv hq => parses_gaMember hk hv hq) hm
  have h := hloop.request ht fun q es (hq : GaRead b es q) => hq.check
  rw [LawfulMonad.bind_assoc] at h
  exact h

/-! ### The documented rules -/

/-- On the request, which stands for `v`, `ctap2_parse_make_cred` answers what the documented
rules say. -/
def MakeCredDocumented (b : Buffer) (v : Value) : Prop :=
  (ctap2ParseMakeCred b.bytes).map
      (Except.map (McFields.map (Span.of · b.bytes) (Span.value b.bytes))) =
    some ((mcReference onlyBool v).map (McFields.map id some))

def GetAssertionDocumented (b : Buffer) (v : Value) : Prop :=
  (ctap2ParseGetAssertion b.bytes).map
      (Except.map (GaFields.map (Span.of · b.bytes) (Span.value b.bytes))) =
    some ((gaReference onlyBool v).map (GaFields.map id some))

/-- The parsers follow the documented rules on the requests in which no confused option is the
first fault. -/
theorem parse_documented_iff (b : Buffer) (h : cborValidate b.bytes = some 0) :
    ∃ v, Item.decode cborMaxDepth b.bytes = some v ∧
      (MakeCredDocumented b v ↔ ¬ Overlooked mcRule 7 v) ∧
      (GetAssertionDocumented b v ↔ ¬ Overlooked gaRule 5 v) := by
  obtain ⟨t, ht, hm⟩ := (cborValidate_iff b).mp h
  refine ⟨t.value, ht ▸ Item.decode_encode hm.plain hm.depth, ?_, ?_⟩
  · unfold MakeCredDocumented
    rw [parseMakeCred_eq ht hm, Option.some_inj]
    exact mcRule_options.agree_iff mcResult_ne t.value
  · unfold GetAssertionDocumented
    rw [parseGetAssertion_eq ht hm, Option.some_inj]
    exact gaRule_options.agree_iff gaResult_ne t.value

/-- Options without a confused value are not overlooked. -/
theorem not_overlooked {rule : (Value → Option Bool) → Value × Value → Except Status Field}
    {key : ℕ} {ms : List (Value × Value)}
    (h : ∀ m ∈ ms, ∀ os, m = (.uint key, .map os) → ∀ o ∈ os, ¬Confused o.2) :
    ¬Overlooked rule key (.map ms) := by
  rintro ⟨pre, os, post, hms, -, hslips, -⟩
  have hms : ms = pre ++ (.uint key, .map os) :: post := Value.map.inj hms
  obtain ⟨o, ho, -, hconf⟩ := hslips.confused
  exact h _ (by simp [hms]) os rfl o ho hconf

def demoDescriptor : Bytes :=
  [0xa2, 0x62] ++ ascii "id" ++ [0x42, 1, 2, 0x64] ++ ascii "type" ++ [0x6a] ++ ascii "public-key"

/-- A request for a credential, with an excludeList and options. -/
def makeRequest : Buffer :=
  ⟨[0xa8, 1, 0x58, 32] ++ List.replicate 32 0 ++ [2, 0xa1, 0x62] ++ ascii "id" ++ [0x61] ++
    ascii "a" ++ [3, 0xa1, 0x62] ++ ascii "id" ++ [0x41, 1, 4, 0x81, 0xa2, 0x63] ++ ascii "alg" ++
    [0x26, 0x64] ++ ascii "type" ++ [0x6a] ++ ascii "public-key" ++ [5, 0x81] ++ demoDescriptor ++
    [7, 0xa2, 0x62] ++ ascii "rk" ++ [0xf5, 0x62] ++ ascii "uv" ++ [0xf4, 8, 0x41, 9, 9, 1],
    by decide +kernel⟩

def descriptorValue : Value :=
  .map [(.text (ascii "id"), .bytes [1, 2]), (.text (ascii "type"), .text (ascii "public-key"))]

def makeValue : Value :=
  .map [(.uint 1, .bytes (List.replicate 32 0)), (.uint 2, .map [(.text (ascii "id"),
      .text (ascii "a"))]), (.uint 3, .map [(.text (ascii "id"), .bytes [1])]),
    (.uint 4, .array [.map [(.text (ascii "alg"), .nint 6), (.text (ascii "type"),
      .text (ascii "public-key"))]]), (.uint 5, .array [descriptorValue]),
    (.uint 7, .map [(.text (ascii "rk"), .bool true), (.text (ascii "uv"), .bool false)]),
    (.uint 8, .bytes [9]), (.uint 9, .uint 1)]

/-- A request for an assertion, with an allowList and an option. -/
def assertRequest : Buffer :=
  ⟨[0xa6, 1, 0x61] ++ ascii "a" ++ [2, 0x58, 32] ++ List.replicate 32 0 ++ [3, 0x81] ++
    demoDescriptor ++ [5, 0xa1, 0x62] ++ ascii "up" ++ [0xf5, 6, 0x41, 9, 7, 1],
    by decide +kernel⟩

def assertValue : Value :=
  .map [(.uint 1, .text (ascii "a")), (.uint 2, .bytes (List.replicate 32 0)),
    (.uint 3, .array [descriptorValue]), (.uint 5, .map [(.text (ascii "up"), .bool true)]),
    (.uint 6, .bytes [9]), (.uint 7, .uint 1)]

set_option maxRecDepth 4000 in
/-- Each parser takes the request that is for it, as documented. -/
theorem parse_documented_full :
    (ctap2ParseMakeCred makeRequest.bytes).map Except.isOk = some true ∧
      MakeCredDocumented makeRequest makeValue ∧
      (ctap2ParseGetAssertion assertRequest.bytes).map Except.isOk = some true ∧
      GetAssertionDocumented assertRequest assertValue := by
  obtain ⟨v, hv, hmc, -⟩ := parse_documented_iff makeRequest (by decide +kernel)
  have hdec : Item.decode cborMaxDepth makeRequest.bytes = some makeValue := rfl
  obtain rfl : makeValue = v := Option.some.inj (hdec.symm.trans hv)
  obtain ⟨v, hv, -, hga⟩ := parse_documented_iff assertRequest (by decide +kernel)
  have hdec' : Item.decode cborMaxDepth assertRequest.bytes = some assertValue := rfl
  obtain rfl : assertValue = v := Option.some.inj (hdec'.symm.trans hv)
  have hrk : ∀ o ∈ [(Value.text (ascii "rk"), Value.bool true), (.text (ascii "uv"), .bool false)],
      ¬Confused o.2 := List.forall_mem_cons.mpr ⟨id, List.forall_mem_cons.mpr ⟨id, nofun⟩⟩
  have hup : ∀ o ∈ [(Value.text (ascii "up"), Value.bool true)], ¬Confused o.2 :=
    List.forall_mem_cons.mpr ⟨id, nofun⟩
  refine ⟨by decide +kernel, hmc.mpr (not_overlooked ?_), by decide +kernel,
    hga.mpr (not_overlooked ?_)⟩
  · simp only [List.forall_mem_cons]
    refine ⟨nofun, nofun, nofun, nofun, nofun, ?_, nofun, nofun, nofun⟩
    rintro _ ⟨⟩
    exact hrk
  · simp only [List.forall_mem_cons]
    refine ⟨nofun, nofun, nofun, ?_, nofun, nofun, nofun⟩
    rintro _ ⟨⟩
    exact hup

/-- A request for an assertion whose option "up" is the float with the bits of false. -/
def floatRequest : Buffer :=
  ⟨[0xa3, 1, 0x61, 0x61, 2, 0x58, 32] ++ List.replicate 32 0 ++
    [5, 0xa1, 0x62, 0x75, 0x70, 0xf9, 0, 20], by decide⟩

/-- It is taken, although the value of an option is no boolean. -/
theorem parse_float_option :
    cborValidate floatRequest.bytes = some 0 ∧
      (ctap2ParseGetAssertion floatRequest.bytes).map Except.isOk = some true ∧
      ∃ v, Item.decode cborMaxDepth floatRequest.bytes = some v ∧
        gaReference onlyBool v = .error .cborUnexpectedType ∧
        ¬ GetAssertionDocumented floatRequest v := by
  have hcode : (ctap2ParseGetAssertion floatRequest.bytes).map Except.isOk = some true := by
    decide +kernel
  let v : Value := .map [(.uint 1, .text [0x61]), (.uint 2, .bytes (List.replicate 32 0)),
    (.uint 5, .map [(.text [0x75, 0x70], .float .two 20)])]
  have href : gaReference onlyBool v = .error .cborUnexpectedType := rfl
  refine ⟨by decide +kernel, hcode, v, rfl, href, fun h => ?_⟩
  unfold GetAssertionDocumented at h
  rw [href] at h
  cases hres : ctap2ParseGetAssertion floatRequest.bytes with
  | none =>
      rw [hres] at h
      cases h
  | some r =>
      rw [hres] at h hcode
      cases r with
      | ok q => cases h
      | error e => cases hcode

end Nixtropic.Fido
