import Nixtropic.Fido.Data
import Nixtropic.Fido.Reader

/-!
`ctap2_parse.c`: the parsers of MakeCredential and GetAssertion requests.

They walk over the maps of a request that `cbor_validate` has accepted. What they
put in their results are pointers into the request, which are spans here. A
`got` flag and the value it is about are an option.
-/

namespace Nixtropic.Fido

open Rd

variable {ε : Type}

/-- A call on the reader: an error of it is CTAP2_ERR_INVALID_CBOR. -/
def orInvalid {α : Type} (f : Rd Unit α) : Rd Status α := fun r =>
  match f r with
  | .ok a r => .ok a r
  | .fail _ r => .fail .invalidCbor r
  | .fault => .fault

/-- `for (i = 0; i < n; ++i)` over a loop state. -/
def loop {σ : Type} (body : σ → Rd ε σ) : ℕ → σ → Rd ε σ
  | 0, s => pure s
  | n + 1, s => do
      let s ← body s
      loop body n s

/-! ### Typed readers -/

/-- `want` -/
def want (mt : ℕ) : Rd Status Unit := do
  let major ← cborReaderPeekMajor
  if major = some mt then pure () else throw .cborUnexpectedType

/-- `rd_text` -/
def rdText : Rd Status Span := do
  want 3
  orInvalid cborReaderReadText

/-- `rd_bytes` -/
def rdBytes : Rd Status Span := do
  want 2
  orInvalid cborReaderReadBytes

/-- `rd_map` -/
def rdMap : Rd Status ℕ := do
  want 5
  orInvalid cborReaderReadMapHeader

/-- `rd_array` -/
def rdArray : Rd Status ℕ := do
  want 4
  orInvalid cborReaderReadArrayHeader

/-- `rd_skip` -/
def rdSkip : Rd Status Unit := orInvalid cborReaderSkip

/-- `rd_small_uint` -/
def rdSmallUint : Rd Status ℕ := do
  want 0
  let v ← orInvalid cborReaderReadUint
  pure (if 0xffff < v then 0xffff else v)

def int32Max : ℤ := 2 ^ 31 - 1
def int32Min : ℤ := -2 ^ 31

/-- `rd_int` -/
def rdInt : Rd Status ℤ := do
  let peek ← cborReaderPeekMajor
  if peek ≠ some 0 ∧ peek ≠ some 1 then throw .cborUnexpectedType
  else do
    let (mt, v) ← orInvalid cborReaderReadHead
    if 0x7fffffff < v then pure (if mt = 0 then int32Max else int32Min)
    else pure (if mt = 0 then (v : ℤ) else -1 - v)

/-- `rd_bool` -/
def rdBool : Rd Status Bool := do
  want 7
  let (_, v) ← orInvalid cborReaderReadHead
  if v = 20 then pure false
  else if v = 21 then pure true
  else throw .cborUnexpectedType

/-- `rd_param_key` -/
def rdParamKey : Rd Status ℕ := do
  want 0
  orInvalid cborReaderReadUint

/-- The bytes a span points to. -/
def content (s : Span) : Rd ε Bytes := do
  let r ← reader
  pure (s.of r.buf)

/-- `key_is` -/
def keyIs (k : Span) (s : String) : Rd ε Bool := do
  let bytes ← content k
  pure (bytes = ascii s)

/-! ### Members -/

/-- `rd_client_hash` -/
def rdClientHash : Rd Status Bytes := do
  let p ← rdBytes
  if p.len ≠ 32 then throw .invalidLength else content p

/-- The loop of `rd_rp` and `rd_user`: the last member "id", read with `rd`. -/
def rdId (rd : Rd Status Span) : Rd Status Span := do
  let m ← rdMap
  let id ← loop (fun id => do
    let k ← rdText
    if ← keyIs k "id" then do
      let s ← rd
      pure (some s)
    else do
      rdSkip
      pure id) m none
  match id with
  | some id => pure id
  | none => throw .cborUnexpectedType

/-- `rd_rp` -/
def rdRp : Rd Status Span := rdId rdText

/-- `rd_user` -/
def rdUser : Rd Status Span := do
  let id ← rdId rdBytes
  if id.len ≤ userIdMax then pure id else throw .invalidLength

def algEddsa : ℤ := -8
def algEs256 : ℤ := -7

/-- The members of an entry that were read: "alg", and whether "type" is "public-key". -/
structure ParamEntry where
  alg : Option ℤ
  publicKey : Option Bool
  deriving DecidableEq, Repr

/-- One member of an entry of pubKeyCredParams. -/
def rdParamMember (e : ParamEntry) : Rd Status ParamEntry := do
  let k ← rdText
  if ← keyIs k "alg" then do
    let alg ← rdInt
    pure { e with alg := some alg }
  else if ← keyIs k "type" then do
    let t ← rdText
    pure { e with publicKey := some (← keyIs t "public-key") }
  else do
    rdSkip
    pure e

/-- One entry; `chosen` is 0 while none was chosen. -/
def rdParam (chosen : ℤ) : Rd Status ℤ := do
  let m ← rdMap
  let e ← loop rdParamMember m ⟨none, none⟩
  match e.alg, e.publicKey with
  | some alg, some publicKey =>
      pure (if chosen = 0 ∧ publicKey ∧ (alg = algEddsa ∨ alg = algEs256) then alg else chosen)
  | _, _ => throw .cborUnexpectedType

/-- `rd_cred_params` -/
def rdCredParams : Rd Status ℤ := do
  let n ← rdArray
  loop rdParam n 0

/-- The members of a descriptor that were read. -/
structure Descriptor where
  id : Option Span
  publicKey : Option Bool
  deriving DecidableEq, Repr

def rdDescriptorMember (d : Descriptor) : Rd Status Descriptor := do
  let k ← rdText
  if ← keyIs k "id" then do
    let id ← rdBytes
    pure { d with id := some id }
  else if ← keyIs k "type" then do
    let t ← rdText
    pure { d with publicKey := some (← keyIs t "public-key") }
  else do
    rdSkip
    pure d

/-- `rd_descriptor`: the id, and whether the type is "public-key". -/
def rdDescriptor : Rd Status (Span × Bool) := do
  let m ← rdMap
  let d ← loop rdDescriptorMember m ⟨none, none⟩
  match d.id, d.publicKey with
  | some id, some publicKey => pure (id, publicKey)
  | _, _ => throw .cborUnexpectedType

/-- `rd_cred_list`: the bytes of the whole array. -/
def rdCredList : Rd Status Span := do
  let start ← reader
  let n ← rdArray
  loop (fun _ => do
    let _ ← rdDescriptor
    pure ()) n ()
  let stop ← reader
  pure ⟨start.pos, stop.pos - start.pos⟩

/-- One member of `rd_options`. -/
def rdOption (opt : Options) : Rd Status Options := do
  let k ← rdText
  if ← keyIs k "rk" then do
    let v ← rdBool
    pure { opt with rk := some v }
  else if ← keyIs k "up" then do
    let v ← rdBool
    pure { opt with up := some v }
  else if ← keyIs k "uv" then do
    let v ← rdBool
    pure { opt with uv := some v }
  else do
    rdSkip
    pure opt

/-- `rd_options` -/
def rdOptions (opt : Options) : Rd Status Options := do
  let m ← rdMap
  loop rdOption m opt

/-- `rd_extensions` -/
def rdExtensions (wantCredProps : Bool) : Rd Status Bool := do
  let m ← rdMap
  loop (fun wanted => do
    let k ← rdText
    let named ← keyIs k "credProps"
    rdSkip
    pure (named || wanted)) m wantCredProps

/-! ### MakeCredential -/

/-- The result of a parser, with its pointers as `σ` and its credential lists as `γ`. -/
structure McFields (σ γ : Type) where
  clientHash : Option Bytes
  rpId : Option σ
  userId : Option σ
  -- `none` when there was no pubKeyCredParams, 0 when no algorithm in it is supported
  alg : Option ℤ
  exclude : Option γ
  wantCredProps : Bool
  opt : Options
  pinUvParam : Option σ
  protocol : Option ℕ
  deriving DecidableEq, Repr

def McFields.init {σ γ : Type} : McFields σ γ :=
  ⟨none, none, none, none, none, false, ⟨none, none, none⟩, none, none⟩

/-- One member of the request: the body of the loop of `ctap2_parse_make_cred`. -/
def mcMember (q : McFields Span Span) : Rd Status (McFields Span Span) := do
  let key ← rdParamKey
  match key with
  | 1 => do
      let hash ← rdClientHash
      pure { q with clientHash := some hash }
  | 2 => do
      let id ← rdRp
      pure { q with rpId := some id }
  | 3 => do
      let id ← rdUser
      pure { q with userId := some id }
  | 4 => do
      let alg ← rdCredParams
      pure { q with alg := some alg }
  | 5 => do
      let list ← rdCredList
      pure { q with exclude := some list }
  | 6 => do
      let wanted ← rdExtensions q.wantCredProps
      pure { q with wantCredProps := wanted }
  | 7 => do
      let opt ← rdOptions q.opt
      pure { q with opt := opt }
  | 8 => do
      let p ← rdBytes
      pure { q with pinUvParam := some p }
  | 9 => do
      let n ← rdSmallUint
      pure { q with protocol := some n }
  | 10 => throw .invalidParameter
  | _ => do
      rdSkip
      pure q

/-- The required members, and a supported algorithm. -/
def McFields.check {σ γ : Type} (q : McFields σ γ) : Except Status (McFields σ γ) :=
  if q.clientHash.isNone || q.rpId.isNone || q.userId.isNone || q.alg.isNone then
    .error .missingParameter
  else if q.alg = some 0 then .error .unsupportedAlgorithm
  else .ok q

/-- The status a call returns, or its result. -/
def Out.result {α : Type} : Out Status α → Option (Except Status α)
  | .ok a _ => some (.ok a)
  | .fail e _ => some (.error e)
  | .fault => none

/-- `ctap2_parse_make_cred`; there is no result when it reads outside the request. -/
def ctap2ParseMakeCred (req : Bytes) : Option (Except Status (McFields Span Span)) :=
  let parsed := do
    let n ← rdMap
    loop mcMember n McFields.init
  (parsed (cborReaderInit req)).result.map fun q => q.bind McFields.check

/-! ### GetAssertion -/

structure GaFields (σ γ : Type) where
  rpId : Option σ
  clientHash : Option Bytes
  allow : Option γ
  opt : Options
  pinUvParam : Option σ
  protocol : Option ℕ
  deriving DecidableEq, Repr

def GaFields.init {σ γ : Type} : GaFields σ γ :=
  ⟨none, none, none, ⟨none, none, none⟩, none, none⟩

/-- One member of the request: the body of the loop of `ctap2_parse_get_assertion`. -/
def gaMember (q : GaFields Span Span) : Rd Status (GaFields Span Span) := do
  let key ← rdParamKey
  match key with
  | 1 => do
      let id ← rdText
      pure { q with rpId := some id }
  | 2 => do
      let hash ← rdClientHash
      pure { q with clientHash := some hash }
  | 3 => do
      let list ← rdCredList
      pure { q with allow := some list }
  | 5 => do
      let opt ← rdOptions q.opt
      pure { q with opt := opt }
  | 6 => do
      let p ← rdBytes
      pure { q with pinUvParam := some p }
  | 7 => do
      let n ← rdSmallUint
      pure { q with protocol := some n }
  | _ => do
      rdSkip
      pure q

def GaFields.check {σ γ : Type} (q : GaFields σ γ) : Except Status (GaFields σ γ) :=
  if q.rpId.isNone || q.clientHash.isNone then .error .missingParameter else .ok q

/-- `ctap2_parse_get_assertion` -/
def ctap2ParseGetAssertion (req : Bytes) : Option (Except Status (GaFields Span Span)) :=
  let parsed := do
    let n ← rdMap
    loop gaMember n GaFields.init
  (parsed (cborReaderInit req)).result.map fun q => q.bind GaFields.check

end Nixtropic.Fido
