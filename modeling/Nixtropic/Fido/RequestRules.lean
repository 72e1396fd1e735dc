import Nixtropic.Cbor.Value
import Nixtropic.Fido.Ctap2Parse

/-!
What CTAP asks of a MakeCredential and a GetAssertion request, said of the value
that the request stands for.

Every member of a map is looked at by itself, in byte order, and the first that
breaks a rule decides the answer. A field of the result is what the last of its
members says. A member that is not known is ignored.

`asBool` is the rule for the value of an option: the documented one is
`onlyBool`, and the code follows `laxBool`.
-/

namespace Nixtropic.Fido

open Cbor

/-- What the last of the members that say something says. -/
def lastOf {α β : Type} (f : α → Option β) (xs : List α) : Option β := (xs.filterMap f).getLast?

/-! ### Types -/

def asText : Value → Except Status Bytes
  | .text s => .ok s
  | _ => .error .cborUnexpectedType

def asBytes : Value → Except Status Bytes
  | .bytes s => .ok s
  | _ => .error .cborUnexpectedType

def asUint : Value → Except Status ℕ
  | .uint n => .ok n
  | _ => .error .cborUnexpectedType

def asInt : Value → Except Status ℤ
  | .uint n => .ok n
  | .nint n => .ok (-1 - n)
  | _ => .error .cborUnexpectedType

def asArray : Value → Except Status (List Value)
  | .array xs => .ok xs
  | _ => .error .cborUnexpectedType

def asMap : Value → Except Status (List (Value × Value))
  | .map ms => .ok ms
  | _ => .error .cborUnexpectedType

/-- An option is one of the simple values false and true. -/
def onlyBool : Value → Option Bool
  | .bool b => some b
  | _ => none

/-- What `rd_bool` takes for a boolean: whatever has 20 or 21 as the argument of a head of major
type 7. -/
def laxBool : Value → Option Bool
  | .bool c => some c
  | .simple n | .float _ n => if n = 20 then some false else if n = 21 then some true else none
  | _ => none

def boolRule (asBool : Value → Option Bool) (v : Value) : Except Status Bool :=
  match asBool v with
  | some b => .ok b
  | none => .error .cborUnexpectedType

/-! ### Members -/

/-- clientDataHash: 32 bytes. -/
def hashRule (v : Value) : Except Status Bytes := do
  let s ← asBytes v
  if s.length = 32 then pure s else .error .invalidLength

/-- A member of an entity, of which "id" is known. -/
def idMember (read : Value → Except Status Bytes) (m : Value × Value) :
    Except Status (Option Bytes) := do
  let k ← asText m.1
  if k = ascii "id" then do
    let s ← read m.2
    pure (some s)
  else pure none

/-- An entity: its "id" is required. -/
def idRule (read : Value → Except Status Bytes) (v : Value) : Except Status Bytes := do
  let ms ← asMap v
  let ids ← ms.mapM (idMember read)
  match lastOf id ids with
  | some s => pure s
  | none => .error .cborUnexpectedType

def rpRule : Value → Except Status Bytes := idRule asText

/-- user: the "id" has at most 64 bytes. -/
def userRule (v : Value) : Except Status Bytes := do
  let s ← idRule asBytes v
  if s.length ≤ 64 then pure s else .error .invalidLength

/-- A known member of an entry of pubKeyCredParams or of a descriptor. -/
inductive EntryMember (α : Type) where
  | what (a : α)
  | type (s : Bytes)
  | unknown
  deriving DecidableEq, Repr

def EntryMember.what? {α : Type} : EntryMember α → Option α
  | .what a => some a
  | _ => none

def EntryMember.type? {α : Type} : EntryMember α → Option Bytes
  | .type s => some s
  | _ => none

/-- A member of a map in which `name`, read with `read`, and "type" are known. -/
def entryMember {α : Type} (name : String) (read : Value → Except Status α) (m : Value × Value) :
    Except Status (EntryMember α) := do
  let k ← asText m.1
  if k = ascii name then do
    let a ← read m.2
    pure (.what a)
  else if k = ascii "type" then do
    let s ← asText m.2
    pure (.type s)
  else pure .unknown

/-- A map of these: both are required. -/
def entryRule {α : Type} (name : String) (read : Value → Except Status α) (v : Value) :
    Except Status (α × Bytes) := do
  let ms ← asMap v
  let es ← ms.mapM (entryMember name read)
  match lastOf EntryMember.what? es, lastOf EntryMember.type? es with
  | some a, some t => pure (a, t)
  | _, _ => .error .cborUnexpectedType

/-- The algorithm of an entry, when it is one for public keys that is supported: EdDSA or
ES256. -/
def supported (e : ℤ × Bytes) : Option ℤ :=
  if e.2 = ascii "public-key" ∧ (e.1 = -8 ∨ e.1 = -7) then some e.1 else none

/-- pubKeyCredParams: the first supported algorithm, in the order of the host. -/
def paramsRule (v : Value) : Except Status (Option ℤ) := do
  let xs ← asArray v
  let es ← xs.mapM (entryRule "alg" asInt)
  pure (es.findSome? supported)

/-- excludeList, allowList: an array of descriptors. -/
def listRule (v : Value) : Except Status Value := do
  let xs ← asArray v
  let _ ← xs.mapM (entryRule "id" asBytes)
  pure v

inductive OptionName where
  | rk
  | up
  | uv
  deriving DecidableEq, Repr

def OptionName.key : OptionName → String
  | rk => "rk"
  | up => "up"
  | uv => "uv"

/-- A member of options, of which "rk", "up" and "uv" are known. -/
def optionMember (asBool : Value → Option Bool) (m : Value × Value) :
    Except Status (Option (OptionName × Bool)) := do
  let k ← asText m.1
  match [OptionName.rk, .up, .uv].find? fun n => k = ascii n.key with
  | some n => do
      let v ← boolRule asBool m.2
      pure (some (n, v))
  | none => pure none

/-- options: the known members in byte order. -/
def optionsRule (asBool : Value → Option Bool) (v : Value) :
    Except Status (List (OptionName × Bool)) := do
  let ms ← asMap v
  let os ← ms.mapM (optionMember asBool)
  pure (os.filterMap id)

/-- extensions: whether credProps is named. -/
def extensionsRule (v : Value) : Except Status Bool := do
  let ms ← asMap v
  let ks ← ms.mapM fun m => asText m.1
  pure (ks.any fun k => k = ascii "credProps")

/-- pinUvAuthProtocol: a number above 0xffff is reported as 0xffff, which no protocol uses. -/
def protocolRule (v : Value) : Except Status ℕ := do
  let n ← asUint v
  pure (min n 0xffff)

/-- What a member of a request says. -/
inductive Field where
  | clientHash (s : Bytes)
  | rpId (s : Bytes)
  | userId (s : Bytes)
  | alg (a : Option ℤ)
  | list (v : Value)
  | extensions (credProps : Bool)
  | options (os : List (OptionName × Bool))
  | pinUvParam (s : Bytes)
  | protocol (n : ℕ)
  | ignored

namespace Field

def clientHash? : Field → Option Bytes
  | .clientHash s => some s
  | _ => none

def rpId? : Field → Option Bytes
  | .rpId s => some s
  | _ => none

def userId? : Field → Option Bytes
  | .userId s => some s
  | _ => none

def alg? : Field → Option (Option ℤ)
  | .alg a => some a
  | _ => none

def list? : Field → Option Value
  | .list v => some v
  | _ => none

def credProps : Field → Bool
  | .extensions wanted => wanted
  | _ => false

def options? : Field → List (OptionName × Bool)
  | .options os => os
  | _ => []

def pinUvParam? : Field → Option Bytes
  | .pinUvParam s => some s
  | _ => none

def protocol? : Field → Option ℕ
  | .protocol n => some n
  | _ => none

end Field

/-- The last value of an option, over all the members "options". -/
def optionOf (n : OptionName) (xs : List Field) : Option Bool :=
  lastOf (fun o => if o.1 = n then some o.2 else none) (xs.flatMap Field.options?)

def optionsOf (xs : List Field) : Options := ⟨optionOf .rk xs, optionOf .up xs, optionOf .uv xs⟩

/-! ### MakeCredential -/

/-- The rule for the value of the parameter `key` of MakeCredential. -/
def mcValueRule (asBool : Value → Option Bool) (key : ℕ) (v : Value) : Except Status Field :=
  match key with
  | 1 => Field.clientHash <$> hashRule v
  | 2 => Field.rpId <$> rpRule v
  | 3 => Field.userId <$> userRule v
  | 4 => Field.alg <$> paramsRule v
  | 5 => Field.list <$> listRule v
  | 6 => Field.extensions <$> extensionsRule v
  | 7 => Field.options <$> optionsRule asBool v
  | 8 => Field.pinUvParam <$> asBytes v
  | 9 => Field.protocol <$> protocolRule v
  -- enterpriseAttestation is not supported
  | 10 => .error .invalidParameter
  | _ => .ok .ignored

/-- A member of the request; the keys are unsigned integers. -/
def mcRule (asBool : Value → Option Bool) (m : Value × Value) : Except Status Field := do
  let key ← asUint m.1
  mcValueRule asBool key m.2

/-- The result for the fields of all members. -/
def mcResult (xs : List Field) : Except Status (McFields Bytes Value) :=
  match lastOf Field.clientHash? xs, lastOf Field.rpId? xs, lastOf Field.userId? xs,
      lastOf Field.alg? xs with
  | some hash, some rp, some user, some (some alg) => .ok
      { clientHash := some hash, rpId := some rp, userId := some user, alg := some alg
        exclude := lastOf Field.list? xs
        wantCredProps := xs.any Field.credProps
        opt := optionsOf xs
        pinUvParam := lastOf Field.pinUvParam? xs
        protocol := lastOf Field.protocol? xs }
  | some _, some _, some _, some none => .error .unsupportedAlgorithm
  | _, _, _, _ => .error .missingParameter

/-- The reference for MakeCredential. -/
def mcReference (asBool : Value → Option Bool) (v : Value) :
    Except Status (McFields Bytes Value) := do
  let ms ← asMap v
  let xs ← ms.mapM (mcRule asBool)
  mcResult xs

/-! ### GetAssertion -/

/-- The rule for the value of the parameter `key` of GetAssertion. -/
def gaValueRule (asBool : Value → Option Bool) (key : ℕ) (v : Value) : Except Status Field :=
  match key with
  | 1 => Field.rpId <$> asText v
  | 2 => Field.clientHash <$> hashRule v
  | 3 => Field.list <$> listRule v
  | 5 => Field.options <$> optionsRule asBool v
  | 6 => Field.pinUvParam <$> asBytes v
  | 7 => Field.protocol <$> protocolRule v
  | _ => .ok .ignored

def gaRule (asBool : Value → Option Bool) (m : Value × Value) : Except Status Field := do
  let key ← asUint m.1
  gaValueRule asBool key m.2

def gaResult (xs : List Field) : Except Status (GaFields Bytes Value) :=
  match lastOf Field.rpId? xs, lastOf Field.clientHash? xs with
  | some rp, some hash => .ok
      { rpId := some rp, clientHash := some hash
        allow := lastOf Field.list? xs
        opt := optionsOf xs
        pinUvParam := lastOf Field.pinUvParam? xs
        protocol := lastOf Field.protocol? xs }
  | _, _ => .error .missingParameter

/-- The reference for GetAssertion. -/
def gaReference (asBool : Value → Option Bool) (v : Value) :
    Except Status (GaFields Bytes Value) := do
  let ms ← asMap v
  let xs ← ms.mapM (gaRule asBool)
  gaResult xs

end Nixtropic.Fido
