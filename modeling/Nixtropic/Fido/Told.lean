import Nixtropic.Cbor.Value
import Nixtropic.Fido.Writer
import Nixtropic.Fido.Data

/-!
What a host reads in the answers of the credential management.

It decodes the body as one data item and looks under the keys of the map for what it wants to
know. The bodies of the metadata, of an RP and of a credential are read back as they are.
-/

namespace Nixtropic.Fido

open Cbor

theorem hexText_length (b : Bytes) : (hexText b).length = 2 * b.length := by
  induction b with
  | nil => rfl
  | cons x b ih =>
      rw [hexText] at ih ⊢
      rw [List.flatMap_cons, List.length_append, ih, List.length_cons]
      simp only [List.length_map, List.length_cons, List.length_nil]
      omega

/-! ### The host -/

/-- `{ 1: used, 2: free }` -/
def hostMetadata (v : Value) : Option Answer := do
  let used ← (v.under (Value.isUint 1)).bind Value.uint?
  let free ← (v.under (Value.isUint 2)).bind Value.uint?
  pure (.credsMetadata used free)

/-- `{ 4: rpIdHash, 5: total }`; only the first answer carries a total. -/
def hostRp (v : Value) : Option Answer := do
  let rpHash ← (v.under (Value.isUint 4)).bind Value.bytes?
  pure (.rpEntry rpHash (((v.under (Value.isUint 5)).bind Value.uint?).getD 0))

/-- The `"id"` of a user or of a credential. -/
def hostId (v : Value) : Option Bytes := (v.under (Value.isText (ascii "id"))).bind Value.bytes?

/-- `{ 6: user, 7: credentialId, 8: publicKey, 9: total }` -/
def hostCredential (v : Value) : Option Answer := do
  let user ← (v.under (Value.isUint 6)).bind hostId
  let credId ← (v.under (Value.isUint 7)).bind hostId
  let key ← v.under (Value.isUint 8)
  pure (.credEntry user credId key.item.encode
    (((v.under (Value.isUint 9)).bind Value.uint?).getD 0))

/-- The levels that a host has to expect. -/
def hostDepth : ℕ := 4

def hostReads (body : Bytes) : Option Answer := do
  let v ← Item.decode hostDepth body
  hostMetadata v <|> hostRp v <|> hostCredential v

/-! ### The bodies are data items -/

theorem cborUint_item (n : ℕ) : cborUint n = (Value.uint n).item.encode := Writer.putHead_eq_encode

theorem cborNegint_item (n : ℕ) : cborNegint n = (Value.nint n).item.encode :=
  Writer.putHead_eq_encode

theorem cborByteString_item (s : Bytes) : cborByteString s = (Value.bytes s).item.encode :=
  congrArg (· ++ s) Writer.putHead_eq_encode

theorem cborText_item (s : Bytes) : cborText s = (Value.text s).item.encode :=
  congrArg (· ++ s) Writer.putHead_eq_encode

theorem map_item (ms : List (Value × Value)) :
    (Value.map ms).item.encode =
      cborMapHeader ms.length ++ ms.flatMap fun m => m.1.item.encode ++ m.2.item.encode := by
  rw [Value.encode_map, cborMapHeader, Writer.putHead_eq_encode]

theorem idMap_item (v : Value) :
    idMap v.item.encode = (Value.map [(.text (ascii "id"), v)]).item.encode := by
  rw [map_item, idMap, cborText_item]
  simp

theorem pkcDescriptor_item (credId : Bytes) :
    pkcDescriptor credId = (Value.map [(.text (ascii "id"), .bytes credId),
      (.text (ascii "type"), .text (ascii "public-key"))]).item.encode := by
  rw [map_item, pkcDescriptor, cborText_item, cborText_item, cborText_item, cborByteString_item]
  simp

theorem short (n : ℕ) (h : n < 24) : n < 2 ^ 64 := by omega

/-- A total of 0 is left out. -/
def totalMember (key total : ℕ) : List (Value × Value) :=
  if total ≠ 0 then [(.uint key, .uint total)] else []

def metadataValue (used free : ℕ) : Value := .map [(.uint 1, .uint used), (.uint 2, .uint free)]

def rpValue (rpHash : Bytes) (total : ℕ) : Value :=
  .map ([(.uint 3, .map [(.text (ascii "id"), .text (hexText rpHash))]), (.uint 4, .bytes rpHash)]
    ++ totalMember 5 total)

def credentialValue (user credId : Bytes) (key : Value) (total : ℕ) : Value :=
  .map ([(.uint 6, .map [(.text (ascii "id"), .bytes user)]),
    (.uint 7, .map [(.text (ascii "id"), .bytes credId),
      (.text (ascii "type"), .text (ascii "public-key"))]),
    (.uint 8, key)] ++ totalMember 9 total)

theorem credsMetadata_item (used free : ℕ) :
    (Answer.credsMetadata used free).body = (metadataValue used free).item.encode := by
  show cborMapHeader 2 ++ cborUint 1 ++ cborUint used ++ cborUint 2 ++ cborUint free = _
  rw [metadataValue, map_item]
  simp only [cborUint_item, List.flatMap_cons, List.flatMap_nil, List.append_nil, List.append_assoc]
  rfl

theorem rpEntry_item (rpHash : Bytes) (total : ℕ) :
    (Answer.rpEntry rpHash total).body = (rpValue rpHash total).item.encode := by
  show cborMapHeader (if total ≠ 0 then 3 else 2) ++ cborUint 3 ++
    idMap (cborText (hexText rpHash)) ++ cborUint 4 ++ cborByteString rpHash ++
    (if total ≠ 0 then cborUint 5 ++ cborUint total else []) = _
  rw [rpValue, map_item, cborText_item, idMap_item, cborByteString_item]
  by_cases ht : total = 0
  · simp only [totalMember, ht, ne_eq, not_true_eq_false, if_false, cborUint_item,
      List.flatMap_cons, List.flatMap_nil, List.append_nil, List.append_assoc]
    rfl
  · simp only [totalMember, ht, ne_eq, not_false_eq_true, if_true, cborUint_item, List.cons_append,
      List.nil_append, List.flatMap_cons, List.flatMap_nil, List.append_nil, List.append_assoc]
    rfl

theorem credEntry_item (user credId : Bytes) (key : Value) (total : ℕ) :
    (Answer.credEntry user credId key.item.encode total).body =
      (credentialValue user credId key total).item.encode := by
  show cborMapHeader (if total ≠ 0 then 4 else 3) ++ cborUint 6 ++ idMap (cborByteString user) ++
    cborUint 7 ++ pkcDescriptor credId ++ cborUint 8 ++ key.item.encode ++
    (if total ≠ 0 then cborUint 9 ++ cborUint total else []) = _
  rw [credentialValue, map_item, cborByteString_item, idMap_item, pkcDescriptor_item]
  by_cases ht : total = 0
  · simp only [totalMember, ht, ne_eq, not_true_eq_false, if_false, cborUint_item,
      List.flatMap_cons, List.flatMap_nil, List.append_nil, List.append_assoc]
    rfl
  · simp only [totalMember, ht, ne_eq, not_false_eq_true, if_true, cborUint_item, List.cons_append,
      List.nil_append, List.flatMap_cons, List.flatMap_nil, List.append_nil, List.append_assoc]
    rfl

/-- A public key is a map of numbers and byte strings. -/
theorem coseWritePubkey_item {alg : CoseAlg} {pub cose : Bytes}
    (h : coseWritePubkey alg pub = some cose) :
    ∃ key : Value, cose = key.item.encode ∧ key.All Value.FitsHere ∧ key.depth ≤ 1 := by
  unfold coseWritePubkey at h
  split at h
  · cases h
  rename_i hlen
  have hlen : pub.length = cosePubLen alg := not_not.mp hlen
  cases alg with
  | eddsa =>
      obtain rfl := Option.some.inj h
      have htake : (pub.take 32).length < 2 ^ 64 := by
        rw [List.length_take]
        omega
      refine ⟨.map [(.uint 1, .uint 1), (.uint 3, .nint 7), (.nint 0, .uint 6),
        (.nint 1, .bytes (pub.take 32))], ?_, ?_, Nat.le_refl 1⟩
      · rw [map_item, cborByteString_item]
        simp only [cborUint_item, cborNegint_item, List.flatMap_cons, List.flatMap_nil,
          List.append_nil, List.append_assoc]
        rfl
      · exact ⟨short 4 (by decide), ⟨short 1 (by decide), short 1 (by decide)⟩,
          ⟨short 3 (by decide), short 7 (by decide)⟩, ⟨short 0 (by decide), short 6 (by decide)⟩,
          ⟨short 1 (by decide), htake⟩, trivial⟩
  | es256 =>
      obtain rfl := Option.some.inj h
      have htake : (pub.take 32).length < 2 ^ 64 := by
        rw [List.length_take]
        omega
      have hdrop : (pub.drop 32).length < 2 ^ 64 := by
        rw [List.length_drop, hlen]
        decide
      refine ⟨.map [(.uint 1, .uint 2), (.uint 3, .nint 6), (.nint 0, .uint 1),
        (.nint 1, .bytes (pub.take 32)), (.nint 2, .bytes (pub.drop 32))], ?_, ?_, Nat.le_refl 1⟩
      · rw [map_item, cborByteString_item, cborByteString_item]
        simp only [cborUint_item, cborNegint_item, List.flatMap_cons, List.flatMap_nil,
          List.append_nil, List.append_assoc]
        rfl
      · exact ⟨short 5 (by decide), ⟨short 1 (by decide), short 2 (by decide)⟩,
          ⟨short 3 (by decide), short 6 (by decide)⟩, ⟨short 0 (by decide), short 1 (by decide)⟩,
          ⟨short 1 (by decide), htake⟩, ⟨short 2 (by decide), hdrop⟩, trivial⟩

/-! ### The bodies are read back -/

theorem credsMetadata_read {used free : ℕ} (hu : used < 2 ^ 64) (hf : free < 2 ^ 64) :
    hostReads (Answer.credsMetadata used free).body = some (.credsMetadata used free) := by
  have hfits : (metadataValue used free).All Value.FitsHere :=
    ⟨short 2 (by decide), ⟨short 1 (by decide), hu⟩, ⟨short 2 (by decide), hf⟩, trivial⟩
  have hdepth : (metadataValue used free).depth ≤ hostDepth := show 1 ≤ 4 by decide
  rw [hostReads, credsMetadata_item, Value.decode_item hfits hdepth]
  rfl

theorem totalMember_cases (key total : ℕ) :
    totalMember key total = [] ∧ total = 0 ∨
      totalMember key total = [(.uint key, .uint total)] := by
  rw [totalMember]
  split
  · exact .inr rfl
  · rename_i h
    exact .inl ⟨rfl, not_not.mp h⟩

theorem rpEntry_read {rpHash : Bytes} {total : ℕ} (hh : rpHash.length < 2 ^ 32)
    (ht : total < 2 ^ 64) :
    hostReads (Answer.rpEntry rpHash total).body = some (.rpEntry rpHash total) := by
  have hid : (Value.map [(.text (ascii "id"), .text (hexText rpHash))]).All Value.FitsHere := by
    refine ⟨short 1 (by decide), ⟨short 2 (by decide), ?_⟩, trivial⟩
    show (hexText rpHash).length < 2 ^ 64
    rw [hexText_length]
    omega
  have hhash : (Value.bytes rpHash).All Value.FitsHere := hh.trans (by decide)
  have hread : Item.decode hostDepth (rpValue rpHash total).item.encode =
      some (rpValue rpHash total) := by
    rw [rpValue]
    rcases totalMember_cases 5 total with ⟨h, -⟩ | h
    · rw [h]
      exact Value.decode_item (t := .map [(.uint 3, _), (.uint 4, _)]) ⟨short 2 (by decide),
        ⟨short 3 (by decide), hid⟩, ⟨short 4 (by decide), hhash⟩, trivial⟩ (show 2 ≤ 4 by decide)
    · rw [h]
      exact Value.decode_item (t := .map [(.uint 3, _), (.uint 4, _), (.uint 5, _)])
        ⟨short 3 (by decide), ⟨short 3 (by decide), hid⟩, ⟨short 4 (by decide), hhash⟩,
          ⟨short 5 (by decide), ht⟩, trivial⟩ (show 2 ≤ 4 by decide)
  rw [hostReads, rpEntry_item, hread, rpValue]
  rcases totalMember_cases 5 total with ⟨h, rfl⟩ | h
  · rw [h]
    rfl
  · rw [h]
    rfl

theorem credEntry_read {user credId : Bytes} {key : Value} {total : ℕ}
    (huser : user.length < 2 ^ 64) (hid : credId.length < 2 ^ 64)
    (hkey : key.All Value.FitsHere) (hdepth : key.depth ≤ 1) (ht : total < 2 ^ 64) :
    hostReads (Answer.credEntry user credId key.item.encode total).body =
      some (.credEntry user credId key.item.encode total) := by
  have hu : (Value.map [(.text (ascii "id"), .bytes user)]).All Value.FitsHere :=
    ⟨short 1 (by decide), ⟨short 2 (by decide), huser⟩, trivial⟩
  have hc : (Value.map [(.text (ascii "id"), .bytes credId),
      (.text (ascii "type"), .text (ascii "public-key"))]).All Value.FitsHere :=
    ⟨short 2 (by decide), ⟨short 2 (by decide), hid⟩, ⟨short 4 (by decide), short 10 (by decide)⟩,
      trivial⟩
  have hd : max 1 (max 1 (max key.depth 0)) + 1 ≤ 4 := by omega
  have hread : Item.decode hostDepth (credentialValue user credId key total).item.encode =
      some (credentialValue user credId key total) := by
    rw [credentialValue]
    rcases totalMember_cases 9 total with ⟨h, -⟩ | h
    · rw [h]
      refine Value.decode_item (t := .map [(.uint 6, _), (.uint 7, _), (.uint 8, key)])
        ⟨short 3 (by decide), ⟨short 6 (by decide), hu⟩, ⟨short 7 (by decide), hc⟩,
          ⟨short 8 (by decide), hkey⟩, trivial⟩ ?_
      show max (max 0 1) (max (max 0 1) (max (max 0 key.depth) 0)) + 1 ≤ 4
      omega
    · rw [h]
      refine Value.decode_item
        (t := .map [(.uint 6, _), (.uint 7, _), (.uint 8, key), (.uint 9, _)])
        ⟨short 4 (by decide), ⟨short 6 (by decide), hu⟩, ⟨short 7 (by decide), hc⟩,
          ⟨short 8 (by decide), hkey⟩, ⟨short 9 (by decide), ht⟩, trivial⟩ ?_
      show max (max 0 1) (max (max 0 1) (max (max 0 key.depth) 0)) + 1 ≤ 4
      omega
  rw [hostReads, credEntry_item, hread, credentialValue]
  rcases totalMember_cases 9 total with ⟨h, rfl⟩ | h
  · rw [h]
    rfl
  · rw [h]
    rfl

end Nixtropic.Fido
