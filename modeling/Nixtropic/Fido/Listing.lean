import Nixtropic.Fido.Shelf
import Nixtropic.Fido.Told
import Nixtropic.Fido.Lasting
import Mathlib.Data.List.GetD

/-!
Credential management enumerates exactly the store.

A platform that holds a token asks for the metadata, enumerates the RPs, and
enumerates the credentials of every RP it was told of. What it is told then is
the store: `Exact`.
-/

namespace Nixtropic.Fido

open Crash Runs

/-! ### What a platform does -/

/-- A sub-command with a pinUvAuthParam made with the token. -/
def cmAuthorised (F : FidoPrims) (token : Bytes) (sub : ℕ) (params : Bytes)
    (rpHash : Except Status Bytes) : CmReq where
  sub := some sub
  params := params
  protocol := some 1
  pinAuth := some (tokenMac F token (UInt8.ofNat sub :: params))
  rpHash := rpHash
  credId := .error .missingParameter

/-- `{ 1: rpIdHash }` -/
def rpHashParams (rpHash : Bytes) : Bytes := cborMapHeader 1 ++ cborUint 1 ++ cborByteString rpHash

/-- A GetNext carries nothing. -/
def cmGetNext (sub : ℕ) : CmReq where
  sub := some sub
  params := []
  protocol := none
  pinAuth := none
  rpHash := .error .missingParameter
  credId := .error .missingParameter

section Platform

variable (F : FidoPrims)

def ask (q : CmReq) : FidoM Answer := fidoHidCborDispatch F ⟨.credentialMgmt (.ok q), true⟩

/-- GetNext until an answer is not OK. -/
def askRest (next : CmReq) : ℕ → FidoM (List Answer)
  | 0 => pure []
  | n + 1 => do
      let a ← ask F next
      if a.code = Status.ok.code then do
        let rest ← askRest next n
        pure (a :: rest)
      else pure []

/-- An enumeration, to its end if `turns` are enough. -/
def enumerate (first next : CmReq) (turns : ℕ) : FidoM (List Answer) := do
  let a ← ask F first
  if a.code = Status.ok.code then do
    let rest ← askRest F next turns
    pure (a :: rest)
  else pure []

variable (token : Bytes) (turns : ℕ)

def enumerateRps : FidoM (List Answer) :=
  enumerate F (cmAuthorised F token subEnumRpsBegin [] (.error .missingParameter))
    (cmGetNext subEnumRpsGetNext) turns

def enumerateCreds (rpHash : Bytes) : FidoM (List Answer) :=
  enumerate F (cmAuthorised F token subEnumCredsBegin (rpHashParams rpHash) (.ok rpHash))
    (cmGetNext subEnumCredsGetNext) turns

/-- The credentials of one RP after another. -/
def enumerateEach : List Bytes → FidoM (List (Bytes × List Answer))
  | [] => pure []
  | rpHash :: rest => do
      let creds ← enumerateCreds F token turns rpHash
      let more ← enumerateEach rest
      pure ((rpHash, creds) :: more)

/-- What the platform is told. -/
structure Listing where
  metadata : Answer
  rps : List Answer
  creds : List (Bytes × List Answer)
  deriving DecidableEq

def Listing.answers (l : Listing) : List Answer := l.metadata :: l.rps ++ l.creds.flatMap Prod.snd

/-- The hash that an RP entry carries. -/
def Answer.rpHash? : Answer → Option Bytes
  | .rpEntry rpHash _ => some rpHash
  | _ => none

def listStore : FidoM Listing := do
  let metadata ← ask F
    (cmAuthorised F token subGetCredsMetadata [] (.error .missingParameter))
  let rps ← enumerateRps F token turns
  let creds ← enumerateEach F token turns (rps.filterMap Answer.rpHash?)
  pure ⟨metadata, rps, creds⟩

variable {A : BoardFate → Prop} {J : FidoRam → Board Note → Prop} {C : Board Note → Prop}

/-- What every request of the platform keeps, a listing keeps. -/
theorem keeps_listStore (hask : ∀ q, Keeps (fidoBoard F) A J C (ask F q)) :
    Keeps (fidoBoard F) A J C (listStore F token turns) := by
  have hrest : ∀ next n, Keeps (fidoBoard F) A J C (askRest F next n) := by
    intro next n
    induction n with
    | zero => exact keeps_pure _
    | succ n ih =>
        apply keeps_bind (hask next)
        intro a
        exact keeps_ite (keeps_bind ih fun _ => keeps_pure _) (keeps_pure _)
  have henum : ∀ first next, Keeps (fidoBoard F) A J C (enumerate F first next turns) := by
    intro first next
    apply keeps_bind (hask first)
    intro a
    exact keeps_ite (keeps_bind (hrest _ _) fun _ => keeps_pure _) (keeps_pure _)
  have heach : ∀ hashes, Keeps (fidoBoard F) A J C (enumerateEach F token turns hashes) := by
    intro hashes
    induction hashes with
    | nil => exact keeps_pure _
    | cons rpHash rest ih =>
        apply keeps_bind (henum _ _)
        intro creds
        exact keeps_bind ih fun _ => keeps_pure _
  apply keeps_bind (hask _)
  intro metadata
  apply keeps_bind (henum _ _)
  intro rps
  exact keeps_bind (heach _) fun _ => keeps_pure _

end Platform

/-! ### What there is to tell -/

/-- A credential as a platform is told of it. -/
structure Credential where
  rpHash : Bytes
  userId : Bytes
  credId : Bytes
  coseKey : Bytes
  deriving DecidableEq

/-- A credential without a user handle is shown with its own id. -/
def credentialOf (slot : ℕ) (m : SlotMeta) (cose : Bytes) : Credential where
  rpHash := m.rpIdHash
  userId := if m.userHandle ≠ [] then m.userHandle else makeCredId slot m.nonce
  credId := makeCredId slot m.nonce
  coseKey := cose

namespace Shelf

variable (s : Shelf)

def allocated : List ℕ := (List.range fidoSlotsMax).filter s.bitmap.getLsbD

/-- The credential in a slot, if its metadata and its public key read
correctly. -/
def credential (slot : ℕ) : Option Credential :=
  match s.cred slot with
  | .ok m => (s.coseKey slot m).map (credentialOf slot m)
  | _ => none

/-- All metadata and public keys read correctly. -/
def Readable : Prop := ∀ i ∈ s.allocated, (s.credential i).isSome = true

end Shelf

/-- The credential that an answer tells of, in the enumeration of an RP. -/
def Answer.credential? (rpHash : Bytes) : Answer → Option Credential
  | .credEntry userId credId coseKey _ => some ⟨rpHash, userId, credId, coseKey⟩
  | _ => none

/-- The total that an entry carries. -/
def Answer.total? : Answer → Option ℕ
  | .rpEntry _ total => if total ≠ 0 then some total else none
  | .credEntry _ _ _ total => if total ≠ 0 then some total else none
  | _ => none

/-- The total that an enumeration announces, 0 if it has no entry. -/
def announced (answers : List Answer) : ℕ := (answers.head?.bind Answer.total?).getD 0

/-- The platform is told exactly what the store holds. -/
structure Exact (s : Shelf) (l : Listing) : Prop where
  /-- Every allocated credential is told of once, under its own RP. -/
  credentials : (l.creds.flatMap fun g => g.2.map (Answer.credential? g.1)).Perm
    (s.allocated.map s.credential)
  /-- The RPs whose credentials are told of are those that were told of. -/
  each : l.creds.map Prod.fst = l.rps.filterMap Answer.rpHash?
  /-- Every RP is told of once. -/
  nodup : (l.rps.map Answer.rpHash?).Nodup
  rps : ∀ h, h ∈ l.rps.map Answer.rpHash? ↔
    ∃ i ∈ s.allocated, h = (s.credential i).map Credential.rpHash
  /-- The totals are those of the entries. -/
  rpTotal : announced l.rps = l.rps.length
  credTotals : ∀ g ∈ l.creds, announced g.2 = g.2.length
  /-- And they sum up to what the metadata say. -/
  sum : (l.creds.map fun g => announced g.2).sum = s.allocated.length
  metadata : l.metadata = .credsMetadata s.allocated.length (fidoSlotsMax - s.allocated.length)

/-! ### Every entry fits -/

/-- The lengths that `read_cred` lets through. -/
structure SlotMeta.Sized (m : SlotMeta) : Prop where
  rpIdHash : m.rpIdHash.length ≤ 32
  nonce : m.nonce.length ≤ 16
  userHandle : m.userHandle.length ≤ userIdMax

theorem makeCredId_length {i : ℕ} {m : SlotMeta} (h : m.Sized) :
    (makeCredId i m.nonce).length ≤ slotsCredIdLen := by
  have := h.nonce
  simp only [makeCredId, List.cons_append, List.nil_append, List.length_cons, slotsCredIdLen]
  omega

theorem userHandleOf_length (buf : Bytes) : (userHandleOf buf).length ≤ userIdMax := by
  rw [userHandleOf]
  split
  · rename_i h
    rw [List.length_take]
    omega
  · exact Nat.zero_le _

theorem decodeCred_sized {buf : Bytes} {m : SlotMeta} (h : decodeCred buf = .ok m) : m.Sized := by
  rw [decodeCred] at h
  split at h
  · cases h
  split at h
  · cases h
  split at h
  · cases h
  cases h
  refine ⟨?_, ?_, userHandleOf_length buf⟩
  · show ((buf.drop 8).take 32).length ≤ 32
    rw [List.length_take]
    omega
  · show ((buf.drop 40).take 16).length ≤ 16
    rw [List.length_take]
    omega

theorem credAt_sized {R : ℕ → RSlot} {slot : ℕ} {m : SlotMeta} (h : credAt R slot = .ok m) :
    m.Sized := by
  rw [credAt] at h
  split at h
  · cases h
  · cases h
  · exact decodeCred_sized h

theorem cborText_length (s : Bytes) : (cborText s).length ≤ s.length + 9 := by
  have := putHead_length 3 s.length
  simp only [cborText, List.length_append]
  omega

theorem idMap_length (id : Bytes) : (idMap id).length ≤ id.length + 20 := by
  have hmap := putHead_length 5 1
  have htext := cborText_length (ascii "id")
  have hid : (ascii "id").length = 2 := rfl
  simp only [idMap, cborMapHeader, List.length_append]
  omega

theorem pkcDescriptor_length (id : Bytes) : (pkcDescriptor id).length ≤ id.length + 62 := by
  have hmap := putHead_length 5 2
  have hid := cborText_length (ascii "id")
  have htype := cborText_length (ascii "type")
  have hkey := cborText_length (ascii "public-key")
  have hbytes := cborByteString_length id
  have h1 : (ascii "id").length = 2 := rfl
  have h2 : (ascii "type").length = 4 := rfl
  have h3 : (ascii "public-key").length = 10 := rfl
  simp only [pkcDescriptor, cborMapHeader, List.length_append]
  omega

theorem fitted_of_length {a : Answer} (h : a.body.length < respMax) : a.fitted = a := by
  rw [Answer.fitted, if_neg]
  omega

theorem rpEntry_fitted {h : Bytes} (hlen : h.length ≤ 32) (total : ℕ) :
    (Answer.rpEntry h total).fitted = .rpEntry h total := by
  apply fitted_of_length
  have hhead := putHead_length 5 (if total ≠ 0 then 3 else 2)
  have h3 := putHead_length 0 3
  have h4 := putHead_length 0 4
  have hid := idMap_length (cborText (hexText h))
  have htext := cborText_length (hexText h)
  have hhex := hexText_length h
  have hbytes := cborByteString_length h
  have htotal : (if total ≠ 0 then cborUint 5 ++ cborUint total else []).length ≤ 18 := by
    have h5 := putHead_length 0 5
    have ht := putHead_length 0 total
    split
    · simp only [cborUint, List.length_append]
      omega
    · exact Nat.zero_le _
  show List.length (_ ++ _ ++ _ ++ _ ++ _ ++ _) < 2048
  simp only [List.length_append]
  simp only [cborMapHeader, cborUint] at h3 h4 htotal ⊢
  omega

theorem credEntry_fitted {userId credId cose : Bytes} (huser : userId.length ≤ userIdMax)
    (hcred : credId.length ≤ slotsCredIdLen) (hcose : cose.length ≤ 77) (total : ℕ) :
    (Answer.credEntry userId credId cose total).fitted = .credEntry userId credId cose total := by
  apply fitted_of_length
  have hhead := putHead_length 5 (if total ≠ 0 then 4 else 3)
  have h6 := putHead_length 0 6
  have h7 := putHead_length 0 7
  have h8 := putHead_length 0 8
  have hid := idMap_length (cborByteString userId)
  have hbytes := cborByteString_length userId
  have hdesc := pkcDescriptor_length credId
  have htotal : (if total ≠ 0 then cborUint 9 ++ cborUint total else []).length ≤ 18 := by
    have h9 := putHead_length 0 9
    have ht := putHead_length 0 total
    split
    · simp only [cborUint, List.length_append]
      omega
    · exact Nat.zero_le _
  simp only [userIdMax, slotsCredIdLen] at huser hcred
  show List.length (_ ++ _ ++ _ ++ _ ++ _ ++ _ ++ _ ++ _) < 2048
  simp only [List.length_append]
  simp only [cborMapHeader, cborUint] at h6 h7 h8 htotal ⊢
  omega

theorem credsMetadata_fitted (used free : ℕ) :
    (Answer.credsMetadata used free).fitted = .credsMetadata used free := by
  apply fitted_of_length
  have hhead := putHead_length 5 2
  have h1 := putHead_length 0 1
  have h2 := putHead_length 0 2
  have hu := putHead_length 0 used
  have hf := putHead_length 0 free
  show List.length (_ ++ _ ++ _ ++ _ ++ _) < 2048
  simp only [cborMapHeader, cborUint, List.length_append]
  omega

/-! ### The shelf of a store that reads correctly -/

/-- A shelf as a device has it: the bits are those of slots that exist, and the
metadata have the lengths that `read_cred` lets through. -/
structure Shelf.Sound (s : Shelf) : Prop where
  bits : ∀ i, fidoSlotsMax ≤ i → s.bitmap.getLsbD i = false
  sized : ∀ i m, s.cred i = .ok m → m.Sized

theorem sound_shelf {F : FidoPrims} {u : FidoRam} {b : Board Note} (hu : u.Fits) :
    (shelf F u b).Sound where
  bits i hi := by
    show u.bitmap.getLsbD i = false
    rw [FidoRam.bitmap]
    split
    · exact fits_iff.mp hu i hi
    · simp
  sized _ _ h := credAt_sized h

namespace Shelf

variable {s : Shelf}

theorem mem_allocated {i : ℕ} : i ∈ s.allocated ↔ i < fidoSlotsMax ∧ s.bitmap.getLsbD i = true := by
  rw [allocated, List.mem_filter, List.mem_range]

theorem credential_eq_some {i : ℕ} {c : Credential} :
    s.credential i = some c ↔
      ∃ m cose, s.cred i = .ok m ∧ s.coseKey i m = some cose ∧ credentialOf i m cose = c := by
  rw [credential]
  cases hc : s.cred i with
  | ok m => simp [Option.map_eq_some_iff]
  | _ => simp

/-- What is allocated has an entry, and a key to go with it. -/
theorem Readable.entry (h : s.Readable) {i : ℕ} (hi : i ∈ s.allocated) :
    ∃ m cose, s.read i = .ok m ∧ s.coseKey i m = some cose ∧
      s.credential i = some (credentialOf i m cose) := by
  obtain ⟨c, hc⟩ := Option.isSome_iff_exists.mp (h i hi)
  obtain ⟨m, cose, hm, hcose, rfl⟩ := credential_eq_some.mp hc
  obtain ⟨hlt, hbit⟩ := mem_allocated.mp hi
  refine ⟨m, cose, ?_, hcose, hc⟩
  rw [read, if_neg (by simp [hbit, Nat.not_le_of_lt hlt]), hm]

theorem mem_allocated_of_read {i : ℕ} {m : SlotMeta} (h : s.read i = .ok m) : i ∈ s.allocated :=
  mem_allocated.mpr ⟨(read_lt h).1, (read_lt h).2.1⟩

/-- The entries are those of the allocated slots, in their order. -/
theorem Readable.entries_slots (h : s.Readable) : s.entries.map Prod.fst = s.allocated := by
  have hslots : ∀ l : List ℕ, (∀ i ∈ l, i < fidoSlotsMax) →
      (l.filterMap s.entry).map Prod.fst = l.filter s.bitmap.getLsbD := by
    intro l hl
    induction l with
    | nil => rfl
    | cons i l ih =>
        have ih := ih fun j hj => hl j (List.mem_cons_of_mem i hj)
        by_cases hbit : s.bitmap.getLsbD i = true
        · obtain ⟨m, cose, hr, -⟩ := h.entry (mem_allocated.mpr ⟨hl i List.mem_cons_self, hbit⟩)
          have he : s.entry i = some (i, m) := entry_eq_some.mpr ⟨rfl, hr⟩
          rw [List.filterMap_cons_some he, List.map_cons, ih, List.filter_cons_of_pos hbit]
        · have he : s.entry i = none := by
            have hr : s.read i = .invalid := by
              rw [read, if_pos (.inr (by simpa using hbit))]
            rw [Shelf.entry, hr]
          rw [List.filterMap_cons_none he, ih, List.filter_cons_of_neg hbit]
  exact hslots _ fun i hi => List.mem_range.mp hi

/-- `slots_count_used` counts the allocated slots. -/
theorem Sound.countUsed (h : s.Sound) : s.countUsed = s.allocated.length := by
  have hsplit : List.range 32 = List.range fidoSlotsMax ++ [29, 30, 31] := by decide
  have hnone : [29, 30, 31].filter s.bitmap.getLsbD = [] := by
    apply List.filter_eq_nil_iff.mpr
    intro i hi
    have hle : fidoSlotsMax ≤ i := by
      rcases List.mem_cons.mp hi with rfl | hi
      · decide
      rcases List.mem_cons.mp hi with rfl | hi
      · decide
      rw [List.mem_singleton.mp hi]
      decide
    simp [h.bits i hle]
  rw [Shelf.countUsed, hsplit, List.filter_append, hnone, List.append_nil, allocated]

theorem Sound.rpAnswer (h : s.Sound) {e : ℕ × SlotMeta} (he : s.read e.1 = .ok e.2) (total : ℕ) :
    s.rpAnswer e.1 total = .rpEntry e.2.rpIdHash total := by
  rw [Shelf.rpAnswer, he]
  exact rpEntry_fitted (h.sized _ _ (read_lt he).2.2).rpIdHash total

theorem coseKey_length {i : ℕ} {m : SlotMeta} {cose : Bytes} (h : s.coseKey i m = some cose) :
    cose.length ≤ 77 := by
  obtain ⟨pub, -, h⟩ := Option.bind_eq_some_iff.mp h
  obtain ⟨a, -, h⟩ := Option.bind_eq_some_iff.mp h
  exact coseWritePubkey_length h

theorem Sound.credAnswer (h : s.Sound) {i : ℕ} {m : SlotMeta} {cose : Bytes}
    (hr : s.read i = .ok m) (hcose : s.coseKey i m = some cose) (total : ℕ) :
    s.credAnswer i total = .credEntry (credentialOf i m cose).userId (credentialOf i m cose).credId
      cose total := by
  have hsized := h.sized _ _ (read_lt hr).2.2
  have hid : (makeCredId i m.nonce).length ≤ slotsCredIdLen := makeCredId_length hsized
  rw [Shelf.credAnswer, hr]
  dsimp only
  rw [hcose]
  apply credEntry_fitted _ hid (coseKey_length hcose)
  split
  · exact hsized.userHandle
  · exact hid.trans (by decide)

end Shelf

/-! ### Enumerations to their end -/

/-- The snapshot of an enumeration, and the position in it. -/
def IterState.slots (i : IterState) : IterKind → List ℕ
  | .none => []
  | .rps => i.rpSlots
  | .creds => i.credSlots

def IterState.pos (i : IterState) : IterKind → ℕ
  | .none => 0
  | .rps => i.rpPos
  | .creds => i.credPos

/-- The entry that an enumeration of this kind answers for a slot. -/
def Shelf.answer (s : Shelf) : IterKind → ℕ → ℕ → Answer
  | .none => fun _ _ => .status .notAllowed
  | .rps => s.rpAnswer
  | .creds => s.credAnswer

/-- The answers of an enumeration: the first one carries the total. -/
def Shelf.announces (s : Shelf) (k : IterKind) : List ℕ → List Answer
  | [] => []
  | slot :: rest => s.answer k slot (rest.length + 1) :: rest.map fun slot => s.answer k slot 0

/-- An enumeration of this kind is at a position of a snapshot. -/
structure IterState.At (k : IterKind) (slots : List ℕ) (pos : ℕ) (i : IterState) : Prop where
  kind : i.kind = k
  slots : i.slots k = slots
  pos : i.pos k = pos

/-- A platform holds the token: it knows it, it has cm, and it is bound to no RP. -/
structure Token.Manages (token : Bytes) (t : Token) : Prop where
  known : t.token = token
  cm : t.hasPerm puatPermCm = true
  rp : t.rpBound = false

theorem Token.Goes.inUse {t t' : Token} (h : t.Goes t') : t'.inUse = t.inUse := by
  rcases h with rfl | rfl <;> rfl

theorem Token.Manages.goes {token : Bytes} {t t' : Token} (h : t.Manages token) (hg : t.Goes t') :
    t'.Manages token := by
  rcases hg with rfl | rfl
  · exact h
  · exact ⟨h.known, h.cm, h.rp⟩

/-- The state between two commands of the platform, which still counts as long
as the token is in use. -/
structure Managed (F : FidoPrims) (s : Shelf) (token : Bytes) (I : FidoRam → Prop) (u : FidoRam)
    (b : Board Note) : Prop where
  serves : Serves F s u b
  live : u.token.inUse = true → u.token.Manages token ∧ I u

/-- The iterator is at a position, and its Begin was authorised by the token in
force. -/
def Stands (k : IterKind) (slots : List ℕ) (pos : ℕ) (u : FidoRam) : Prop :=
  u.iter.At k slots pos ∧ u.iter.gen = u.token.generation

section Enumerate

variable {F : FidoPrims} {s : Shelf} {token : Bytes} {u : FidoRam} {b : Board Note}
  {C : Board Note → Prop}

theorem sub_next {k : IterKind} {sub : ℕ} (hk : k.nextSub = some sub) {i : IterState}
    (hi : i.kind = k) (t : Token) (q : CmReq) :
    s.sub t q sub i = if (i.slots k).length ≤ i.pos k then (.status .notAllowed, i)
      else (s.answer k ((i.slots k).getD (i.pos k) 0) 0, (s.sub t q sub i).2) := by
  cases k with
  | none => cases hk
  | rps =>
      cases hk
      show s.rpsNext i = if i.rpSlots.length ≤ i.rpPos then _ else (_, (s.rpsNext i).2)
      rw [Shelf.rpsNext]
      simp only [hi, ne_eq, not_true_eq_false, false_or]
      split <;> rfl
  | creds =>
      cases hk
      show s.credsNext i = if i.credSlots.length ≤ i.credPos then _ else (_, (s.credsNext i).2)
      rw [Shelf.credsNext]
      simp only [hi, ne_eq, not_true_eq_false, false_or]
      split <;> rfl

theorem sub_next_at {k : IterKind} {sub : ℕ} (hk : k.nextSub = some sub) {i : IterState}
    {slots : List ℕ} {pos : ℕ} (hi : i.At k slots pos) (hlt : pos < slots.length) (t : Token)
    (q : CmReq) :
    (s.sub t q sub i).2.At k slots (pos + 1) ∧ (s.sub t q sub i).2.gen = i.gen := by
  have hpos : ¬(i.slots k).length ≤ i.pos k := by
    rw [hi.slots, hi.pos]
    exact Nat.not_le_of_lt hlt
  cases k with
  | none => cases hk
  | rps =>
      cases hk
      have h : s.sub t q subEnumRpsGetNext i = s.rpsNext i := rfl
      have hgo : ¬(i.kind ≠ .rps ∨ i.rpSlots.length ≤ i.rpPos) := by
        rintro (h | h)
        · exact h hi.kind
        · exact hpos h
      rw [h, Shelf.rpsNext, if_neg hgo]
      exact ⟨⟨hi.kind, hi.slots, congrArg (· + 1) hi.pos⟩, rfl⟩
  | creds =>
      cases hk
      have h : s.sub t q subEnumCredsGetNext i = s.credsNext i := rfl
      have hgo : ¬(i.kind ≠ .creds ∨ i.credSlots.length ≤ i.credPos) := by
        rintro (h | h)
        · exact h hi.kind
        · exact hpos h
      rw [h, Shelf.credsNext, if_neg hgo]
      exact ⟨⟨hi.kind, hi.slots, congrArg (· + 1) hi.pos⟩, rfl⟩

theorem nextSub_next {k : IterKind} {sub : ℕ} (hk : k.nextSub = some sub) :
    ¬(sub ≠ subEnumRpsGetNext ∧ sub ≠ subEnumCredsGetNext) ∧ sub ≠ subDeleteCredential := by
  cases k with
  | none => cases hk
  | rps =>
      cases hk
      exact ⟨fun h => h.1 rfl, by decide⟩
  | creds =>
      cases hk
      exact ⟨fun h => h.2 rfl, by decide⟩

/-- One GetNext. -/
theorem swp_askNext {k : IterKind} {sub : ℕ} (hk : k.nextSub = some sub) {slots : List ℕ} {pos : ℕ}
    (h : Managed F s token (Stands k slots pos) u b) (hC : ∀ b, C b) :
    swp (fidoBoard F) CalmBoard (ask F (cmGetNext sub))
      (fun a u' b' => (u'.token.inUse = true → u.token.inUse = true) ∧
        if pos < slots.length then Managed F s token (Stands k slots (pos + 1)) u' b' ∧
          (u'.token.inUse = true → a = s.answer k (slots.getD pos 0) 0)
        else Managed F s token (fun _ => True) u' b' ∧
          (u'.token.inUse = true → a = .status .notAllowed)) C u b := by
  obtain ⟨hnext, hdel⟩ := nextSub_next hk
  apply swp_mono (swp_payload_calm h.serves (q := cmGetNext sub) rfl hdel hC) _ fun _ h => h
  rintro a u' b' ⟨hs', ho⟩
  have back : u'.token.inUse = true → u.token.inUse = true :=
    fun hin => (ho.token hin).inUse.symm.trans hin
  -- as long as the token lives, the GetNext goes on
  have went : u'.token.inUse = true → u'.token.Manages token ∧ u.iter.At k slots pos ∧
      u.iter.gen = u.token.generation ∧ u'.token.generation = u.token.generation ∧
      (a, u'.iter) = s.sub u.token (cmGetNext sub) sub u.iter := by
    intro hin
    obtain ⟨hman, hat, hgen⟩ := h.live (back hin)
    have hgo : (cmGetNext sub).Goes F sub u := ⟨hman.cm, by rw [if_neg hnext]; exact hgen⟩
    have hsub := ho.went hin hgo
    rw [IterState.begun, if_neg hnext, keptFor_next (hat.kind ▸ hk)] at hsub
    refine ⟨hman.goes (ho.token hin), hat, hgen, ?_, hsub⟩
    rcases ho.token hin with h | h <;> rw [h]
  refine ⟨back, ?_⟩
  split
  · rename_i hlt
    refine ⟨⟨hs', fun hin => ?_⟩, fun hin => ?_⟩
    · obtain ⟨hman, hat, hgen, hgen', hsub⟩ := went hin
      have hstep := sub_next_at (s := s) hk hat hlt u.token (cmGetNext sub)
      rw [← congrArg Prod.snd hsub] at hstep
      exact ⟨hman, hstep.1, hstep.2.trans (hgen.trans hgen'.symm)⟩
    · obtain ⟨-, hat, -, -, hsub⟩ := went hin
      rw [sub_next hk hat.kind, if_neg (by rw [hat.slots, hat.pos]; omega), hat.slots,
        hat.pos] at hsub
      exact congrArg Prod.fst hsub
  · rename_i hlt
    refine ⟨⟨hs', fun hin => ⟨(went hin).1, trivial⟩⟩, fun hin => ?_⟩
    obtain ⟨-, hat, -, -, hsub⟩ := went hin
    rw [sub_next hk hat.kind, if_pos (by rw [hat.slots, hat.pos]; omega)] at hsub
    exact congrArg Prod.fst hsub

/-- GetNext to the end of the snapshot. -/
theorem swp_askRest {k : IterKind} {sub : ℕ} (hk : k.nextSub = some sub) {slots : List ℕ}
    (hok : ∀ slot ∈ slots, (s.answer k slot 0).code = Status.ok.code) (hC : ∀ b, C b) {n : ℕ} :
    ∀ {pos u b}, slots.length ≤ pos + n → Managed F s token (Stands k slots pos) u b →
      swp (fidoBoard F) CalmBoard (askRest F (cmGetNext sub) n)
        (fun as u' b' => (u'.token.inUse = true → u.token.inUse = true) ∧
          Managed F s token (fun _ => True) u' b' ∧
          (u'.token.inUse = true → as = (slots.drop pos).map fun slot => s.answer k slot 0))
        C u b := by
  induction n with
  | zero =>
      intro pos u b hlen h
      refine ⟨id, ⟨h.serves, fun hin => ⟨(h.live hin).1, trivial⟩⟩, fun _ => ?_⟩
      have hdrop : slots.drop pos = [] := List.drop_eq_nil_of_le hlen
      rw [hdrop]
      rfl
  | succ n ih =>
      intro pos u b hlen h
      rw [askRest, swp_bind]
      apply swp_mono (swp_askNext hk h hC) _ fun _ h => h
      rintro a u₁ b₁ ⟨back, hask⟩
      split at hask
      · rename_i hlt
        obtain ⟨hnext, ha⟩ := hask
        have hdrop : slots.drop pos = slots.getD pos 0 :: slots.drop (pos + 1) := by
          rw [List.drop_eq_getElem_cons hlt, List.getD_eq_getElem slots 0 hlt]
        split
        · rw [swp_bind]
          apply swp_mono (ih (by omega) hnext) _ fun _ h => h
          rintro rest u₂ b₂ ⟨back₂, hend, hrest⟩
          refine ⟨fun hin => back (back₂ hin), hend, fun hin => ?_⟩
          rw [hdrop, List.map_cons, ← hrest hin, ← ha (back₂ hin)]
        · rename_i hcode
          have hdead : ¬u₁.token.inUse = true := by
            intro hin
            apply hcode
            rw [ha hin]
            apply hok
            rw [List.getD_eq_getElem slots 0 hlt]
            exact List.getElem_mem hlt
          exact ⟨fun hin => absurd hin hdead, ⟨hnext.serves, fun hin => absurd hin hdead⟩,
            fun hin => absurd hin hdead⟩
      · rename_i hlt
        obtain ⟨hend, ha⟩ := hask
        have hdrop : slots.drop pos = [] := List.drop_eq_nil_of_le (Nat.le_of_not_lt hlt)
        split
        · rename_i hcode
          -- an answer that is OK at the end of the snapshot: the token is gone
          have hdead : ¬u₁.token.inUse = true := fun hin => code_notAllowed (ha hin ▸ hcode)
          rw [swp_bind]
          have hany : Managed F s token (Stands k slots slots.length) u₁ b₁ :=
            ⟨hend.serves, fun hin => absurd hin hdead⟩
          apply swp_mono (ih (by omega) hany) _ fun _ h => h
          rintro rest u₂ b₂ ⟨back₂, hend₂, -⟩
          have hdead₂ : ¬u₂.token.inUse = true := fun hin => hdead (back₂ hin)
          exact ⟨fun hin => absurd hin hdead₂, hend₂, fun hin => absurd hin hdead₂⟩
        · refine ⟨back, hend, fun _ => ?_⟩
          rw [hdrop]
          rfl

/-- What the Begin of a kind answers, and where it leaves the iterator. -/
structure Opens (s : Shelf) (k : IterKind) (slots : List ℕ) (gen : ℕ) (o : Answer × IterState) :
    Prop where
  empty : slots = [] → o.1 = .status .noCredentials
  first : slots ≠ [] → o.1 = s.answer k (slots.headD 0) slots.length
  stands : slots ≠ [] → o.2.At k slots 1 ∧ o.2.gen = gen

theorem opens_rps (i : IterState) : Opens s .rps (s.rps.map Prod.fst) i.gen (s.rpsBegin i) := by
  have hlen : (s.rps.map Prod.fst).length = 0 ↔ s.rps.map Prod.fst = [] :=
    List.length_eq_zero_iff
  constructor
  · intro h
    rw [Shelf.rpsBegin, if_pos (hlen.mpr h)]
  · intro h
    rw [Shelf.rpsBegin, if_neg (mt hlen.mp h)]
    rfl
  · intro h
    rw [Shelf.rpsBegin, if_neg (mt hlen.mp h)]
    exact ⟨⟨rfl, rfl, rfl⟩, rfl⟩

theorem opens_creds (rpHash : Bytes) (i : IterState) :
    Opens s .creds ((s.creds rpHash).map Prod.fst) i.gen (s.credsBegin rpHash i) := by
  have hlen : ((s.creds rpHash).map Prod.fst).length = 0 ↔ (s.creds rpHash).map Prod.fst = [] :=
    List.length_eq_zero_iff
  constructor
  · intro h
    rw [Shelf.credsBegin, if_pos (hlen.mpr h)]
  · intro h
    rw [Shelf.credsBegin, if_neg (mt hlen.mp h)]
    rfl
  · intro h
    rw [Shelf.credsBegin, if_neg (mt hlen.mp h)]
    exact ⟨⟨rfl, rfl, rfl⟩, rfl⟩

/-- A Begin that the token authorises. -/
theorem swp_askBegin {k : IterKind} {slots : List ℕ} {q : CmReq} {sub : ℕ} (hsub : q.sub = some sub)
    (hbegin : sub ≠ subEnumRpsGetNext ∧ sub ≠ subEnumCredsGetNext)
    (hdel : sub ≠ subDeleteCredential)
    (hauth : u.token.inUse = true → q.Authorised F token sub)
    (hopens : ∀ t i, t.Manages token → Opens s k slots i.gen (s.sub t q sub i))
    (h : Managed F s token (fun _ => True) u b) (hC : ∀ b, C b) :
    swp (fidoBoard F) CalmBoard (ask F q)
      (fun a u' b' => (u'.token.inUse = true → u.token.inUse = true) ∧
        Managed F s token (fun u => slots ≠ [] → Stands k slots 1 u) u' b' ∧
        (u'.token.inUse = true → a = if slots = [] then .status .noCredentials
          else s.answer k (slots.headD 0) slots.length)) C u b := by
  apply swp_mono (swp_payload_calm h.serves hsub hdel hC) _ fun _ h => h
  rintro a u' b' ⟨hs', ho⟩
  have back : u'.token.inUse = true → u.token.inUse = true :=
    fun hin => (ho.token hin).inUse.symm.trans hin
  have went : u'.token.inUse = true → u.token.Manages token ∧
      Opens s k slots u.token.generation (a, u'.iter) := by
    intro hin
    obtain ⟨hman, -⟩ := h.live (back hin)
    have hgo : q.Goes F sub u := by
      refine ⟨hman.cm, ?_⟩
      rw [if_pos hbegin, hman.known]
      exact hauth (back hin)
    rw [ho.went hin hgo]
    have hgen : (u.iter.begun sub u.token.generation).gen = u.token.generation := by
      rw [IterState.begun, if_pos hbegin, IterState.keptFor]
      cases u.iter.kind <;> simp [IterState.reset, hbegin.1, hbegin.2]
    have hop := hopens u.token (u.iter.begun sub u.token.generation) hman
    rw [hgen] at hop
    exact ⟨hman, hop⟩
  refine ⟨back, ⟨hs', fun hin => ?_⟩, fun hin => ?_⟩
  · obtain ⟨hman, hop⟩ := went hin
    refine ⟨hman.goes (ho.token hin), fun hne => ?_⟩
    obtain ⟨hat, hgen⟩ := hop.stands hne
    refine ⟨hat, hgen.trans ?_⟩
    rcases ho.token hin with h | h <;> rw [h]
  · obtain ⟨-, hop⟩ := went hin
    split
    · rename_i hnil
      exact hop.empty hnil
    · rename_i hne
      exact hop.first hne

/-- A whole enumeration. -/
theorem swp_enumerate {k : IterKind} {slots : List ℕ} {q : CmReq} {sub next : ℕ}
    (hsub : q.sub = some sub)
    (hbegin : sub ≠ subEnumRpsGetNext ∧ sub ≠ subEnumCredsGetNext)
    (hdel : sub ≠ subDeleteCredential)
    (hnext : k.nextSub = some next) (hauth : u.token.inUse = true → q.Authorised F token sub)
    (hopens : ∀ t i, t.Manages token → Opens s k slots i.gen (s.sub t q sub i))
    (hok : ∀ slot ∈ slots, ∀ total, (s.answer k slot total).code = Status.ok.code) {turns : ℕ}
    (hturns : slots.length ≤ turns) (h : Managed F s token (fun _ => True) u b) (hC : ∀ b, C b) :
    swp (fidoBoard F) CalmBoard (enumerate F q (cmGetNext next) turns)
      (fun as u' b' => (u'.token.inUse = true → u.token.inUse = true) ∧
        Managed F s token (fun _ => True) u' b' ∧
        (u'.token.inUse = true → as = s.announces k slots)) C u b := by
  rw [enumerate, swp_bind]
  apply swp_mono (swp_askBegin hsub hbegin hdel hauth hopens h hC) _ fun _ h => h
  rintro a u₁ b₁ ⟨back, hman, ha⟩
  have hend : Managed F s token (fun _ => True) u₁ b₁ :=
    ⟨hman.serves, fun hin => ⟨(hman.live hin).1, trivial⟩⟩
  cases hslots : slots with
  | nil =>
      rw [hslots, if_pos rfl] at ha
      split
      · rename_i hcode
        have hdead : ¬u₁.token.inUse = true := fun hin => absurd (ha hin ▸ hcode) (by decide)
        have hany : Managed F s token (Stands k [] 0) u₁ b₁ :=
          ⟨hend.serves, fun hin => absurd hin hdead⟩
        rw [swp_bind]
        apply swp_mono (swp_askRest hnext (fun _ hmem => absurd hmem List.not_mem_nil) hC
          (by simp) hany) _ fun _ h => h
        rintro rest u₂ b₂ ⟨back₂, hend₂, -⟩
        have hdead₂ : ¬u₂.token.inUse = true := fun hin => hdead (back₂ hin)
        exact ⟨fun hin => absurd hin hdead₂, hend₂, fun hin => absurd hin hdead₂⟩
      · exact ⟨back, hend, fun _ => rfl⟩
  | cons slot rest =>
      have hne : slots ≠ [] := by simp [hslots]
      rw [if_neg hne] at ha
      have hstands : Managed F s token (Stands k slots 1) u₁ b₁ :=
        ⟨hman.serves, fun hin => ⟨(hman.live hin).1, (hman.live hin).2 hne⟩⟩
      split
      · rw [swp_bind]
        apply swp_mono (swp_askRest hnext (fun x hx => hok x hx 0) hC (by omega) hstands) _
          fun _ h => h
        rintro as u₂ b₂ ⟨back₂, hend₂, has⟩
        refine ⟨fun hin => back (back₂ hin), hend₂, fun hin => ?_⟩
        rw [has hin, ha (back₂ hin), hslots]
        rfl
      · rename_i hcode
        have hdead : ¬u₁.token.inUse = true := by
          intro hin
          apply hcode
          rw [ha hin, hslots]
          exact hok slot (hslots ▸ List.mem_cons_self) _
        exact ⟨fun hin => absurd hin hdead, hend, fun hin => absurd hin hdead⟩

end Enumerate

/-! ### The whole store -/

section Store

variable {F : FidoPrims} {s : Shelf} {token : Bytes} {u : FidoRam} {b : Board Note}
  {C : Board Note → Prop}

theorem authorised_of {sub : ℕ} {params : Bytes} {rpHash : Except Status Bytes}
    (h : params.length ≤ cmParamsMax) :
    (cmAuthorised F token sub params rpHash).Authorised F token sub := ⟨rfl, h, rfl⟩

theorem rpHashParams_length {h : Bytes} (hlen : h.length ≤ 32) :
    (rpHashParams h).length ≤ cmParamsMax := by
  have hmap := putHead_length 5 1
  have hkey := putHead_length 0 1
  have hbytes := cborByteString_length h
  show List.length (_ ++ _ ++ _) ≤ 512
  simp only [cborMapHeader, cborUint, List.length_append]
  omega

theorem Token.Manages.rpMatches {t : Token} (h : t.Manages token) (rpHash : Bytes) :
    t.rpMatches rpHash = true := by
  have hin : t.inUse = true := by
    have hcm := h.cm
    rw [Token.hasPerm, Bool.and_eq_true, Bool.and_eq_true] at hcm
    exact hcm.1.1
  have hrp := h.rp
  rw [Token.rpBound, hin, Bool.true_and] at hrp
  rw [Token.rpMatches, hrp]
  rfl

variable (hsound : s.Sound)
include hsound

theorem rps_ok : ∀ slot ∈ s.rps.map Prod.fst, ∀ total,
    (s.answer .rps slot total).code = Status.ok.code := by
  intro slot hslot total
  obtain ⟨e, he, rfl⟩ := List.mem_map.mp hslot
  show (s.rpAnswer e.1 total).code = _
  rw [hsound.rpAnswer (Shelf.mem_rps he)]
  rfl

variable (hread : s.Readable)
include hread

theorem creds_ok (rpHash : Bytes) : ∀ slot ∈ (s.creds rpHash).map Prod.fst, ∀ total,
    (s.answer .creds slot total).code = Status.ok.code := by
  intro slot hslot total
  obtain ⟨e, he, rfl⟩ := List.mem_map.mp hslot
  have hr := (Shelf.mem_creds.mp he).1
  obtain ⟨m, cose, hm, hcose, -⟩ := hread.entry (Shelf.mem_allocated_of_read hr)
  show (s.credAnswer e.1 total).code = _
  rw [hsound.credAnswer hm hcose]
  rfl

variable {turns : ℕ} (hturns : fidoSlotsMax ≤ turns) (hC : ∀ b, C b)
include hturns hC

omit hread in
theorem swp_enumerateRps (h : Managed F s token (fun _ => True) u b) :
    swp (fidoBoard F) CalmBoard (enumerateRps F token turns)
      (fun as u' b' => (u'.token.inUse = true → u.token.inUse = true) ∧
        Managed F s token (fun _ => True) u' b' ∧
        (u'.token.inUse = true → as = s.announces .rps (s.rps.map Prod.fst))) C u b := by
  apply swp_enumerate (k := .rps) rfl ⟨by decide, by decide⟩ (by decide) rfl
    (fun _ => authorised_of (by decide)) _ (rps_ok hsound) _ h hC
  · intro t i hman
    have hsub : ∀ q, s.sub t q subEnumRpsBegin i = s.rpsBegin i := by
      intro q
      show (if t.rpBound = true then _ else _) = _
      rw [if_neg (by simp [hman.rp])]
    rw [hsub]
    exact opens_rps i
  · rw [List.length_map]
    exact (Lists.length_firsts_le _ _).trans (s.length_entries_le.trans hturns)

theorem swp_enumerateCreds {rpHash : Bytes} (hlen : u.token.inUse = true → rpHash.length ≤ 32)
    (h : Managed F s token (fun _ => True) u b) :
    swp (fidoBoard F) CalmBoard (enumerateCreds F token turns rpHash)
      (fun as u' b' => (u'.token.inUse = true → u.token.inUse = true) ∧
        Managed F s token (fun _ => True) u' b' ∧
        (u'.token.inUse = true →
          as = s.announces .creds ((s.creds rpHash).map Prod.fst))) C u b := by
  apply swp_enumerate (k := .creds) rfl ⟨by decide, by decide⟩ (by decide) rfl
    (fun hin => authorised_of (rpHashParams_length (hlen hin))) _
    (creds_ok hsound hread rpHash) _ h hC
  · intro t i hman
    have hsub : s.sub t (cmAuthorised F token subEnumCredsBegin (rpHashParams rpHash) (.ok rpHash))
        subEnumCredsBegin i = s.credsBegin rpHash i := by
      show (if t.rpMatches rpHash = true then _ else _) = _
      rw [if_pos (hman.rpMatches rpHash)]
    rw [hsub]
    exact opens_creds rpHash i
  · rw [List.length_map]
    exact (List.length_filter_le _ _).trans (s.length_entries_le.trans hturns)

theorem swp_enumerateEach {hashes : List Bytes} {u : FidoRam} {b : Board Note}
    (hlen : u.token.inUse = true → ∀ h ∈ hashes, h.length ≤ 32)
    (h : Managed F s token (fun _ => True) u b) :
    swp (fidoBoard F) CalmBoard (enumerateEach F token turns hashes)
      (fun gs u' b' => (u'.token.inUse = true → u.token.inUse = true) ∧
        Managed F s token (fun _ => True) u' b' ∧
        (u'.token.inUse = true → gs = hashes.map fun h =>
          (h, s.announces .creds ((s.creds h).map Prod.fst)))) C u b := by
  induction hashes generalizing u b with
  | nil => exact ⟨id, h, fun _ => rfl⟩
  | cons rpHash rest ih =>
      rw [enumerateEach, swp_bind]
      apply swp_mono (swp_enumerateCreds hsound hread hturns hC
        (fun hin => hlen hin rpHash List.mem_cons_self) h) _ fun _ h => h
      rintro as u₁ b₁ ⟨back₁, h₁, has⟩
      rw [swp_bind]
      apply swp_mono (ih (fun hin h hmem =>
        hlen (back₁ hin) h (List.mem_cons_of_mem _ hmem)) h₁) _ fun _ h => h
      rintro gs u₂ b₂ ⟨back₂, h₂, hgs⟩
      refine ⟨fun hin => back₁ (back₂ hin), h₂, fun hin => ?_⟩
      show (rpHash, as) :: gs = _
      rw [has (back₂ hin), hgs hin]
      rfl

end Store

/-! ### What the platform was told -/

/-- The listing of a shelf. -/
def Shelf.listing (s : Shelf) : Listing where
  metadata := .credsMetadata s.allocated.length (fidoSlotsMax - s.allocated.length)
  rps := s.announces .rps (s.rps.map Prod.fst)
  creds := ((s.announces .rps (s.rps.map Prod.fst)).filterMap Answer.rpHash?).map fun h =>
    (h, s.announces .creds ((s.creds h).map Prod.fst))

section Told

variable {s : Shelf}

/-- What does not depend on the total is the same for every entry. -/
theorem announces_map {β : Type} {k : IterKind} {φ : Answer → β} {g : ℕ × SlotMeta → β}
    {es : List (ℕ × SlotMeta)} (h : ∀ e ∈ es, ∀ total, φ (s.answer k e.1 total) = g e) :
    (s.announces k (es.map Prod.fst)).map φ = es.map g := by
  cases es with
  | nil => rfl
  | cons e rest =>
      rw [List.map_cons, Shelf.announces, List.map_cons, List.map_cons, h e List.mem_cons_self,
        List.map_map, List.map_map]
      congr 1
      apply List.map_congr_left
      intro x hx
      exact h x (List.mem_cons_of_mem _ hx) 0

/-- The first entry carries the number of entries. -/
theorem announced_announces {k : IterKind} {es : List (ℕ × SlotMeta)}
    (h : ∀ e ∈ es, ∀ n, (s.answer k e.1 (n + 1)).total? = some (n + 1)) :
    announced (s.announces k (es.map Prod.fst)) = es.length := by
  cases es with
  | nil => rfl
  | cons e rest =>
      show (Answer.total? (s.answer k e.1 _)).getD 0 = rest.length + 1
      rw [h e List.mem_cons_self, List.length_map]
      rfl

theorem announces_length (k : IterKind) (slots : List ℕ) :
    (s.announces k slots).length = slots.length := by
  cases slots with
  | nil => rfl
  | cons slot rest => simp [Shelf.announces]

theorem mem_announces {k : IterKind} {slots : List ℕ} {a : Answer} (ha : a ∈ s.announces k slots) :
    ∃ slot ∈ slots, ∃ total ≤ slots.length, a = s.answer k slot total := by
  cases slots with
  | nil => cases ha
  | cons slot rest =>
      rcases List.mem_cons.mp ha with rfl | ha
      · exact ⟨slot, List.mem_cons_self, _, Nat.le_refl _, rfl⟩
      · obtain ⟨x, hx, rfl⟩ := List.mem_map.mp ha
        exact ⟨x, List.mem_cons_of_mem _ hx, 0, Nat.zero_le _, rfl⟩

variable (hsound : s.Sound)
include hsound

theorem told_rps : (s.announces .rps (s.rps.map Prod.fst)).map Answer.rpHash? =
    s.rps.map fun e => some e.2.rpIdHash := by
  apply announces_map
  intro e he total
  show Answer.rpHash? (s.rpAnswer e.1 total) = _
  rw [hsound.rpAnswer (Shelf.mem_rps he)]
  rfl

theorem told_hashes : (s.announces .rps (s.rps.map Prod.fst)).filterMap Answer.rpHash? =
    s.rps.map fun e => e.2.rpIdHash := by
  have hmap := congrArg (List.filterMap id) (told_rps hsound)
  rw [List.filterMap_map, List.filterMap_map] at hmap
  refine hmap.trans ?_
  exact List.filterMap_eq_map_iff_forall_eq_some.mpr fun _ _ => rfl

variable (hread : s.Readable)
include hread

theorem Shelf.mem_creds_credential {h : Bytes} {e : ℕ × SlotMeta} (he : e ∈ s.creds h) :
    ∃ cose, s.credential e.1 = some (credentialOf e.1 e.2 cose) ∧ e.2.rpIdHash = h ∧
      ∀ total, s.answer .creds e.1 total = .credEntry (credentialOf e.1 e.2 cose).userId
        (credentialOf e.1 e.2 cose).credId cose total := by
  obtain ⟨hr, hh⟩ := Shelf.mem_creds.mp he
  obtain ⟨m, cose, hm, hcose, hc⟩ := hread.entry (Shelf.mem_allocated_of_read hr)
  obtain rfl : e.2 = m := by
    rw [hr] at hm
    cases hm
    rfl
  exact ⟨cose, hc, hh, fun total => hsound.credAnswer hr hcose total⟩

theorem told_creds (h : Bytes) :
    (s.announces .creds ((s.creds h).map Prod.fst)).map (Answer.credential? h) =
      (s.creds h).map fun e => s.credential e.1 := by
  apply announces_map
  intro e he total
  obtain ⟨cose, hc, hh, ha⟩ := Shelf.mem_creds_credential hsound hread he
  rw [ha, hc, ← hh]
  rfl

theorem told_credTotal (h : Bytes) :
    announced (s.announces .creds ((s.creds h).map Prod.fst)) = (s.creds h).length := by
  apply announced_announces
  intro e he n
  obtain ⟨cose, -, -, ha⟩ := Shelf.mem_creds_credential hsound hread he
  rw [ha]
  rfl

/-- The listing of a store that reads correctly is exact. -/
theorem listing_of_readable : Exact s s.listing := by
  have hcover : ((s.rps.map fun e => e.2.rpIdHash).flatMap s.creds).Perm s.entries :=
    Lists.firsts_groups_perm (fun e : ℕ × SlotMeta => e.2.rpIdHash) s.entries
  have hcreds : s.listing.creds = (s.rps.map fun e => e.2.rpIdHash).map fun h =>
      (h, s.announces .creds ((s.creds h).map Prod.fst)) := by
    rw [← told_hashes hsound]
    rfl
  constructor
  · rw [hcreds, List.flatMap_map]
    simp only [told_creds hsound hread]
    rw [← List.map_flatMap, ← hread.entries_slots, List.map_map]
    exact hcover.map _
  · rw [hcreds, List.map_map, ← told_hashes hsound]
    exact List.map_id _
  · show ((s.announces .rps (s.rps.map Prod.fst)).map Answer.rpHash?).Nodup
    rw [told_rps hsound]
    have hnodup := (Lists.nodup_firsts (fun e : ℕ × SlotMeta => e.2.rpIdHash) s.entries).map
      (Option.some_injective Bytes)
    rwa [List.map_map] at hnodup
  · intro h
    show h ∈ (s.announces .rps (s.rps.map Prod.fst)).map Answer.rpHash? ↔ _
    rw [told_rps hsound]
    have hkeys : ∀ k, k ∈ s.rps.map (fun e => e.2.rpIdHash) ↔
        k ∈ s.entries.map fun e => e.2.rpIdHash :=
      Lists.keys_firsts (fun e : ℕ × SlotMeta => e.2.rpIdHash) s.entries
    constructor
    · intro hmem
      obtain ⟨e, he, rfl⟩ := List.mem_map.mp hmem
      have hr := Shelf.mem_rps he
      obtain ⟨m, cose, hm, -, hc⟩ := hread.entry (Shelf.mem_allocated_of_read hr)
      rw [hr] at hm
      cases hm
      exact ⟨e.1, Shelf.mem_allocated_of_read hr, by rw [hc]; rfl⟩
    · rintro ⟨i, hi, rfl⟩
      obtain ⟨m, cose, hm, -, hc⟩ := hread.entry hi
      have he : ((i, m) : ℕ × SlotMeta) ∈ s.entries := Shelf.mem_entries.mpr hm
      have hkey := (hkeys m.rpIdHash).mpr (List.mem_map_of_mem (f := fun e => e.2.rpIdHash) he)
      obtain ⟨e, hmem, heq⟩ := List.mem_map.mp hkey
      rw [hc]
      exact List.mem_map.mpr ⟨e, hmem, congrArg some heq⟩
  · show announced (s.announces .rps (s.rps.map Prod.fst)) =
      (s.announces .rps (s.rps.map Prod.fst)).length
    rw [announces_length, List.length_map]
    apply announced_announces
    intro e he n
    show (s.rpAnswer e.1 (n + 1)).total? = _
    rw [hsound.rpAnswer (Shelf.mem_rps he)]
    rfl
  · intro g hg
    rw [hcreds] at hg
    obtain ⟨h, -, rfl⟩ := List.mem_map.mp hg
    show announced (s.announces .creds _) = (s.announces .creds _).length
    rw [told_credTotal hsound hread, announces_length, List.length_map]
  · rw [hcreds, List.map_map, ← hread.entries_slots, List.length_map, ← hcover.length_eq,
      List.length_flatMap]
    congr 1
    apply List.map_congr_left
    intro h _
    exact told_credTotal hsound hread h
  · rfl

omit hread in
theorem rps_read {slot total : ℕ} (hslot : slot ∈ s.rps.map Prod.fst) (ht : total < 2 ^ 64) :
    hostReads (s.answer .rps slot total).body = some (s.answer .rps slot total) := by
  obtain ⟨e, he, rfl⟩ := List.mem_map.mp hslot
  have hr := Shelf.mem_rps he
  show hostReads (s.rpAnswer e.1 total).body = some (s.rpAnswer e.1 total)
  rw [hsound.rpAnswer hr]
  have hlen := (hsound.sized _ _ (Shelf.read_lt hr).2.2).rpIdHash
  exact rpEntry_read (by omega) ht

theorem creds_read {h : Bytes} {slot total : ℕ} (hslot : slot ∈ (s.creds h).map Prod.fst)
    (ht : total < 2 ^ 64) :
    hostReads (s.answer .creds slot total).body = some (s.answer .creds slot total) := by
  obtain ⟨e, he, rfl⟩ := List.mem_map.mp hslot
  obtain ⟨m, cose, hm, hcose, -⟩ := hread.entry
    (Shelf.mem_allocated_of_read (Shelf.mem_creds.mp he).1)
  have hsized := hsound.sized _ _ (Shelf.read_lt hm).2.2
  have hid : (makeCredId e.1 m.nonce).length ≤ slotsCredIdLen := makeCredId_length hsized
  have huser : (credentialOf e.1 m cose).userId.length ≤ userIdMax := by
    rw [credentialOf]
    dsimp only
    split
    · exact hsized.userHandle
    · exact hid.trans (by decide)
  simp only [slotsCredIdLen, userIdMax] at hid huser
  obtain ⟨pub, -, hcose'⟩ := Option.bind_eq_some_iff.mp hcose
  obtain ⟨alg, -, hcose'⟩ := Option.bind_eq_some_iff.mp hcose'
  obtain ⟨key, rfl, hkey, hdepth⟩ := coseWritePubkey_item hcose'
  show hostReads (s.credAnswer e.1 total).body = some (s.credAnswer e.1 total)
  rw [hsound.credAnswer hm hcose]
  exact credEntry_read (by omega) (show (makeCredId e.1 m.nonce).length < 2 ^ 64 by omega) hkey
    hdepth ht

/-- A host decodes every answer of the listing to what it is. -/
theorem listing_read {a : Answer} (ha : a ∈ s.listing.answers) : hostReads a.body = some a := by
  have hentries : s.entries.length ≤ 29 := s.length_entries_le
  rcases List.mem_append.mp ha with ha | ha
  · rcases List.mem_cons.mp ha with rfl | ha
    · have hused : s.allocated.length ≤ 29 := by
        rw [← hread.entries_slots, List.length_map]
        exact hentries
      exact credsMetadata_read (by omega) (show 29 - s.allocated.length < 2 ^ 64 by omega)
    · obtain ⟨slot, hslot, total, ht, rfl⟩ := mem_announces ha
      have hrps : s.rps.length ≤ s.entries.length := Lists.length_firsts_le _ _
      rw [List.length_map] at ht
      exact rps_read hsound hslot (by omega)
  · obtain ⟨g, hg, ha⟩ := List.mem_flatMap.mp ha
    obtain ⟨h, -, rfl⟩ := List.mem_map.mp hg
    obtain ⟨slot, hslot, total, ht, rfl⟩ := mem_announces ha
    have hcreds : (s.creds h).length ≤ s.entries.length := List.length_filter_le _ _
    rw [List.length_map] at ht
    exact creds_read hsound hread hslot (by omega)

end Told

/-! ### From every state of the device -/

theorem swp_listStore {F : FidoPrims} {s : Shelf} {token : Bytes} {u : FidoRam} {b : Board Note}
    {C : Board Note → Prop} (hsound : s.Sound) (hread : s.Readable) {turns : ℕ}
    (hturns : fidoSlotsMax ≤ turns) (hC : ∀ b, C b) (h : Managed F s token (fun _ => True) u b) :
    swp (fidoBoard F) CalmBoard (listStore F token turns)
      (fun l u' _ => u'.token.inUse = true → l = s.listing) C u b := by
  rw [listStore, swp_bind]
  apply swp_mono (swp_payload_calm h.serves rfl (by decide) hC) _ fun _ h => h
  rintro metadata u₁ b₁ ⟨hs₁, ho⟩
  have back₁ : u₁.token.inUse = true → u.token.inUse = true :=
    fun hin => (ho.token hin).inUse.symm.trans hin
  have h₁ : Managed F s token (fun _ => True) u₁ b₁ :=
    ⟨hs₁, fun hin => ⟨(h.live (back₁ hin)).1.goes (ho.token hin), trivial⟩⟩
  have hmeta : u₁.token.inUse = true →
      metadata = .credsMetadata s.allocated.length (fidoSlotsMax - s.allocated.length) := by
    intro hin
    obtain ⟨hman, -⟩ := h.live (back₁ hin)
    have hgo : (cmAuthorised F token subGetCredsMetadata [] (.error .missingParameter)).Goes F
        subGetCredsMetadata u := by
      refine ⟨hman.cm, ?_⟩
      rw [if_pos ⟨by decide, by decide⟩, hman.known]
      exact authorised_of (by decide)
    have hwent := congrArg Prod.fst (ho.went hin hgo)
    rw [← hsound.countUsed]
    refine hwent.trans ?_
    show (if u.token.rpBound = true then _ else _) = _
    rw [if_neg (by simp [hman.rp])]
    exact credsMetadata_fitted _ _
  rw [swp_bind]
  apply swp_mono (swp_enumerateRps hsound hturns hC h₁) _ fun _ h => h
  rintro rps u₂ b₂ ⟨back₂, h₂, hrps⟩
  rw [swp_bind]
  have hlen : u₂.token.inUse = true → ∀ x ∈ rps.filterMap Answer.rpHash?, x.length ≤ 32 := by
    intro hin
    rw [hrps hin, told_hashes hsound]
    intro x hx
    obtain ⟨e, he, rfl⟩ := List.mem_map.mp hx
    exact (hsound.sized _ _ (Shelf.read_lt (Shelf.mem_rps he)).2.2).rpIdHash
  apply swp_mono (swp_enumerateEach hsound hread hturns hC hlen h₂) _ fun _ h => h
  rintro gs u₃ b₃ ⟨back₃, -, hgs⟩ hin
  show (⟨metadata, rps, gs⟩ : Listing) = s.listing
  rw [hgs hin, hrps (back₃ hin), hmeta (back₂ (back₃ hin))]
  rfl

/-- The platform is told the store, and decodes what it is told from the bodies of the
answers. -/
structure Told (s : Shelf) (l : Listing) : Prop where
  exact : Exact s l
  decoded : ∀ a ∈ l.answers, hostReads a.body = some a

/-- In every state that a run reaches, cut and failing calls included, in which
all metadata and public keys read correctly: a platform that holds a token with
cm, bound to no RP, is told exactly what the store holds, as long as nothing
happens to the calls and the token is still in use at the end. It is, unless the
listing takes longer than the token has left. -/
theorem listing_exact (F : FidoPrims) (b : Board Note) (acts : List Action) {u : FidoRam}
    (hon : ((device F b).run acts).ram = some u) (hready : u.ready = true)
    (hread : (shelf F u ((device F b).run acts).board).Readable)
    (hcm : u.token.hasPerm puatPermCm = true) (hrp : u.token.rpBound = false) {turns : ℕ}
    (hturns : fidoSlotsMax ≤ turns) {fs : List BoardFate} (hfs : ∀ f ∈ fs, CalmBoard f) :
    ∃ l u' b', run (fidoBoard F) ((listStore F u.token.token turns).run u) fs
        ((device F b).run acts).board = .done (l, u') b' ∧
      (tickDiff (((device F b).run acts).board.now % 2 ^ 32) u.token.issuedMs +
        (b'.now - ((device F b).run acts).board.now) ≤ u.token.lifeMs → u'.token.inUse = true) ∧
      (u'.token.inUse = true → Told (shelf F u ((device F b).run acts).board) l) := by
  have hsound : (shelf F u ((device F b).run acts).board).Sound :=
    sound_shelf (fits_run F b acts hon)
  revert hread hsound
  generalize ((device F b).run acts).board = b₀
  intro hread hsound
  have husable : u.slotsUsable = true := by
    rw [FidoRam.ready, Bool.and_eq_true, Bool.and_eq_true] at hready
    exact hready.1.2
  have hin : u.token.inUse = true := by
    rw [Token.hasPerm, Bool.and_eq_true, Bool.and_eq_true] at hcm
    exact hcm.1.1
  have h : Managed F (shelf F u b₀) u.token.token (fun _ => True) u b₀ :=
    ⟨⟨⟨husable, rfl⟩, hready⟩, fun _ => ⟨⟨rfl, hcm, hrp⟩, trivial⟩⟩
  have hswp := swp_and (swp_listStore hsound hread hturns (fun _ => trivial) h)
    (swp_uncut (fun _ hf => calm_uncut (P := F.chip) (K := F.key) hf)
      (listStore F u.token.token turns) u b₀)
  have hrun := run_of_swp calm_quiet hswp hfs
  cases hout : run (fidoBoard F) ((listStore F u.token.token turns).run u) fs b₀ with
  | cut b' =>
      rw [hout] at hrun
      exact hrun.2.elim
  | done x b' =>
      rw [hout] at hrun
      refine ⟨x.1, x.2, b', rfl, fun hage => ?_, fun hlive => ?_⟩
      · have hlasts : LastsTo b'.now u b₀ := fun _ => Token.lasts_of_age hin hage
        have hend := run_of_swp calm_quiet (keeps_listStore F u.token.token turns
          (fun q => lasting_credentialMgmt (.ok q) true) u b₀ hlasts) hfs
        rw [hout] at hend
        have hend : LastsTo b'.now x.2 b' := hend
        exact (hend (Nat.le_refl _)).inUse
      · rw [hrun.1 hlive]
        exact ⟨listing_of_readable hsound hread, fun a ha => listing_read hsound hread ha⟩

/-- The variables of the device that holds two passkeys of two RPs. -/
def demoRam : FidoRam := ((device mixFido blankBoard).run demoManaged).ram.getD .boot

/-- The time when a listing is through. -/
def endsAt {α : Type} : Crash.Outcome (α × FidoRam) (Board Note) → ℕ
  | .done _ b => b.now
  | .cut b => b.now

theorem listing_exact_demo : ∃ l u' b',
    run (fidoBoard mixFido) ((listStore mixFido demoRam.token.token fidoSlotsMax).run demoRam) []
        ((device mixFido blankBoard).run demoManaged).board = .done (l, u') b' ∧
      Told (shelf mixFido demoRam ((device mixFido blankBoard).run demoManaged).board) l := by
  have hdemo : ((device mixFido blankBoard).run demoManaged).ram = some demoRam ∧
      demoRam.ready = true ∧
      (shelf mixFido demoRam ((device mixFido blankBoard).run demoManaged).board).Readable ∧
      demoRam.token.hasPerm puatPermCm = true ∧ demoRam.token.rpBound = false ∧
      tickDiff (((device mixFido blankBoard).run demoManaged).board.now % 2 ^ 32)
          demoRam.token.issuedMs +
        (endsAt (run (fidoBoard mixFido)
          ((listStore mixFido demoRam.token.token fidoSlotsMax).run demoRam) []
          ((device mixFido blankBoard).run demoManaged).board) -
          ((device mixFido blankBoard).run demoManaged).board.now) ≤ demoRam.token.lifeMs := by
    unfold Shelf.Readable
    decide +kernel
  obtain ⟨hon, hready, hread, hcm, hrp, hage⟩ := hdemo
  have hcalm : ∀ f ∈ ([] : List BoardFate), CalmBoard f := nofun
  obtain ⟨l, u', b', hrun, hlives, htold⟩ := listing_exact mixFido blankBoard demoManaged hon hready
    hread hcm hrp (Nat.le_refl _) hcalm
  rw [hrun] at hage
  exact ⟨l, u', b', hrun, htold (hlives hage)⟩

end Nixtropic.Fido
