import Nixtropic.Tropic.Chip
import Mathlib.Algebra.Ring.Int.Defs

/-!
The readers of `cbor.c`: `cbor_reader_t`, its typed reads, `cbor_reader_skip` and
`cbor_validate`.

A `size_t` has 32 bits, and sums of positions are written modulo that. An index
at or beyond `len` is an outcome of its own, so that it can be shown not to
happen. The two walkers recurse on the levels that are left, and their loops
are `times`.
-/

namespace Nixtropic.Fido

/-- `SIZE_MAX` -/
def sizeMax : ℕ := 2 ^ 32 - 1

/-- What a `size_t` keeps of a number. -/
def sz (n : ℕ) : ℕ := n % 2 ^ 32

/-- A byte string of the machine. It and the 16 bytes of the reader (or writer) that walks it
are two objects of one address space of 2^32 bytes. -/
structure Buffer where
  bytes : Bytes
  apart : bytes.length + 16 ≤ 2 ^ 32

/-- `cbor_reader_t`; `len` is the length of `buf`. -/
structure Reader where
  buf : Bytes
  pos : ℕ
  err : Bool
  deriving DecidableEq, Repr

def Reader.len (r : Reader) : ℕ := r.buf.length

/-- `cbor_reader_init` -/
def cborReaderInit (buf : Bytes) : Reader := ⟨buf, 0, false⟩

/-- How a call on a reader ends: it returns a value, it returns an error, or it has read
outside the buffer. -/
inductive Out (ε α : Type) where
  | ok (a : α) (r : Reader)
  | fail (e : ε) (r : Reader)
  | fault
  deriving DecidableEq, Repr

/-- Code that works on a reader. -/
def Rd (ε α : Type) : Type := Reader → Out ε α

namespace Rd

variable {ε α β : Type}

/-- A call, and what follows it unless it failed: `if (f(r) < 0) return -1;`. -/
protected def bind (f : Rd ε α) (g : α → Rd ε β) : Rd ε β := fun r =>
  match f r with
  | .ok a r => g a r
  | .fail e r => .fail e r
  | .fault => .fault

instance : Monad (Rd ε) where
  pure a := fun r => .ok a r
  bind := Rd.bind

def reader : Rd ε Reader := fun r => .ok r r

def setPos (pos : ℕ) : Rd ε Unit := fun r => .ok () { r with pos := pos }

def throw (e : ε) : Rd ε α := fun r => .fail e r

/-- `for (i = 0; i < n; ++i) f(r)` -/
def times (f : Rd ε Unit) : ℕ → Rd ε Unit
  | 0 => pure ()
  | n + 1 => do
      f
      times f n

end Rd

open Rd

variable {ε : Type}

/-- `r->buf[i]` -/
def bufAt (i : ℕ) : Rd ε UInt8 := fun r =>
  match r.buf[i]? with
  | some b => .ok b r
  | none => .fault

/-- `r->err = 1; return -1;` -/
def refuse {α : Type} : Rd Unit α := fun r => .fail () { r with err := true }

/-- `cbor_reader_peek_major`; `none` is -1. -/
def cborReaderPeekMajor : Rd ε (Option ℕ) := do
  let r ← reader
  if r.len ≤ r.pos then pure none
  else do
    let b ← bufAt r.pos
    pure (some ((b >>> 5) &&& 7).toNat)

/-- The bytes `buf[i]` to `buf[i + n - 1]` shifted into `v`, one by one. -/
def gather : ℕ → ℕ → ℕ → Rd Unit ℕ
  | 0, _, v => pure v
  | n + 1, i, v => do
      let b ← bufAt (sz i)
      gather n (i + 1) ((v <<< 8) ||| b.toNat)

/-- The argument in the `n` bytes after the initial one. -/
def readArgument (n : ℕ) : Rd Unit ℕ := do
  let r ← reader
  if r.len < sz (r.pos + n) then refuse
  else do
    let v ← gather n r.pos 0
    setPos (sz (r.pos + n))
    pure v

/-- The branches of `cbor_reader_read_head` on the additional information. -/
def readInfo (ai : ℕ) : Rd Unit ℕ :=
  if ai < 24 then pure ai
  else if ai = 24 then readArgument 1
  else if ai = 25 then readArgument 2
  else if ai = 26 then readArgument 4
  else if ai = 27 then do
    let v ← readArgument 8
    if sizeMax < v then refuse else pure v
  else refuse

/-- `cbor_reader_read_head`: the major type and the value. -/
def cborReaderReadHead : Rd Unit (ℕ × ℕ) := do
  let r ← reader
  if r.err then throw ()
  else if r.len ≤ r.pos then refuse
  else do
    let ib ← bufAt r.pos
    setPos (sz (r.pos + 1))
    let v ← readInfo (ib &&& 0x1f).toNat
    pure (((ib >>> 5) &&& 7).toNat, v)

/-- The value of a head of major type `want`. -/
def readTyped (want : ℕ) : Rd Unit ℕ := do
  let (mt, v) ← cborReaderReadHead
  if mt ≠ want then refuse else pure v

/-- `cbor_reader_read_uint` -/
def cborReaderReadUint : Rd Unit ℕ := readTyped 0

/-- `r->len - r->pos`, as a `size_t`. -/
def bytesLeft : Rd ε ℕ := do
  let r ← reader
  pure (sz (r.len + 2 ^ 32 - r.pos))

/-- A pointer into the buffer and a number of bytes. -/
structure Span where
  off : ℕ
  len : ℕ
  deriving DecidableEq, Repr

/-- The bytes it points to. -/
def Span.of (s : Span) (buf : Bytes) : Bytes := (buf.drop s.off).take s.len

/-- The next `v` bytes. -/
def takeRun (v : ℕ) : Rd Unit Span := do
  let left ← bytesLeft
  if left < v then refuse
  else do
    let r ← reader
    setPos (sz (r.pos + sz v))
    pure ⟨r.pos, sz v⟩

/-- `read_byte_run` -/
def readByteRun (want : ℕ) : Rd Unit Span := do
  let v ← readTyped want
  takeRun v

/-- `cbor_reader_read_bytes` -/
def cborReaderReadBytes : Rd Unit Span := readByteRun 2

/-- `cbor_reader_read_text` -/
def cborReaderReadText : Rd Unit Span := readByteRun 3

/-- The count of a head of major type `want`, cast to `size_t`. -/
def readCount (want : ℕ) : Rd Unit ℕ := do
  let v ← readTyped want
  pure (sz v)

/-- `cbor_reader_read_array_header` -/
def cborReaderReadArrayHeader : Rd Unit ℕ := readCount 4

/-- `cbor_reader_read_map_header` -/
def cborReaderReadMapHeader : Rd Unit ℕ := readCount 5

/-! ### The two walkers -/

def skipRun (v : ℕ) : Rd Unit Unit := do
  let _ ← takeRun v
  pure ()

/-- `CBOR_SKIP_MAX_DEPTH` -/
def cborSkipMaxDepth : ℕ := 16

/-- `skip_item`, where `item` skips an item inside this one. -/
def skipBody (item : Rd Unit Unit) : Rd Unit Unit := do
  let (mt, v) ← cborReaderReadHead
  match mt with
  | 0 => pure ()
  | 1 => pure ()
  | 2 => skipRun v
  | 3 => skipRun v
  | 4 => times item v
  | 5 => times (do item; item) v
  | 7 => pure ()
  | _ => refuse

/-- `skip_item`, with `CBOR_SKIP_MAX_DEPTH + 1 - depth` levels left. -/
def skipItem : ℕ → Rd Unit Unit
  | 0 => refuse
  | left + 1 => skipBody (skipItem left)

/-- `cbor_reader_skip` -/
def cborReaderSkip : Rd Unit Unit := skipItem (cborSkipMaxDepth + 1)

/-- `CBOR_MAX_DEPTH` -/
def cborMaxDepth : ℕ := 4

/-- `validate_item`, where `items v n` walks the `n` items of an array or map whose head says
`v`. -/
def validateBody (items : ℕ → ℕ → Rd Unit Unit) : Rd Unit Unit := do
  let (mt, v) ← cborReaderReadHead
  match mt with
  | 0 => pure ()
  | 1 => pure ()
  | 7 => pure ()
  | 2 => skipRun v
  | 3 => skipRun v
  | 4 => items v v
  | 5 => items v (2 * v)
  | _ => refuse

/-- The `n` items after a head that says `v`. Every item takes a byte at least, so a count
above the bytes left is wrong. -/
def validateItems (item : Rd Unit Unit) (v n : ℕ) : Rd Unit Unit := do
  let bytes ← bytesLeft
  if bytes < v then refuse else times item n

/-- `validate_item`, with `CBOR_MAX_DEPTH - depth` levels left. -/
def validateItem : ℕ → Rd Unit Unit
  | 0 => validateBody fun _ _ => refuse
  | left + 1 => validateBody (validateItems (validateItem left))

/-- `cbor_validate` on a reader that was set up. -/
def validateWhole : Rd Unit Unit := do
  validateItem cborMaxDepth
  let r ← reader
  if r.pos = r.len then pure () else throw ()

/-- What the caller sees of an `int` result: 0, -1, or nothing after a fault. -/
def Out.code {α : Type} : Out Unit α → Option ℤ
  | .ok _ _ => some 0
  | .fail _ _ => some (-1)
  | .fault => none

/-- `cbor_validate` -/
def cborValidate (buf : Bytes) : Option ℤ := (validateWhole (cborReaderInit buf)).code

end Nixtropic.Fido
