import LedgerChain.Bytes.Buffer

/-!
# The wire format

Every value that is hashed, stored or sent has one binary form: integers are little-endian, byte
strings and lists carry their length as a 32-bit integer in front, the alternatives of a choice are
numbered by one byte, and the parts of a record follow each other in order.

A decoder reads a value from the front of a byte string and leaves the rest.  `Wire.decode` reads a
value that must fill the whole byte string.
-/

namespace LedgerChain

/-- Why a byte string is not the binary form of a value. -/
inductive WireError where
  /-- The input ends inside the value. -/
  | unexpectedEnd
  /-- Bytes are left after the value. -/
  | trailingBytes
  /-- No alternative of a choice has this number. -/
  | unknownTag (tag : UInt8)
deriving DecidableEq, Repr

/-- The wording of a wire error. -/
def WireError.message : WireError → String
  | unexpectedEnd => "Unexpected length of input"
  | trailingBytes => "Not all bytes read"
  | unknownTag tag => s!"Unexpected variant tag: {tag.toNat}"

/-- Reads a value from the front of a byte string. -/
abbrev Decoder := StateT Bytes (Except WireError)

/-- Values with a binary form. -/
class Wire (α : Type) where
  /-- The binary form of a value. -/
  encode : α → Bytes
  /-- Reads a value from the front of a byte string. -/
  decoder : Decoder α

namespace Wire

/-- Fails with the given error. -/
def fail {α : Type} (e : WireError) : Decoder α := fun _ => .error e

/-- The first `n` bytes. -/
def takeBytes (n : Nat) : Decoder Bytes := fun input =>
  let taken := input.take n
  if taken.length = n then .ok (taken, input.drop n) else .error .unexpectedEnd

/-- The value whose binary form is the whole byte string. -/
def decode {α : Type} [Wire α] (input : Bytes) : Except WireError α :=
  match (decoder : Decoder α) input with
  | .error e => .error e
  | .ok (a, []) => .ok a
  | .ok (_, _ :: _) => .error .trailingBytes

/-- An integer of the given width in bytes. -/
def takeNat (width : Nat) : Decoder Nat := Bytes.toNatLE <$> takeBytes width

instance : Wire UInt8 where
  encode n := Bytes.ofNatLE 1 n.toNat
  decoder := UInt8.ofNat <$> takeNat 1

instance : Wire UInt16 where
  encode n := Bytes.ofNatLE 2 n.toNat
  decoder := UInt16.ofNat <$> takeNat 2

instance : Wire UInt32 where
  encode n := Bytes.ofNatLE 4 n.toNat
  decoder := UInt32.ofNat <$> takeNat 4

instance : Wire UInt64 where
  encode n := Bytes.ofNatLE 8 n.toNat
  decoder := UInt64.ofNat <$> takeNat 8

instance {n : Nat} : Wire (Buffer n) where
  encode b := b.toList
  decoder := do
    let bs ← takeBytes n
    if h : bs.length = n then pure ⟨bs, h⟩ else fail .unexpectedEnd

/-- The length of a byte string or list. -/
def encodeLength (n : Nat) : Bytes := Bytes.ofNatLE 4 n

instance : Wire Bytes where
  encode bs := encodeLength bs.length ++ bs
  decoder := do takeBytes (← takeNat 4)

/-- The elements of a list after their number. -/
def encodeList {α : Type} [Wire α] (as : List α) : Bytes :=
  encodeLength as.length ++ as.flatMap encode

/-- Reads a given number of values. -/
def decodeTimes {α : Type} [Wire α] : Nat → Decoder (List α)
  | 0 => pure []
  | n + 1 => do
    let a ← decoder
    let as ← decodeTimes n
    pure (a :: as)

/-- Reads a list. -/
def decodeList {α : Type} [Wire α] : Decoder (List α) := do decodeTimes (← takeNat 4)

instance {α β : Type} [Wire α] [Wire β] : Wire (α × β) where
  encode p := encode p.1 ++ encode p.2
  decoder := do
    let a ← decoder
    let b ← decoder
    pure (a, b)

end Wire

end LedgerChain
