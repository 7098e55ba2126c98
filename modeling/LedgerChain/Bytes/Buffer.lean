import LedgerChain.Bytes.Hex

/-!
# Byte strings of a fixed length

Digests, keys, identifiers and signatures are byte strings whose length is part of their type.
They are ordered like byte strings, and are read and shown in hexadecimal: in full, or in a short
form of the first and last four bytes.
-/

namespace LedgerChain

/-- A byte string of length `n`. -/
structure Buffer (n : Nat) where
  /-- The bytes. -/
  toList : Bytes
  length_toList : toList.length = n
deriving DecidableEq

namespace Buffer

variable {n : Nat}

@[ext] theorem ext {a b : Buffer n} (h : a.toList = b.toList) : a = b := by
  cases a; cases b; simp_all

/-- All bytes zero. -/
def zero (n : Nat) : Buffer n := ⟨List.replicate n 0, List.length_replicate⟩

instance : Inhabited (Buffer n) := ⟨zero n⟩

/-- Whether all bytes are zero. -/
def isZero (b : Buffer n) : Bool := b.toList.all (· = 0)

/-- Buffers are ordered by their first differing byte. -/
instance : LT (Buffer n) := ⟨fun a b => a.toList < b.toList⟩

instance (a b : Buffer n) : Decidable (a < b) := inferInstanceAs (Decidable (a.toList < b.toList))

/-- The big-endian form of a number, of which the lowest `n` bytes are kept. -/
def ofNat (n value : Nat) : Buffer n := ⟨Bytes.ofNatBE n value, Bytes.length_ofNatBE n value⟩

/-- The number whose big-endian form the buffer is. -/
def toNat (b : Buffer n) : Nat := Bytes.toNatBE b.toList

/-- All bytes in hexadecimal. -/
def hex (b : Buffer n) : String := Hex.encode b.toList

/-- The first and last four bytes in hexadecimal. -/
def short (b : Buffer n) : String :=
  Hex.encode (b.toList.take 4) ++ ".." ++ Hex.encode (b.toList.drop (n - 4))

instance : ToString (Buffer n) := ⟨short⟩

/-- A byte string was offered whose length is not the buffer's. -/
structure LengthError where
  expected : Nat
  actual : Nat
deriving DecidableEq, Repr

/-- The wording of a length error. -/
def LengthError.message (e : LengthError) : String :=
  s!"expected {e.expected} bytes, got {e.actual}"

/-- The byte string as a buffer, if it has the right length. -/
def ofBytes (bs : Bytes) : Except LengthError (Buffer n) :=
  if h : bs.length = n then .ok ⟨bs, h⟩ else .error ⟨n, bs.length⟩

/-- The text without one leading `0x`. -/
def stripMark : Bytes → Bytes
  | 0x30 :: 0x78 :: rest => rest
  | text => text

/-- Reads a buffer from hexadecimal ASCII text with an optional leading `0x`. -/
def parseBytes (text : Bytes) : Except Hex.Error (Buffer n) :=
  match Hex.decode n (stripMark text) with
  | .error e => .error e
  | .ok bs => .ok ⟨bs.1, bs.2⟩

/-- Reads a buffer from text.  Lengths and positions count the bytes of the UTF-8 form. -/
def parse (text : String) : Except Hex.Error (Buffer n) := parseBytes text.toUTF8.data.toList

/-- The wording of a failed `parse`. -/
def parseMessage (e : Hex.Error) : String := s!"parse buf: {e.message}"

end Buffer

end LedgerChain
