import LedgerChain.Bytes.Buffer

/-!
# Documents

Settings and answers are written in JSON or TOML.  A document is what such a text says.  Readers turn
documents into values, and values are written as documents.

* A **structure** is written as a record, whose unknown fields do not matter, or as the list of its
  fields in order, of which the last ones may be left out.
* A **choice** is written as the name of an alternative, or as a record with one field: the name of
  the alternative and its contents.
-/

namespace LedgerChain

/-- How a record is written. -/
inductive RecordForm where
  /-- As a JSON object. -/
  | object
  /-- As a TOML table between braces. -/
  | inline
  /-- By keys with dots. -/
  | dotted
  /-- Under headers of its own, or as a whole TOML text. -/
  | headed
deriving DecidableEq, Repr

/-- What a text in JSON or TOML says. -/
inductive Document where
  | null
  | bool (value : Bool)
  | int (value : Int)
  /-- A number that is not written as an integer. -/
  | float
  | text (value : String)
  /-- A TOML date or time. -/
  | date
  | list (items : List Document)
  | record (form : RecordForm) (fields : List (String × Document))
deriving Inhabited

namespace Document

/-! ### Writing -/

/-- A natural number. -/
def ofNat (n : Nat) : Document := int n

/-- A natural number as text, for readers that would round large ones. -/
def decimal (n : Nat) : Document := text (toString n)

/-- A byte string in hexadecimal. -/
def ofBytes (bs : Bytes) : Document := text (Hex.encode bs)

/-- A buffer in hexadecimal. -/
def ofBuffer {n : Nat} (b : Buffer n) : Document := text b.hex

/-- A value that may be missing. -/
def ofOption {α : Type} (write : α → Document) (a : Option α) : Document := (a.map write).getD null

/-- A list of values. -/
def ofList {α : Type} (write : α → Document) (as : List α) : Document := list (as.map write)

/-- A record. -/
def ofFields (fields : List (String × Document)) : Document := record .object fields

/-! ### Reading plain values -/

/-- An integer below a limit. -/
def nat? (limit : Nat) : Document → Option Nat
  | int value => if 0 ≤ value ∧ value < limit then some value.toNat else none
  | _ => none

/-- A 32-bit integer. -/
def nat32? (d : Document) : Option Nat := d.nat? UInt32.size

/-- A 64-bit integer. -/
def nat64? (d : Document) : Option Nat := d.nat? UInt64.size

/-- A 64-bit integer as a word. -/
def word64? (d : Document) : Option UInt64 := d.nat64?.map UInt64.ofNat

/-- A truth value. -/
def bool? : Document → Option Bool
  | bool value => some value
  | _ => none

/-- A buffer, written as text. -/
def buffer? {n : Nat} : Document → Option (Buffer n)
  | text value => (Buffer.parse value).toOption
  | _ => none

/-- A list of values. -/
def list? {α : Type} (read : Document → Option α) : Document → Option (List α)
  | list items => items.mapM read
  | _ => none

/-- A value that may be null. -/
def nullable? {α : Type} (read : Document → Option α) : Document → Option (Option α)
  | null => some none
  | d => (read d).map some

/-! ### Reading structures -/

/-- The fields of a structure. -/
inductive Fields where
  | named (fields : List (String × Document))
  | positional (items : List Document)

namespace Fields

/-- The field with a name or at a place.  The inner result is `none` if it is missing; a field that
is given twice is an error. -/
def find (fields : Fields) (place : Nat) (name : String) : Option (Option Document) :=
  match fields with
  | named rows =>
    match rows.filter fun row => row.1 = name with
    | [] => some none
    | [row] => some (some row.2)
    | _ => none
  | positional items => some items[place]?

/-- A field that must be there. -/
def required {α : Type} (fields : Fields) (place : Nat) (name : String)
    (read : Document → Option α) : Option α := do
  let found ← fields.find place name
  read (← found)

/-- A field that has a default. -/
def optional {α : Type} (fields : Fields) (place : Nat) (name : String)
    (read : Document → Option α) (fallback : α) : Option α := do
  match ← fields.find place name with
  | none => pure fallback
  | some d => read d

end Fields

/-- The fields of a structure that has the given number of them. -/
def fields? (count : Nat) : Document → Option Fields
  | record _ rows => some (.named rows)
  | list items => if items.length ≤ count then some (.positional items) else none
  | date => some (.named [])
  | _ => none

/-! ### Reading choices -/

/-- A choice of an alternative. -/
structure Choice where
  /-- The name of the alternative. -/
  name : String
  /-- How the choice is written and what its contents are, if it is not written as a mere name. -/
  contents : Option (RecordForm × Document)

/-- Reads a choice.  Records with dotted keys or headers are none. -/
def choice? : Document → Option Choice
  | text name => some ⟨name, none⟩
  | record .object [(name, contents)] => some ⟨name, some (.object, contents)⟩
  | record .inline [(name, contents)] => some ⟨name, some (.inline, contents)⟩
  | _ => none

namespace Choice

/-- Whether an alternative without contents was chosen: its name stands alone, or its contents are
null or an empty table. -/
def isBare (c : Choice) : Bool :=
  match c.contents with
  | none => true
  | some (.object, null) => true
  | some (.inline, record _ []) => true
  | _ => false

/-- The fields of the alternative that was chosen, given the names of all that it has.  JSON takes
objects only, and ignores unknown fields; TOML takes lists as well, and refuses unknown fields. -/
def fields? (c : Choice) (names : List String) : Option Fields :=
  match c.contents with
  | some (.object, record _ rows) => some (.named rows)
  | some (.inline, d) =>
    match d with
    | record _ rows => if rows.all fun row => row.1 ∈ names then some (.named rows) else none
    | _ => d.fields? names.length
  | _ => none

end Choice

end Document

end LedgerChain
