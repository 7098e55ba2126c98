/-!
# Settings from the environment

Some settings come from environment variables.  A variable that is not set, or does not hold a value
of the right kind, is ignored.
-/

namespace LedgerChain

namespace Environment

/-- A value from a variable, or the fallback. -/
def readOr {α : Type} (parse : String → Option α) (found : Option String) (fallback : α) : α :=
  (found.bind parse).getD fallback

/-- The number with the given decimal digits, of which there is at least one. -/
def digits? (cs : List Char) : Option Nat :=
  if !cs.isEmpty && cs.all Char.isDigit then
    some (cs.foldl (fun n c => 10 * n + (c.toNat - 48)) 0)
  else none

/-- An integer with an optional sign. -/
def signed? (text : String) : Option Int :=
  match text.toList with
  | '-' :: cs => (digits? cs).map fun n => -(n : Int)
  | '+' :: cs => (digits? cs).map fun n => (n : Int)
  | cs => (digits? cs).map fun n => (n : Int)

/-- A 32-bit integer with an optional plus sign. -/
def nat32? (text : String) : Option Nat :=
  let digits :=
    match text.toList with
    | '+' :: cs => cs
    | cs => cs
  match digits? digits with
  | some n => if n < UInt32.size then some n else none
  | none => none

/-- A 64-bit integer with an optional sign. -/
def int64? (text : String) : Option Int :=
  match signed? text with
  | some n => if Int64.minValue.toInt ≤ n ∧ n ≤ Int64.maxValue.toInt then some n else none
  | none => none

/-- A truth value. -/
def bool? (text : String) : Option Bool :=
  if text = "true" then some true
  else if text = "false" then some false
  else none

/-- The name a service goes by: a base name, and the service's label if it has one. -/
def serviceName (base : String) (label : Option String) : String :=
  match label with
  | some label => base ++ "%" ++ label
  | none => base

/-- The base name of a service that was not given one. -/
def defaultServiceName : String := "(tessera-node)"

end Environment

end LedgerChain
