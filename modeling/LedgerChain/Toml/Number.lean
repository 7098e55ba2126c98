import LedgerChain.Toml.Quoted

/-!
# Numbers of TOML

Integers are written in base ten with an optional sign, or in base sixteen, eight or two after a
mark.  Underscores may stand between digits.  An integer has 64 bits with sign, and a float that is
too large for a double is refused.
-/

namespace LedgerChain

namespace Toml

/-- How the digits of a number may be written. -/
structure NumeralRule where
  base : Nat := 10
  /-- Whether a sign may stand in front. -/
  signed : Bool
  /-- Whether zeros may stand in front. -/
  leadingZeros : Bool

/-- The digits at the front of a text. -/
structure Numeral where
  negative : Bool
  /-- The digits, without underscores. -/
  digits : List Char

/-- Whether underscores stand only between digits, of which there is at least one. -/
def wellSpaced (run : List Char) : Bool :=
  !run.isEmpty && run.head? ≠ some '_' && run.getLast? ≠ some '_' &&
    (run.zip run.tail).all fun (a, b) => a ≠ '_' || b ≠ '_'

/-- Reads the digits at the front of a text. -/
def NumeralRule.read (rule : NumeralRule) (text : List Char) : Option (Numeral × List Char) :=
  let negative := text.head? = some '-'
  let body := if rule.signed && negative then text.tail else text
  let run := body.takeWhile fun c => isDigitIn rule.base c || c = '_'
  let digits := run.filter (· ≠ '_')
  if wellSpaced run && (rule.leadingZeros || digits.length = 1 || digits.head? ≠ some '0') then
    some (⟨negative, digits⟩, body.drop run.length)
  else none

/-- An integer that fills a text. -/
def integer? (rule : NumeralRule) (text : List Char) : Option Int :=
  match rule.read text with
  | some (numeral, []) =>
    let size : Int := numberOf rule.base numeral.digits
    let value := if numeral.negative then -size else size
    if Int64.minValue.toInt ≤ value ∧ value ≤ Int64.maxValue.toInt then some value else none
  | _ => none

/-- The integer that a word stands for. -/
def integerWord? : List Char → Option Int
  | '0' :: 'x' :: rest => integer? { base := 16, signed := false, leadingZeros := true } rest
  | '0' :: 'o' :: rest => integer? { base := 8, signed := false, leadingZeros := true } rest
  | '0' :: 'b' :: rest => integer? { base := 2, signed := false, leadingZeros := true } rest
  | text => integer? { signed := true, leadingZeros := false } text

/-- The least number that rounds to infinity as a double: halfway between the largest double and the
next power of two. -/
def doubleLimit : Nat := Nat.pow 2 1024 - Nat.pow 2 970

/-- Whether `digits * 10 ^ exponent` is small enough for a double. -/
def isFinite (digits : List Char) (exponent : Int) : Bool :=
  let significant := digits.dropWhile (· = '0')
  -- the number is at least `10 ^ (magnitude - 1)` and less than `10 ^ magnitude`
  let magnitude := significant.length + exponent
  if significant.isEmpty || magnitude ≤ 308 then true
  else if 309 < magnitude then false
  else
    let n := numberOf 10 significant
    if 0 ≤ exponent then n * Nat.pow 10 exponent.toNat < doubleLimit
    else n < doubleLimit * Nat.pow 10 (-exponent).toNat

/-- The parts of a float. -/
structure FloatParts where
  integral : Numeral
  /-- The digits after the point. -/
  fraction : List Char
  exponent : Numeral

namespace FloatParts

/-- The exponent as an integer. -/
def exponentValue (f : FloatParts) : Int :=
  let size : Int := numberOf 10 f.exponent.digits
  if f.exponent.negative then -size else size

/-- Whether the float is small enough for a double. -/
def isFinite (f : FloatParts) : Bool :=
  Toml.isFinite (f.integral.digits ++ f.fraction) (f.exponentValue - f.fraction.length)

end FloatParts

end Toml

end LedgerChain
