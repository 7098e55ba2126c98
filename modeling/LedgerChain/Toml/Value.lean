import LedgerChain.Document
import LedgerChain.Toml.Number
import LedgerChain.Toml.Token

/-!
# Values of TOML

Values and keys are read from the front of a list of tokens.
-/

namespace LedgerChain

namespace Toml

/-- Reads something from the front of a list of tokens. -/
abbrev Reader := StateT (List Token) Option

namespace Reader

/-- The next token. -/
def next : Reader Token
  | [] => none
  | token :: rest => some (token, rest)

/-- Takes the given token if it comes next, and tells whether it did. -/
def eat (token : Token) : Reader Bool := fun tokens =>
  if tokens.head? = some token then some (true, tokens.tail) else some (false, tokens)

/-- Takes the given token. -/
def expect (token : Token) : Reader Unit := do
  if ← eat token then pure () else failure

/-- Takes a word. -/
def word : Reader (List Char) := do
  match ← next with
  | .word text => pure text
  | _ => failure

/-- Skips blanks. -/
def skipBlank : Reader Unit
  | .blank _ :: rest => some ((), rest)
  | tokens => some ((), tokens)

/-- Skips blanks, comments and line ends. -/
def skipLines : Reader Unit := fun tokens =>
  some ((), tokens.dropWhile fun
    | .blank _ => true
    | .comment => true
    | .newline => true
    | _ => false)

end Reader

open Reader

/-! ### Keys -/

/-- A key without dots: a word, or a string on one line. -/
def simpleKey : Reader String := do
  match ← next with
  | .word text => pure (String.ofList text)
  | .quoted false text => pure (String.ofList text)
  | _ => failure

/-- The further parts of a key, each after a dot. -/
def keyParts : (steps : Nat) → Reader (List String)
  | 0 => pure []
  | steps + 1 => do
    skipBlank
    if ← eat .period then do
      skipBlank
      let part ← simpleKey
      let parts ← keyParts steps
      pure (part :: parts)
    else pure []

/-- A key and its parts, of which there is at least one.  Blanks around it are skipped. -/
def dottedKey : Reader (String × List String) := do
  skipBlank
  let part ← simpleKey
  let parts ← keyParts (← get).length
  pure (part, parts)

/-- Adds a value under a key to the fields of a record.  The parts of a key before the last name
records that were made by such keys too. -/
def addField (value : Document) :
    (key : String) → List String → List (String × Document) → Option (List (String × Document))
  | key, [], fields => some (fields ++ [(key, value)])
  | key, part :: parts, fields =>
    match fields.findIdx? fun f => f.1 = key with
    | none => do
      let inner ← addField value part parts []
      pure (fields ++ [(key, .record .dotted inner)])
    | some place =>
      match fields[place]? with
      | some (_, .record .dotted inner) => do
        let inner' ← addField value part parts inner
        pure (fields.set place (key, .record .dotted inner'))
      | _ => none

/-! ### Numbers and dates -/

/-- Whether a word that starts like a number is a date, or a date and the hour of a time. -/
def isDateWord (text : List Char) : Bool :=
  text.contains 'T' || text.contains 't' ||
    (text.tail.contains '-' &&
      !(text.zip text.tail).any fun (a, b) => (a = 'e' || a = 'E') && b = '-')

/-- A float, given the word it starts with and, if a point follows, the one after it.  The exponent
may be a word of its own after a plus sign. -/
def floatWord (text : List Char) (fraction : Option (List Char)) : Reader Unit := do
  let (integral, after) ←
    (NumeralRule.read { signed := true, leadingZeros := false } text : Option _)
  let (digits, after) ←
    match fraction with
    | none => pure ([], after)
    | some word =>
      if after.isEmpty then do
        let (numeral, rest) ←
          (NumeralRule.read { signed := false, leadingZeros := true } word : Option _)
        pure (numeral.digits, rest)
      else failure
  let exponent : Numeral ←
    match after with
    | [] => pure ⟨false, []⟩
    | mark :: rest =>
      if mark ≠ 'e' && mark ≠ 'E' then failure
      else do
        let signed := !rest.isEmpty
        let word ← if signed then pure rest else do
          discard (eat .plus)
          Reader.word
        let (numeral, rest) ← (NumeralRule.read { signed, leadingZeros := true } word : Option _)
        if rest.isEmpty then pure numeral else failure
  if (FloatParts.mk integral digits exponent).isFinite then pure () else failure

/-- The number that starts with a word. -/
def number (text : List Char) : Reader Document := do
  let marked := [['0', 'x'], ['0', 'o'], ['0', 'b']].contains (text.take 2)
  if !marked && (text.contains 'e' || text.contains 'E') then do
    floatWord text none
    pure .float
  else do
    let pointed ← if marked then pure false else eat .period
    if pointed then do
      floatWord text (some (← word))
      pure .float
    else if ["inf", "-inf", "nan", "-nan"].contains (String.ofList text) then pure .float
    else do
      let value ← (integerWord? text : Option Int)
      pure (.int value)

/-- Skips the hour of a time, if a single space and a word follow. -/
def skipHour : Reader Unit
  | .blank [' '] :: .word _ :: rest => some ((), rest)
  | tokens => some ((), tokens)

/-- Skips a word if the given token comes before it. -/
def skipPart (token : Token) : Reader Unit := do
  if ← eat token then discard word

/-- A date or time, after its first word.  What the parts say is not looked at. -/
def date (afterColon : Bool) : Reader Document := do
  skipHour
  let timed ← if afterColon then pure true else eat .colon
  if timed then do
    discard word
    expect .colon
    discard word
    skipPart .period
    skipPart .plus
    skipPart .colon
  pure .date

/-- Whether a word can start a number or date: it has a digit or a minus sign in front, or is one of
the floats with a name.  A date may start with those too, since its parts are not looked at. -/
def startsNumber (text : List Char) : Bool :=
  text = ['i', 'n', 'f'] || text = ['n', 'a', 'n'] ||
    text.head?.any fun c => c = '-' || c.isDigit

/-- The truth value, number or date that starts with a word. -/
def wordValue (text : List Char) : Reader Document :=
  if text = ['t', 'r', 'u', 'e'] then pure (.bool true)
  else if text = ['f', 'a', 'l', 's', 'e'] then pure (.bool false)
  else if !startsNumber text then failure
  else if isDateWord text then date false
  else do
    if ← eat .colon then date true else number text

/-! ### Values -/

mutual

/-- A value, whose parts lie at most `steps` readers deep. -/
def valueWithin : (steps : Nat) → Reader Document
  | 0 => failure
  | steps + 1 => do
    match ← next with
    | .quoted _ text => pure (.text (String.ofList text))
    | .word text => wordValue text
    | .plus => number (← word)
    | .leftBrace => do
      skipBlank
      if ← eat .rightBrace then pure (.record .inline [])
      else pure (.record .inline (← inlineFields steps []))
    | .leftBracket => pure (.list (← items steps))
    | _ => failure

/-- The rest of a table between braces, after the given fields. -/
def inlineFields : (steps : Nat) → List (String × Document) → Reader (List (String × Document))
  | 0, _ => failure
  | steps + 1, fields => do
    let (key, parts) ← dottedKey
    expect .equals
    skipBlank
    let value ← valueWithin steps
    let fields ← (addField value key parts fields : Option _)
    skipBlank
    if ← eat .rightBrace then pure fields
    else do
      expect .comma
      inlineFields steps fields

/-- The rest of a list. -/
def items : (steps : Nat) → Reader (List Document)
  | 0 => failure
  | steps + 1 => do
    skipLines
    if ← eat .rightBracket then pure []
    else do
      let item ← valueWithin steps
      skipLines
      if ← eat .comma then do
        let rest ← items steps
        pure (item :: rest)
      else do
        expect .rightBracket
        pure [item]

end

/-- A value.  A table or list has a bracket or field of its own for every two readers. -/
def value : Reader Document := do valueWithin (2 * (← get).length + 2)

end Toml

end LedgerChain
