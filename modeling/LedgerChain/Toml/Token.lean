import LedgerChain.Toml.Quoted

/-!
# Tokens of TOML

A TOML text is cut into tokens from left to right.  Blanks and comments are tokens too, since where
they stand matters.
-/

namespace LedgerChain

namespace Toml

/-- The tokens of a text. -/
inductive Token where
  | newline
  /-- A run of blanks. -/
  | blank (text : List Char)
  /-- A comment, up to the end of its line. -/
  | comment
  | equals
  | period
  | comma
  | colon
  | plus
  | leftBrace
  | rightBrace
  | leftBracket
  | rightBracket
  /-- A bare key, number, date or truth value. -/
  | word (text : List Char)
  /-- A string. -/
  | quoted (multiline : Bool) (text : List Char)
deriving DecidableEq

namespace Token

/-- Whether a character may stand in a word. -/
def isWordChar (c : Char) : Bool := c.isAlphanum || c = '-' || c = '_'

/-- Whether a character may stand in a comment: control characters below the space may not, save for
the tab. -/
def isCommentChar (c : Char) : Bool := c = '\t' || 0x20 ≤ c.toNat

/-- The tokens that are a single character. -/
def ofChar? : Char → Option Token
  | '\n' => some newline
  | '=' => some equals
  | '.' => some period
  | ',' => some comma
  | ':' => some colon
  | '+' => some plus
  | '\x7b' => some leftBrace
  | '\x7d' => some rightBrace
  | '[' => some leftBracket
  | ']' => some rightBracket
  | _ => none

/-- The first token of a text that is not empty, and what follows. -/
def first (c : Char) (rest : List Char) : Option (Token × List Char) :=
  match ofChar? c with
  | some token => some (token, rest)
  | none =>
    if isBlank c then
      some (blank (c :: rest.takeWhile isBlank), rest.dropWhile isBlank)
    else if c = '#' then
      if (rest.takeWhile (· ≠ '\n')).all isCommentChar then
        some (comment, rest.dropWhile (· ≠ '\n'))
      else none
    else if c = '"' || c = '\'' then
      (Toml.quoted c rest).map fun ((multiline, text), after) => (quoted multiline text, after)
    else if isWordChar c then
      some (word (c :: rest.takeWhile isWordChar), rest.dropWhile isWordChar)
    else none

/-- At most `steps` tokens of a text. -/
def scanFrom : (steps : Nat) → List Char → Option (List Token)
  | _, [] => some []
  | 0, _ :: _ => none
  | steps + 1, c :: rest => do
    let (token, after) ← first c rest
    let tokens ← scanFrom steps after
    pure (token :: tokens)

/-- Line ends of two characters become line feeds. -/
def foldLineEnds : List Char → List Char
  | '\r' :: '\n' :: rest => '\n' :: foldLineEnds rest
  | c :: rest => c :: foldLineEnds rest
  | [] => []

/-- The text without a leading byte order mark. -/
def stripByteOrderMark : List Char → List Char
  | '\ufeff' :: rest => rest
  | text => text

/-- The tokens of a text.  Every token takes at least one character. -/
def scan (text : List Char) : Option (List Token) :=
  let text := foldLineEnds (stripByteOrderMark text)
  scanFrom text.length text

end Token

end Toml

end LedgerChain
