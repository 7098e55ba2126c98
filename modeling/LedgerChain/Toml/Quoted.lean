/-!
# Quoted strings of TOML

A string stands between single or double quotes, one of them on each side for a string on one line
and three for a string over several lines.  Between double quotes a backslash starts an escape.

Line ends are single line feeds here; the lexer has made them so.
-/

namespace LedgerChain

namespace Toml

/-- The value of a digit in bases up to sixteen. -/
def digitValue? (c : Char) : Option Nat :=
  let n := c.toNat
  if 48 ≤ n ∧ n ≤ 57 then some (n - 48)
  else if 65 ≤ n ∧ n ≤ 70 then some (n - 55)
  else if 97 ≤ n ∧ n ≤ 102 then some (n - 87)
  else none

/-- Whether a character is a digit in the given base. -/
def isDigitIn (base : Nat) (c : Char) : Bool := (digitValue? c).any (· < base)

/-- The number with the given digits.  Other characters are skipped. -/
def numberOf (base : Nat) (cs : List Char) : Nat :=
  (cs.filterMap digitValue?).foldl (fun n d => base * n + d) 0

/-- Whether a character separates words on a line. -/
def isBlank (c : Char) : Bool := c = ' ' || c = '\t'

/-- Whether a character may stand in a string as itself, line ends aside. -/
def isPlain (c : Char) : Bool := c = '\t' || (0x20 ≤ c.toNat && c.toNat ≠ 0x7f)

/-- The character with a code point of the given number of hexadecimal digits, and what follows. -/
def codePoint (digits : Nat) (cs : List Char) : Option (Char × List Char) :=
  let code := cs.take digits
  let n := numberOf 16 code
  if code.length = digits && code.all (isDigitIn 16) && decide n.isValidChar then
    some (Char.ofNat n, cs.drop digits)
  else none

/-- The character of an escape of one letter. -/
def shortEscape? : Char → Option Char
  | '"' => some '"'
  | '\\' => some '\\'
  | 'b' => some '\x08'
  | 'f' => some '\x0c'
  | 'n' => some '\n'
  | 'r' => some '\r'
  | 't' => some '\t'
  | _ => none

/-- What an escape stands for, after the backslash, and what follows.  In a string over several lines
a backslash at the end of a line takes out all blanks and line ends after it. -/
def escape (multiline : Bool) : List Char → Option (List Char × List Char)
  | [] => none
  | c :: rest =>
    match shortEscape? c with
    | some e => some ([e], rest)
    | none =>
      if c = 'u' then (codePoint 4 rest).map fun (e, after) => ([e], after)
      else if c = 'U' then (codePoint 8 rest).map fun (e, after) => ([e], after)
      else if multiline then
        match (c :: rest).dropWhile isBlank with
        | '\n' :: after => some ([], after.dropWhile fun b => isBlank b || b = '\n')
        | _ => none
      else none

/-- The kinds of strings. -/
structure QuoteStyle where
  quote : Char
  multiline : Bool

/-- The end of a string over several lines: three quotes, and up to two more in front of them that
belong to the string. -/
def closeMultiline (quote : Char) (cs : List Char) : Option (List Char × List Char) :=
  if cs.take 3 = [quote, quote, quote] then
    let extra := ((cs.drop 3).take 2).takeWhile (· = quote)
    some (extra, cs.drop (3 + extra.length))
  else none

/-- The rest of a string after the opening quotes, and what follows the closing ones.  At most
`steps` characters and escapes are read. -/
def quotedRest (style : QuoteStyle) : (steps : Nat) → List Char → Option (List Char × List Char)
  | 0, _ => none
  | _ + 1, [] => none
  | steps + 1, c :: rest =>
    let continueWith (here : List Char) (after : List Char) : Option (List Char × List Char) :=
      (quotedRest style steps after).map fun (text, following) => (here ++ text, following)
    if c = style.quote then
      if style.multiline then
        match closeMultiline style.quote (c :: rest) with
        | some done => some done
        | none => continueWith [c] rest
      else some ([], rest)
    else if c = '\n' then if style.multiline then continueWith [c] rest else none
    else if c = '\\' && style.quote = '"' then
      match escape style.multiline rest with
      | none => none
      | some (here, after) => continueWith here after
    else if isPlain c then continueWith [c] rest
    else none

/-- A string, given its first quote and what follows.  Also tells whether three quotes open it.  A
line end right after three opening quotes is not part of the string. -/
def quoted (quote : Char) (cs : List Char) : Option ((Bool × List Char) × List Char) :=
  if cs.take 2 = [quote, quote] then
    let body := cs.drop 2
    let body := if body.head? = some '\n' then body.tail else body
    (quotedRest ⟨quote, true⟩ (body.length + 1) body).map fun (text, after) => ((true, text), after)
  else
    (quotedRest ⟨quote, false⟩ (cs.length + 1) cs).map fun (text, after) => ((false, text), after)

end Toml

end LedgerChain
