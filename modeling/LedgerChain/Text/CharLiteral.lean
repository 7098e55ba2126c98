/-!
# Characters as quoted literals

The way a single character is shown in a message: between apostrophes, with the usual short
escapes, and by its code point in braces when it has no printable form of its own.
-/

namespace LedgerChain

namespace Text

/-- Whether a character below `256` is shown as itself: the printable characters of Latin-1.  Left
out are the two control ranges, the no-break space and the soft hyphen. -/
def isPrintableLatin (code : Nat) : Bool :=
  (0x20 ≤ code && code < 0x7f) || (0xa1 ≤ code && code ≠ 0xad)

/-- The character with the given Latin-1 code as a quoted literal. -/
def latinLiteral (code : UInt8) : String :=
  let n := code.toNat
  let body :=
    if n = 0 then "\\0"
    else if n = 9 then "\\t"
    else if n = 10 then "\\n"
    else if n = 13 then "\\r"
    else if n = 39 then "\\'"
    else if n = 92 then "\\\\"
    else if isPrintableLatin n then String.singleton (Char.ofNat n)
    else "\\u\x7b" ++ String.ofList (Nat.toDigits 16 n) ++ "\x7d"
  "'" ++ body ++ "'"

end Text

end LedgerChain
