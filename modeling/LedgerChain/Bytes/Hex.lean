import LedgerChain.Bytes
import LedgerChain.Text.CharLiteral

/-!
# Hexadecimal text

Two digits for a byte, most significant first.  Digits are written in lower case and read in either
case.  A text that is not the hexadecimal form of a byte string of the expected length is refused
with the first of three reasons that applies: an odd number of digits, a wrong length, a character
that is no digit.
-/

namespace LedgerChain

namespace Hex

/-- The lower-case digit of a number below `16`. -/
def digit (n : Nat) : Char := if n < 10 then Char.ofNat (48 + n) else Char.ofNat (87 + n)

/-- The hexadecimal form of a byte string, as a list of characters. -/
def chars (bs : Bytes) : List Char :=
  bs.flatMap fun b => [digit (b.toNat / 16), digit (b.toNat % 16)]

/-- The hexadecimal form of a byte string. -/
def encode (bs : Bytes) : String := String.ofList (chars bs)

/-- Why a text is not the hexadecimal form of a byte string of the expected length. -/
inductive Error where
  | oddLength
  | wrongLength
  | invalidCharacter (char : UInt8) (position : Nat)
deriving DecidableEq, Repr

/-- The wording of a refusal. -/
def Error.message : Error → String
  | oddLength => "Odd number of digits"
  | wrongLength => "Invalid string length"
  | invalidCharacter char position =>
    s!"Invalid character {Text.latinLiteral char} at position {position}"

/-- The value of an ASCII digit, in either case. -/
def value? (c : UInt8) : Option Nat :=
  let n := c.toNat
  if 48 ≤ n ∧ n ≤ 57 then some (n - 48)
  else if 65 ≤ n ∧ n ≤ 70 then some (n - 55)
  else if 97 ≤ n ∧ n ≤ 102 then some (n - 87)
  else none

/-- Reads digit pairs; `position` counts the characters already read.  A last unpaired digit is
left out, and never met in a text of even length. -/
def pairs : (position : Nat) → Bytes → Except Error Bytes
  | position, hi :: lo :: rest =>
    match value? hi with
    | none => .error (.invalidCharacter hi position)
    | some h =>
      match value? lo with
      | none => .error (.invalidCharacter lo (position + 1))
      | some l =>
        match pairs (position + 2) rest with
        | .error e => .error e
        | .ok bs => .ok (UInt8.ofNat (16 * h + l) :: bs)
  | _, [_] => .ok []
  | _, [] => .ok []

theorem length_of_pairs {position : Nat} {text bs : Bytes} (h : pairs position text = .ok bs) :
    bs.length = text.length / 2 := by
  fun_induction pairs position text generalizing bs with
  | case1 => simp at h
  | case2 => simp at h
  | case3 _ _ _ _ _ _ _ _ e he => simp at h
  | case4 _ _ _ _ _ _ _ _ out hout ih =>
    simp only [Except.ok.injEq] at h
    subst h
    simp only [List.length_cons, ih hout]
    omega
  | case5 => simp_all
  | case6 => simp_all

/-- The `n` bytes whose hexadecimal form is the given ASCII text. -/
def decode (n : Nat) (text : Bytes) : Except Error { bs : Bytes // bs.length = n } :=
  if text.length % 2 ≠ 0 then .error .oddLength
  else if hn : text.length / 2 ≠ n then .error .wrongLength
  else
    match h : pairs 0 text with
    | .error e => .error e
    | .ok bs => .ok ⟨bs, by rw [length_of_pairs h]; exact Decidable.not_not.1 hn⟩

end Hex

end LedgerChain
