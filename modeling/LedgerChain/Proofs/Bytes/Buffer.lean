import LedgerChain.Document
import LedgerChain.Proofs.Bytes.Hex

/-!
# Reading buffers

A buffer of `n` bytes is read from `2 * n` digits, behind one `0x` or none (`Buffer.unmarked`), and
from nothing else.  `Buffer.parse_accepts_grammar` says so for buffers of every length, with what is
read, what is refused and why, and that reading undoes writing.
-/

namespace LedgerChain

namespace Buffer

open Text Hex

variable {n : Nat}

/-- Characters without one leading `0x`. -/
def unmark : List Char → List Char
  | '0' :: 'x' :: rest => rest
  | text => text

/-- The characters of a text without one leading `0x`. -/
def unmarked (s : String) : List Char := unmark s.toList

theorem stripMark_utf8 (text : List Char) : stripMark (utf8 text) = utf8 (unmark text) := by
  unfold stripMark
  split
  · rename_i rest hmark
    obtain ⟨text, rfl, hx⟩ := eq_cons_of_utf8_eq_cons hmark (by decide)
    obtain ⟨text, rfl, rfl⟩ := eq_cons_of_utf8_eq_cons hx (by decide)
    rfl
  · rename_i hplain
    unfold unmark
    split
    · rename_i rest
      exact absurd rfl (hplain (utf8 rest))
    · rfl

theorem unmark_of_digits {text : List Char} (h : ∀ c ∈ text, IsDigit c) : unmark text = text := by
  unfold unmark
  split
  · obtain ⟨value, hvalue⟩ : IsDigit 'x' := h 'x' (by simp)
    cases hvalue
  · rfl

theorem parse_eq (s : String) : (parse s : Except Hex.Error (Buffer n)) =
    (decode n (utf8 (unmarked s))).map fun bs => ⟨bs.1, bs.2⟩ := by
  rw [parse, parseBytes, toUTF8_eq_utf8, stripMark_utf8, ← unmarked]
  cases decode n (utf8 (unmarked s)) <;> rfl

theorem parse_eq_ok_iff {s : String} {b : Buffer n} :
    parse s = .ok b ↔ Denotes (unmarked s) b.toList := by
  have hdecode : decode n (utf8 (unmarked s)) = .ok ⟨b.toList, b.length_toList⟩ ↔
      Denotes (unmarked s) b.toList := decode_eq_ok_iff
  rw [← hdecode, parse_eq]
  cases decode n (utf8 (unmarked s)) with
  | error e => exact ⟨fun h => (by cases h), fun h => (by cases h)⟩
  | ok bs => exact ⟨fun h => (by cases h; rfl), fun h => (by cases h; rfl)⟩

theorem parse_eq_error_iff {s : String} {e : Hex.Error} :
    (parse s : Except Hex.Error (Buffer n)) = .error e ↔ Refused n (utf8 (unmarked s)) e := by
  rw [← decode_eq_error_iff, parse_eq]
  cases decode n (utf8 (unmarked s)) with
  | error e' => exact ⟨fun h => (by cases h; rfl), fun h => (by cases h; rfl)⟩
  | ok bs => exact ⟨fun h => (by cases h), fun h => (by cases h)⟩

theorem denotes_hex (b : Buffer n) : Denotes b.hex.toList b.toList := by
  rw [hex, encode, String.toList_ofList]
  exact denotes_chars b.toList

theorem parse_hex (b : Buffer n) : parse b.hex = .ok b ∧ parse ("0x" ++ b.hex) = .ok b := by
  constructor <;> rw [parse_eq_ok_iff, unmarked]
  · rw [unmark_of_digits (denotes_hex b).digits]
    exact denotes_hex b
  · rw [String.toList_append]
    exact denotes_hex b

/-- **What is read as a buffer**, for buffers of every length:

* A text is read if it has twice as many digits as the buffer has bytes, in either case, behind one
  `0x` or none.
* What is read is what the pairs of digits denote.
* Reading undoes writing, as a text and as a document, with a mark or without one.
* What is read is written as it was, in lower case and without a mark.
* Any other text is refused: if its UTF-8 form has an odd number of bytes, for that; otherwise for
  its length, if that is wrong; otherwise for the first byte that is no digit, at its position. -/
theorem parse_accepts_grammar (n : Nat) :
    (∀ s : String, (∃ b : Buffer n, parse s = .ok b) ↔
      (unmarked s).length = 2 * n ∧ ∀ c ∈ unmarked s, IsDigit c) ∧
    (∀ (s : String) (b : Buffer n), parse s = .ok b ↔ Denotes (unmarked s) b.toList) ∧
    (∀ b : Buffer n, parse b.hex = .ok b ∧ parse ("0x" ++ b.hex) = .ok b ∧
      (Document.ofBuffer b).buffer? = some b ∧ (Document.text ("0x" ++ b.hex)).buffer? = some b) ∧
    (∀ (s : String) (b : Buffer n), parse s = .ok b →
      b.hex.toList = (unmarked s).map Char.toLower) ∧
    ∀ (s : String) (e : Hex.Error),
      (parse s : Except Hex.Error (Buffer n)) = .error e ↔ Refused n (utf8 (unmarked s)) e := by
  refine ⟨fun s => ⟨fun ⟨b, hb⟩ => ?_, fun ⟨hlength, hdigits⟩ => ?_⟩, fun s b => parse_eq_ok_iff,
    fun b => ?_, fun s b hb => ?_, fun s e => parse_eq_error_iff⟩
  · have hdenotes := parse_eq_ok_iff.1 hb
    rw [hdenotes.length_eq, b.length_toList]
    exact ⟨rfl, hdenotes.digits⟩
  · obtain ⟨bs, hbs⟩ := exists_denotes n hlength hdigits
    have hn : bs.length = n := by
      have htwice := hbs.length_eq
      omega
    exact ⟨⟨bs, hn⟩, parse_eq_ok_iff.2 hbs⟩
  · obtain ⟨hplain, hmarked⟩ := parse_hex b
    refine ⟨hplain, hmarked, ?_, ?_⟩
    · simp only [Document.ofBuffer, Document.buffer?, hplain, Except.toOption]
    · simp only [Document.buffer?, hmarked, Except.toOption]
  · rw [hex, encode, String.toList_ofList]
    exact (parse_eq_ok_iff.1 hb).chars_eq

-- a character of two bytes has the length of a pair of digits
example : (parse "0xé" : Except Hex.Error (Buffer 1)) = .error (.invalidCharacter 0xc3 0) := by
  decide +kernel

end Buffer

end LedgerChain
