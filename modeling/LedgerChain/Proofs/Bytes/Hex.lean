import LedgerChain.Bytes.Buffer
import Mathlib.Data.List.Basic

/-!
# Hexadecimal digits

What digits are, and which byte string a text of digit pairs denotes, is said of characters
(`Hex.digitValue?`, `Hex.Denotes`).  Texts are read byte by byte, in their UTF-8 form.  Nothing is
lost by that: a text has digits only if its UTF-8 form has (`Hex.digits_utf8_iff`).

Reading pairs gives what they denote (`Hex.Denotes.pairs`), or stops at the first byte that is no
digit (`Hex.pairs_cases`).  What is written denotes what was to be written (`Hex.denotes_chars`).
-/

namespace LedgerChain

namespace Text

/-- The UTF-8 form of a text. -/
def utf8 (text : List Char) : Bytes := text.flatMap String.utf8EncodeChar

theorem utf8_cons (c : Char) (text : List Char) :
    utf8 (c :: text) = String.utf8EncodeChar c ++ utf8 text := List.flatMap_cons

theorem toUTF8_eq_utf8 (s : String) : s.toUTF8.data.toList = utf8 s.toList := by
  rw [String.toUTF8, ← String.utf8Encode_toList, List.utf8Encode, List.toList_data_toByteArray]
  rfl

theorem utf8EncodeChar_of_ascii {c : Char} (h : c.toNat < 128) :
    String.utf8EncodeChar c = [UInt8.ofNat c.toNat] :=
  if_pos (Nat.le_of_lt_succ h)

theorem utf8EncodeChar_of_not_ascii {c : Char} (h : 128 ≤ c.toNat) :
    String.utf8EncodeChar c ≠ [] ∧ ∀ b ∈ String.utf8EncodeChar c, 128 ≤ b.toNat := by
  have hnot : ¬ c.val.toNat ≤ 127 := Nat.not_le_of_lt h
  unfold String.utf8EncodeChar
  simp only [if_neg hnot]
  split
  · simp; omega
  · split
    · simp; omega
    · simp; omega

theorem ofNat_toNat_ascii {c : Char} (h : c.toNat < 128) :
    Char.ofNat (UInt8.ofNat c.toNat).toNat = c := by
  rw [UInt8.toNat_ofNat', Nat.mod_eq_of_lt (Nat.lt_trans h (by decide)), Char.ofNat_toNat]

theorem eq_cons_of_utf8_eq_cons {text : List Char} {b : UInt8} {bytes : Bytes}
    (h : utf8 text = b :: bytes) (hb : b.toNat < 128) :
    ∃ rest, text = Char.ofNat b.toNat :: rest ∧ utf8 rest = bytes := by
  cases text with
  | nil => cases h
  | cons c rest =>
    rw [utf8_cons] at h
    rcases Nat.lt_or_ge c.toNat 128 with hc | hc
    · rw [utf8EncodeChar_of_ascii hc] at h
      obtain ⟨rfl, hrest⟩ := List.cons_eq_cons.1 h
      exact ⟨rest, by rw [ofNat_toNat_ascii hc], hrest⟩
    · obtain ⟨hne, hbytes⟩ := utf8EncodeChar_of_not_ascii hc
      obtain ⟨first, others, hform⟩ := List.exists_cons_of_ne_nil hne
      rw [hform] at h hbytes
      obtain ⟨rfl, -⟩ := List.cons_eq_cons.1 h
      exact absurd (hbytes first List.mem_cons_self) (Nat.not_le_of_lt hb)

end Text

namespace Hex

open Text

/-! ### The grammar -/

/-- The digits, in lower case and in the order of their values. -/
def digits : List Char :=
  ['0', '1', '2', '3', '4', '5', '6', '7', '8', '9', 'a', 'b', 'c', 'd', 'e', 'f']

/-- The value of a digit, in either case. -/
def digitValue? (c : Char) : Option Nat := digits.idxOf? c.toLower

/-- A digit, in either case. -/
def IsDigit (c : Char) : Prop := ∃ value, digitValue? c = some value

/-- A byte that is a digit. -/
def IsDigitByte (b : UInt8) : Prop := IsDigit (Char.ofNat b.toNat)

/-- The pairs of digits that denote a byte string. -/
inductive Denotes : List Char → Bytes → Prop
  | nil : Denotes [] []
  | pair {hi lo : Char} {high low : Nat} {text : List Char} {bs : Bytes}
      (hhi : digitValue? hi = some high) (hlo : digitValue? lo = some low)
      (hrest : Denotes text bs) :
      Denotes (hi :: lo :: text) (UInt8.ofNat (16 * high + low) :: bs)

/-- Why a text is refused where the digits of `n` bytes are expected: the first reason that
applies. -/
inductive Refused (n : Nat) (text : Bytes) : Error → Prop
  | odd (hodd : text.length % 2 = 1) : Refused n text .oddLength
  | length (heven : text.length % 2 = 0) (hlength : text.length ≠ 2 * n) :
    Refused n text .wrongLength
  /-- The first byte that is no digit. -/
  | character (hlength : text.length = 2 * n) {before : Bytes} {b : UInt8} {after : Bytes}
      (split : text = before ++ b :: after) (hbefore : ∀ d ∈ before, IsDigitByte d)
      (hb : ¬ IsDigitByte b) : Refused n text (.invalidCharacter b before.length)

/-! ### Digits -/

theorem value?_eq (b : UInt8) : value? b = digitValue? (Char.ofNat b.toNat) := by
  have hall : ∀ n < 256,
      value? (UInt8.ofNat n) = digitValue? (Char.ofNat (UInt8.ofNat n).toNat) := by
    decide +kernel
  have hb := hall b.toNat b.toNat_lt
  rwa [UInt8.ofNat_toNat] at hb

theorem isDigitByte_iff {b : UInt8} : IsDigitByte b ↔ ∃ value, value? b = some value := by
  rw [IsDigitByte, IsDigit, value?_eq]

theorem not_isDigitByte_iff {b : UInt8} : ¬ IsDigitByte b ↔ value? b = none := by
  rw [isDigitByte_iff, ← Option.isSome_iff_exists, Option.not_isSome_iff_eq_none]

theorem digit_of_digitValue? {c : Char} {value : Nat} (h : digitValue? c = some value) :
    value < 16 ∧ digit value = c.toLower := by
  have hall : ∀ n < 16, digits[n]? = some (digit n) := by decide
  obtain ⟨hlt, hget, -⟩ := List.idxOf?_eq_some_iff.1 h
  have hvalue := hall value hlt
  rw [List.getElem?_eq_getElem hlt, hget] at hvalue
  exact ⟨hlt, (Option.some.inj hvalue).symm⟩

theorem digitValue?_digit {n : Nat} (h : n < 16) : digitValue? (digit n) = some n := by
  have hall : ∀ n < 16, digitValue? (digit n) = some n := by decide
  exact hall n h

theorem IsDigit.ascii {c : Char} (h : IsDigit c) : c.toNat < 128 := by
  have hall : ∀ n < 16, (digit n).toNat < 128 := by decide
  obtain ⟨value, hvalue⟩ := h
  obtain ⟨hlt, hdigit⟩ := digit_of_digitValue? hvalue
  by_contra hnot
  -- only ASCII letters have a lower case
  have hlower : c.toLower = c :=
    dif_neg fun hletter => hnot (Nat.lt_of_le_of_lt hletter.2 (by decide))
  rw [← hlower, ← hdigit] at hnot
  exact hnot (hall value hlt)

theorem IsDigitByte.ascii {b : UInt8} (h : IsDigitByte b) : b.toNat < 128 := by
  obtain ⟨value, hvalue⟩ := isDigitByte_iff.1 h
  by_contra hnot
  have hnone : value? b = none := by
    simp only [value?]
    rw [if_neg (by omega), if_neg (by omega), if_neg (by omega)]
  rw [hnone] at hvalue
  cases hvalue

theorem digits_utf8EncodeChar_iff {c : Char} :
    (∀ b ∈ String.utf8EncodeChar c, IsDigitByte b) ↔ IsDigit c := by
  rcases Nat.lt_or_ge c.toNat 128 with hc | hc
  · rw [utf8EncodeChar_of_ascii hc]
    simp only [List.mem_singleton, forall_eq, IsDigitByte, ofNat_toNat_ascii hc]
  · obtain ⟨hne, hbytes⟩ := utf8EncodeChar_of_not_ascii hc
    obtain ⟨b, hb⟩ := List.exists_mem_of_ne_nil _ hne
    exact ⟨fun h => absurd (h b hb).ascii (Nat.not_lt_of_le (hbytes b hb)),
      fun h => absurd h.ascii (Nat.not_lt_of_le hc)⟩

theorem digits_utf8_iff {text : List Char} :
    (∀ b ∈ utf8 text, IsDigitByte b) ↔ ∀ c ∈ text, IsDigit c := by
  rw [utf8, List.forall_mem_flatMap]
  exact forall₂_congr fun c _ => digits_utf8EncodeChar_iff

theorem length_utf8_of_digits {text : List Char} (h : ∀ c ∈ text, IsDigit c) :
    (utf8 text).length = text.length := by
  induction text with
  | nil => rfl
  | cons c text ih =>
    obtain ⟨hc, htext⟩ := List.forall_mem_cons.1 h
    rw [utf8_cons, utf8EncodeChar_of_ascii hc.ascii, List.length_append, ih htext,
      List.length_singleton, List.length_cons, Nat.add_comm]

/-! ### Pairs of digits -/

/-- **Reading pairs gives what they denote.** -/
theorem Denotes.pairs {text : List Char} {bs : Bytes} (h : Denotes text bs) (position : Nat) :
    Hex.pairs position (utf8 text) = .ok bs := by
  induction h generalizing position with
  | nil => rfl
  | @pair hi lo high low text bs hhi hlo _ ih =>
    have hhi' : hi.toNat < 128 := IsDigit.ascii ⟨high, hhi⟩
    have hlo' : lo.toNat < 128 := IsDigit.ascii ⟨low, hlo⟩
    rw [utf8_cons, utf8_cons, utf8EncodeChar_of_ascii hhi', utf8EncodeChar_of_ascii hlo']
    simp only [List.cons_append, List.nil_append, Hex.pairs, value?_eq, ofNat_toNat_ascii hhi',
      ofNat_toNat_ascii hlo', hhi, hlo, ih]

theorem Denotes.length_eq {text : List Char} {bs : Bytes} (h : Denotes text bs) :
    text.length = 2 * bs.length := by
  induction h with
  | nil => rfl
  | pair _ _ _ ih =>
    rw [List.length_cons, List.length_cons, List.length_cons, ih]
    omega

theorem Denotes.digits {text : List Char} {bs : Bytes} (h : Denotes text bs) :
    ∀ c ∈ text, IsDigit c := by
  induction h with
  | nil => exact List.forall_mem_nil _
  | @pair _ _ high low _ _ hhi hlo _ ih =>
    exact List.forall_mem_cons.2 ⟨⟨high, hhi⟩, List.forall_mem_cons.2 ⟨⟨low, hlo⟩, ih⟩⟩

theorem exists_denotes (n : Nat) {text : List Char} (hlength : text.length = 2 * n)
    (hdigits : ∀ c ∈ text, IsDigit c) : ∃ bs, Denotes text bs := by
  induction n generalizing text with
  | zero =>
    rw [List.length_eq_zero_iff.1 hlength]
    exact ⟨[], .nil⟩
  | succ n ih =>
    match text, hlength, hdigits with
    | hi :: lo :: rest, hlength, hdigits =>
      obtain ⟨⟨high, hhi⟩, hdigits⟩ := List.forall_mem_cons.1 hdigits
      obtain ⟨⟨low, hlo⟩, hdigits⟩ := List.forall_mem_cons.1 hdigits
      have hrest : rest.length = 2 * n := by
        simp only [List.length_cons] at hlength
        omega
      obtain ⟨bs, hbs⟩ := ih hrest hdigits
      exact ⟨_, .pair hhi hlo hbs⟩

/-- What is read from an even number of bytes: all of them are digits, or the first that is none is
reported. -/
theorem pairs_cases (n : Nat) (position : Nat) {text : Bytes} (hlength : text.length = 2 * n) :
    (∃ bs, pairs position text = .ok bs) ∧ (∀ b ∈ text, IsDigitByte b) ∨
      ∃ before b after, text = before ++ b :: after ∧ (∀ d ∈ before, IsDigitByte d) ∧
        ¬ IsDigitByte b ∧
        pairs position text = .error (.invalidCharacter b (position + before.length)) := by
  induction n generalizing position text with
  | zero =>
    rw [List.length_eq_zero_iff.1 hlength]
    exact Or.inl ⟨⟨[], rfl⟩, List.forall_mem_nil _⟩
  -- by pairs; the first character of a pair is looked at first
  | succ n ih =>
    match text, hlength with
    | hi :: lo :: rest, hlength =>
      have hrest : rest.length = 2 * n := by
        simp only [List.length_cons] at hlength
        omega
      cases hhi : value? hi with
      | none =>
        refine Or.inr ⟨[], hi, lo :: rest, rfl, List.forall_mem_nil _,
          not_isDigitByte_iff.2 hhi, ?_⟩
        simp only [pairs, hhi, List.length_nil, Nat.add_zero]
      | some high =>
        have hhi' : IsDigitByte hi := isDigitByte_iff.2 ⟨high, hhi⟩
        cases hlo : value? lo with
        | none =>
          refine Or.inr ⟨[hi], lo, rest, rfl, List.forall_mem_singleton.2 hhi',
            not_isDigitByte_iff.2 hlo, ?_⟩
          simp only [pairs, hhi, hlo, List.length_singleton]
        | some low =>
          have hlo' : IsDigitByte lo := isDigitByte_iff.2 ⟨low, hlo⟩
          rcases ih (position + 2) hrest with
            ⟨⟨bs, hbs⟩, hall⟩ | ⟨before, b, after, rfl, hall, hb, herror⟩
          · refine Or.inl ⟨⟨UInt8.ofNat (16 * high + low) :: bs, ?_⟩,
              List.forall_mem_cons.2 ⟨hhi', List.forall_mem_cons.2 ⟨hlo', hall⟩⟩⟩
            simp only [pairs, hhi, hlo, hbs]
          · refine Or.inr ⟨hi :: lo :: before, b, after, rfl,
              List.forall_mem_cons.2 ⟨hhi', List.forall_mem_cons.2 ⟨hlo', hall⟩⟩, hb, ?_⟩
            simp only [pairs, hhi, hlo, herror, List.length_cons]
            rw [show position + 2 + before.length = position + (before.length + 1 + 1) by omega]

/-! ### Whole texts -/

theorem Denotes.unique {text : List Char} {bs bs' : Bytes} (h : Denotes text bs)
    (h' : Denotes text bs') : bs = bs' :=
  Except.ok.inj ((h.pairs 0).symm.trans (h'.pairs 0))

theorem first_unique {before before' after after' : Bytes} {b b' : UInt8}
    (h : before ++ b :: after = before' ++ b' :: after') (hbefore : ∀ d ∈ before, IsDigitByte d)
    (hbefore' : ∀ d ∈ before', IsDigitByte d) (hb : ¬ IsDigitByte b) (hb' : ¬ IsDigitByte b') :
    before = before' ∧ b = b' := by
  induction before generalizing before' with
  | nil =>
    cases before' with
    | nil => exact ⟨rfl, (List.cons_eq_cons.1 h).1⟩
    | cons d _ => exact absurd ((List.cons_eq_cons.1 h).1 ▸ hbefore' d List.mem_cons_self) hb
  | cons d before ih =>
    cases before' with
    | nil => exact absurd ((List.cons_eq_cons.1 h).1 ▸ hbefore d List.mem_cons_self) hb'
    | cons d' before' =>
      obtain ⟨rfl, htail⟩ := List.cons_eq_cons.1 h
      obtain ⟨rfl, rfl⟩ :=
        ih htail (List.forall_mem_cons.1 hbefore).2 (List.forall_mem_cons.1 hbefore').2
      exact ⟨rfl, rfl⟩

namespace Refused

variable {n : Nat} {text : Bytes} {e e' : Error}

theorem unique (h : Refused n text e) (h' : Refused n text e') : e = e' := by
  cases h with
  | odd hodd =>
    cases h' with
    | odd => rfl
    | length => omega
    | character => omega
  | length heven hlength =>
    cases h' with
    | odd => omega
    | length => rfl
    | character => omega
  | character hlength split hbefore hb =>
    cases h' with
    | odd => omega
    | length => omega
    | character _ split' hbefore' hb' =>
      obtain ⟨rfl, rfl⟩ := first_unique (split.symm.trans split') hbefore hbefore' hb hb'
      rfl

theorem not_denotes {text : List Char} {bs : Bytes} (h : Refused n (utf8 text) e)
    (hbs : bs.length = n) : ¬ Denotes text bs := by
  intro hdenotes
  have hlength : (utf8 text).length = 2 * n := by
    rw [length_utf8_of_digits hdenotes.digits, hdenotes.length_eq, hbs]
  cases h with
  | odd => omega
  | length => omega
  | @character _ _ b _ split _ hb =>
    have hmem : b ∈ utf8 text := by
      rw [split]
      exact List.mem_append_right _ List.mem_cons_self
    exact hb (digits_utf8_iff.2 hdenotes.digits b hmem)

end Refused

theorem decode_cases (n : Nat) (text : List Char) :
    (∃ bs, decode n (utf8 text) = .ok bs ∧ Denotes text bs.1) ∨
      ∃ e, decode n (utf8 text) = .error e ∧ Refused n (utf8 text) e := by
  by_cases hodd : (utf8 text).length % 2 ≠ 0
  · exact Or.inr ⟨_, by rw [decode, if_pos hodd], .odd (by omega)⟩
  by_cases hlength : (utf8 text).length / 2 ≠ n
  · refine Or.inr ⟨_, ?_, .length (by omega) (by omega)⟩
    rw [decode, if_neg hodd, dif_pos hlength]
  have hlength' : (utf8 text).length = 2 * n := by omega
  rw [decode, if_neg hodd, dif_neg hlength]
  split
  · rename_i e herror
    rcases pairs_cases n 0 hlength' with
      ⟨⟨bs, hbs⟩, -⟩ | ⟨before, b, after, split, hbefore, hb, hat⟩
    · rw [hbs] at herror
      cases herror
    · rw [hat, Nat.zero_add] at herror
      cases herror
      exact Or.inr ⟨_, rfl, .character hlength' split hbefore hb⟩
  · rename_i bs hbs
    rcases pairs_cases n 0 hlength' with ⟨-, hall⟩ | ⟨_, _, _, _, _, _, hat⟩
    · have hdigits := digits_utf8_iff.1 hall
      rw [length_utf8_of_digits hdigits] at hlength'
      obtain ⟨bs', hbs'⟩ := exists_denotes n hlength' hdigits
      rw [hbs'.pairs 0] at hbs
      cases hbs
      exact Or.inl ⟨_, rfl, hbs'⟩
    · rw [hat] at hbs
      cases hbs

/-- **A text is read as a byte string if it denotes it.** -/
theorem decode_eq_ok_iff {n : Nat} {text : List Char} {bs : { bs : Bytes // bs.length = n }} :
    decode n (utf8 text) = .ok bs ↔ Denotes text bs.1 := by
  rcases decode_cases n text with ⟨bs', heq, hdenotes⟩ | ⟨e, heq, hrefused⟩ <;> rw [heq]
  · constructor
    · intro h
      cases h
      exact hdenotes
    · exact fun h => congrArg Except.ok (Subtype.ext (hdenotes.unique h))
  · exact ⟨fun h => (by cases h), fun h => absurd h (hrefused.not_denotes bs.2)⟩

/-- **A text is refused with the first reason that applies.** -/
theorem decode_eq_error_iff {n : Nat} {text : List Char} {e : Error} :
    decode n (utf8 text) = .error e ↔ Refused n (utf8 text) e := by
  rcases decode_cases n text with ⟨bs, heq, hdenotes⟩ | ⟨e', heq, hrefused⟩ <;> rw [heq]
  · exact ⟨fun h => (by cases h), fun h => absurd hdenotes (h.not_denotes bs.2)⟩
  · constructor
    · intro h
      cases h
      exact hrefused
    · exact fun h => congrArg Except.error (hrefused.unique h)

/-! ### Writing -/

/-- **What is written denotes what was to be written.** -/
theorem denotes_chars (bs : Bytes) : Denotes (chars bs) bs := by
  induction bs with
  | nil => exact .nil
  | cons b bs ih =>
    have hb : b.toNat < 256 := b.toNat_lt
    have hpair := Denotes.pair (digitValue?_digit (show b.toNat / 16 < 16 by omega))
      (digitValue?_digit (show b.toNat % 16 < 16 by omega)) ih
    rwa [Nat.div_add_mod, UInt8.ofNat_toNat] at hpair

theorem Denotes.chars_eq {text : List Char} {bs : Bytes} (h : Denotes text bs) :
    chars bs = text.map Char.toLower := by
  induction h with
  | nil => rfl
  | @pair hi lo high low text bs hhi hlo _ ih =>
    obtain ⟨hhigh, hhi'⟩ := digit_of_digitValue? hhi
    obtain ⟨hlow, hlo'⟩ := digit_of_digitValue? hlo
    have hbyte : (UInt8.ofNat (16 * high + low)).toNat = 16 * high + low := by
      rw [UInt8.toNat_ofNat']
      omega
    have hdiv : (16 * high + low) / 16 = high := by omega
    have hmod : (16 * high + low) % 16 = low := by omega
    rw [chars, List.flatMap_cons, ← chars, ih, hbyte, hdiv, hmod, hhi', hlo']
    rfl

end Hex

end LedgerChain
