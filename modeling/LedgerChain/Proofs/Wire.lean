import LedgerChain.Wire
import Mathlib.Algebra.Group.Nat.Defs

/-!
# Canonical binary forms

A decoder **reads** what an encoder writes if it takes a value off the front of a byte string exactly
where the binary form of that value stands (`Wire.Reads`).  This is two laws in one: what was written
is read back, whatever follows it, and what was read had been written so, which leaves no second form
for any value.  It is a law of values that fit the format, since the length of a byte string or list
has four bytes.

Integers, buffers, byte strings and lists are canonical in this sense (`Wire.Canonical`), and so are
records of canonical parts (`Reads.record`, `Reads.bind_eq_ok_iff`).

* `Canonical.oneForm` : a byte string decodes to a value if and only if it is its form.
* `Reads.append_inj` : of forms that follow each other, each can be told.
-/

namespace LedgerChain

namespace Bytes

theorem toNatLE_ofNatLE (width n : Nat) : toNatLE (ofNatLE width n) = n % 256 ^ width := by
  induction width generalizing n with
  | zero => simp [ofNatLE, toNatLE, Nat.mod_one]
  | succ width ih =>
    have hb : (UInt8.ofNat n).toNat = n % 256 := UInt8.toNat_ofNat'
    rw [ofNatLE, toNatLE, ih, hb, Nat.pow_succ', Nat.mod_mul]

theorem toNatLE_lt (bs : Bytes) : toNatLE bs < 256 ^ bs.length := by
  have h := toNatLE_ofNatLE bs.length (toNatLE bs)
  rw [ofNatLE_toNatLE] at h
  rw [h]
  exact Nat.mod_lt _ (Nat.pow_pos (by decide))

end Bytes

namespace Wire

/-- The lengths of byte strings and lists are written in four bytes, and so stay below this. -/
def lengthLimit : Nat := 256 ^ 4

variable {α β : Type} {d : Decoder α} {f : α → Decoder β} {fits : α → Prop} {write : α → Bytes}
  {input rest : Bytes} {a a' : α} {b : β}

/-! ### Steps of a decoder -/

theorem pure_eq_ok_iff :
    (pure a : Decoder α) input = .ok (a', rest) ↔ a = a' ∧ input = rest := by
  show Except.ok (a, input) = Except.ok (a', rest) ↔ _
  rw [Except.ok.injEq, Prod.mk.injEq]

theorem bind_eq_ok_iff :
    (d >>= f) input = .ok (b, rest) ↔
      ∃ a mid, d input = .ok (a, mid) ∧ f a mid = .ok (b, rest) := by
  show Except.bind (d input) (fun p => f p.1 p.2) = .ok (b, rest) ↔ _
  cases d input with
  | error e => simp [Except.bind]
  | ok p =>
    obtain ⟨a, mid⟩ := p
    constructor
    · exact fun h => ⟨a, mid, rfl, h⟩
    · rintro ⟨a', mid', heq, h⟩
      cases heq
      exact h

theorem map_eq_ok_iff {g : α → β} :
    (g <$> d) input = .ok (b, rest) ↔ ∃ a, d input = .ok (a, rest) ∧ g a = b := by
  show (d >>= fun a => pure (g a)) input = .ok (b, rest) ↔ _
  simp only [bind_eq_ok_iff, pure_eq_ok_iff]
  constructor
  · rintro ⟨a, mid, h, hb, rfl⟩
    exact ⟨a, h, hb⟩
  · rintro ⟨a, h, hb⟩
    exact ⟨a, rest, h, hb, rfl⟩

theorem fail_ne_ok {e : WireError} {p : α × Bytes} : (fail e : Decoder α) input ≠ .ok p := by
  intro h
  cases h

/-! ### Reading what was written -/

/-- The decoder takes a value off the front of a byte string if and only if the value fits and its
binary form is what stands there. -/
def Reads (d : Decoder α) (fits : α → Prop) (write : α → Bytes) : Prop :=
  ∀ (input : Bytes) (a : α) (rest : Bytes),
    d input = .ok (a, rest) ↔ fits a ∧ input = write a ++ rest

namespace Reads

theorem bind_eq_ok_iff (h : Reads d fits write) :
    (d >>= f) input = .ok (b, rest) ↔
      ∃ a mid, fits a ∧ input = write a ++ mid ∧ f a mid = .ok (b, rest) := by
  simp only [Wire.bind_eq_ok_iff, h _ _ _, and_assoc]

theorem map_eq_ok_iff {g : α → β} (h : Reads d fits write) :
    (g <$> d) input = .ok (b, rest) ↔ ∃ a, fits a ∧ input = write a ++ rest ∧ g a = b := by
  simp only [Wire.map_eq_ok_iff, h _ _ _, and_assoc]

theorem map {g : α → β} {g' : β → α} (h : Reads d fits write) (hleft : ∀ a, fits a → g' (g a) = a)
    (hright : ∀ b, g (g' b) = b) :
    Reads (g <$> d) (fun b => fits (g' b)) fun b => write (g' b) := by
  intro input b rest
  rw [h.map_eq_ok_iff]
  constructor
  · rintro ⟨a, ha, hinput, rfl⟩
    simp only [hleft a ha]
    exact ⟨ha, hinput⟩
  · rintro ⟨ha, hinput⟩
    exact ⟨g' b, ha, hinput, hright b⟩

theorem both_eq_ok_iff {γ : Type} {d' : Decoder β} {fits' : β → Prop} {write' : β → Bytes}
    {mk : α → β → γ} {c : γ} (h : Reads d fits write) (h' : Reads d' fits' write') :
    (do let a ← d; let b ← d'; pure (mk a b)) input = .ok (c, rest) ↔
      ∃ a b, fits a ∧ fits' b ∧ input = write a ++ (write' b ++ rest) ∧ mk a b = c := by
  simp only [h.bind_eq_ok_iff, h'.bind_eq_ok_iff, pure_eq_ok_iff]
  constructor
  · rintro ⟨a, -, ha, rfl, b, -, hb, rfl, rfl, rfl⟩
    exact ⟨a, b, ha, hb, rfl, rfl⟩
  · rintro ⟨a, b, ha, hb, rfl, rfl⟩
    exact ⟨a, _, ha, rfl, b, rest, hb, rfl, rfl, rfl⟩

theorem record {γ : Type} {d' : Decoder β} {fits' : β → Prop} {write' : β → Bytes}
    {mk : α → β → γ} {left : γ → α} {right : γ → β} (h : Reads d fits write)
    (h' : Reads d' fits' write') (hparts : ∀ a b, left (mk a b) = a ∧ right (mk a b) = b)
    (hmk : ∀ c, mk (left c) (right c) = c) :
    Reads (do let a ← d; let b ← d'; pure (mk a b)) (fun c => fits (left c) ∧ fits' (right c))
      fun c => write (left c) ++ write' (right c) := by
  intro input c rest
  rw [h.both_eq_ok_iff h', List.append_assoc]
  constructor
  · rintro ⟨a, b, ha, hb, rfl, rfl⟩
    simp only [(hparts a b).1, (hparts a b).2, ha, hb, and_self]
  · rintro ⟨⟨ha, hb⟩, rfl⟩
    exact ⟨left c, right c, ha, hb, rfl, hmk c⟩

/-- **A form can be told from what follows it.** -/
theorem append_inj {rest' : Bytes} (h : Reads d fits write) (ha : fits a) (ha' : fits a')
    (heq : write a ++ rest = write a' ++ rest') : a = a' ∧ rest = rest' := by
  have hread := (h _ a rest).2 ⟨ha, rfl⟩
  rw [(h _ a' rest').2 ⟨ha', heq⟩, Except.ok.injEq, Prod.mk.injEq] at hread
  exact ⟨hread.1.symm, hread.2.symm⟩

/-- **Different values have different forms.** -/
theorem write_inj (h : Reads d fits write) (ha : fits a) (ha' : fits a')
    (heq : write a = write a') : a = a' :=
  (h.append_inj ha ha' (congrArg (· ++ []) heq)).1

theorem congr_fits {fits' : α → Prop} (h : Reads d fits write) (hfits : ∀ a, fits a ↔ fits' a) :
    Reads d fits' write := by
  intro input a rest
  rw [h input a rest, hfits]

end Reads

theorem reads_takeBytes (n : Nat) : Reads (takeBytes n) (fun bs => bs.length = n) id := by
  intro input bs rest
  simp only [takeBytes]
  constructor
  · intro h
    split at h
    · rename_i hlength
      cases h
      exact ⟨hlength, (List.take_append_drop n input).symm⟩
    · cases h
  · rintro ⟨rfl, rfl⟩
    simp

theorem reads_takeNat (width : Nat) :
    Reads (takeNat width) (fun n => n < 256 ^ width) (Bytes.ofNatLE width) := by
  intro input n rest
  rw [takeNat, (reads_takeBytes width).map_eq_ok_iff]
  constructor
  · rintro ⟨bs, rfl, rfl, rfl⟩
    exact ⟨Bytes.toNatLE_lt bs, by rw [Bytes.ofNatLE_toNatLE, id_eq]⟩
  · rintro ⟨hn, rfl⟩
    refine ⟨_, Bytes.length_ofNatLE width n, rfl, ?_⟩
    rw [Bytes.toNatLE_ofNatLE, Nat.mod_eq_of_lt hn]

theorem reads_decodeTimes [Wire α] (h : Reads (decoder : Decoder α) fits encode) (n : Nat) :
    Reads (decodeTimes n) (fun as => as.length = n ∧ ∀ a ∈ as, fits a)
      fun as : List α => as.flatMap encode := by
  induction n with
  | zero =>
    intro input as rest
    rw [decodeTimes, pure_eq_ok_iff]
    constructor
    · rintro ⟨rfl, rfl⟩
      exact ⟨⟨rfl, fun a ha => by cases ha⟩, rfl⟩
    · rintro ⟨⟨hlength, -⟩, rfl⟩
      rw [List.length_eq_zero_iff] at hlength
      subst hlength
      exact ⟨rfl, rfl⟩
  | succ n ih =>
    intro input as rest
    rw [decodeTimes]
    -- one element is read, and then the others
    simp only [h.bind_eq_ok_iff, ih.bind_eq_ok_iff, pure_eq_ok_iff]
    constructor
    · rintro ⟨a, -, ha, rfl, as, -, ⟨hlength, has⟩, rfl, rfl, rfl⟩
      refine ⟨⟨congrArg (· + 1) hlength, List.forall_mem_cons.2 ⟨ha, has⟩⟩, ?_⟩
      rw [List.flatMap_cons, List.append_assoc]
    · rintro ⟨⟨hlength, hall⟩, rfl⟩
      obtain ⟨a, as, rfl⟩ := List.exists_cons_of_length_eq_add_one hlength
      obtain ⟨ha, has⟩ := List.forall_mem_cons.1 hall
      refine ⟨a, _, ha, ?_, as, rest, ⟨Nat.succ.inj hlength, has⟩, rfl, rfl, rfl⟩
      rw [List.flatMap_cons, List.append_assoc]

/-- What fits into a list: not too many elements, which all fit. -/
def ListFits (fits : α → Prop) (as : List α) : Prop :=
  as.length < lengthLimit ∧ ∀ a ∈ as, fits a

instance {as : List α} [DecidablePred fits] : Decidable (ListFits fits as) :=
  inferInstanceAs (Decidable (as.length < lengthLimit ∧ ∀ a ∈ as, fits a))

theorem reads_decodeList [Wire α] (h : Reads (decoder : Decoder α) fits encode) :
    Reads decodeList (ListFits fits) (encodeList : List α → Bytes) := by
  intro input as rest
  rw [decodeList]
  simp only [(reads_takeNat 4).bind_eq_ok_iff, reads_decodeTimes h _ _ _ _]
  constructor
  · rintro ⟨n, -, hn, rfl, ⟨rfl, has⟩, rfl⟩
    exact ⟨⟨hn, has⟩, (List.append_assoc ..).symm⟩
  · rintro ⟨⟨hn, has⟩, rfl⟩
    exact ⟨as.length, _, hn, List.append_assoc .., ⟨rfl, has⟩, rfl⟩

/-! ### Canonical types -/

theorem decode_eq_ok_iff [Wire α] :
    (decode input : Except WireError α) = .ok a ↔
      (decoder : Decoder α) input = .ok (a, []) := by
  rw [decode]
  split
  · rename_i e heq
    simp [heq]
  · rename_i a' heq
    simp [heq]
  · rename_i a' b bs heq
    simp [heq]

/-- Decoding and encoding undo each other: the form of every value that fits is decoded to that
value, and a byte string that is decoded to a value is its form. -/
def OneForm {ε : Type} (decode : Bytes → Except ε α) (fits : α → Prop) (encode : α → Bytes) : Prop :=
  ∀ (input : Bytes) (a : α), decode input = .ok a ↔ fits a ∧ input = encode a

/-- The binary forms of the values that fit are read where they stand, and nothing else is. -/
def Canonical (α : Type) [Wire α] (fits : α → Prop) : Prop :=
  Reads (decoder : Decoder α) fits encode

namespace Canonical

variable [Wire α]

/-- **A byte string decodes to a value if and only if it is the form of that value.** -/
theorem oneForm (h : Canonical α fits) :
    OneForm (decode : Bytes → Except WireError α) fits encode := by
  intro input a
  rw [decode_eq_ok_iff, h input a [], List.append_nil]

theorem decode_encode (h : Canonical α fits) (ha : fits a) :
    (decode (encode a) : Except WireError α) = .ok a :=
  (h.oneForm _ a).2 ⟨ha, rfl⟩

end Canonical

theorem canonical_of_width [Wire α] {width : Nat} {toNat : α → Nat} {ofNat : Nat → α}
    (hlt : ∀ a, toNat a < 256 ^ width) (hinv : ∀ a, ofNat (toNat a) = a)
    (hinv' : ∀ n, n < 256 ^ width → toNat (ofNat n) = n)
    (henc : ∀ a, encode a = Bytes.ofNatLE width (toNat a))
    (hdec : (decoder : Decoder α) = ofNat <$> takeNat width) : Canonical α fun _ => True := by
  have hread := ((reads_takeNat width).map hinv' hinv).congr_fits fun a =>
    ⟨fun _ => trivial, fun _ => hlt a⟩
  rw [Canonical, hdec, funext henc]
  exact hread

theorem canonical_uInt8 : Canonical UInt8 fun _ => True :=
  canonical_of_width (fun n => n.toNat_lt) (fun _ => UInt8.ofNat_toNat)
    (fun _ hn => UInt8.toNat_ofNat_of_lt' hn) (fun _ => rfl) rfl

theorem canonical_uInt16 : Canonical UInt16 fun _ => True :=
  canonical_of_width (fun n => n.toNat_lt) (fun _ => UInt16.ofNat_toNat)
    (fun _ hn => UInt16.toNat_ofNat_of_lt' hn) (fun _ => rfl) rfl

theorem canonical_uInt32 : Canonical UInt32 fun _ => True :=
  canonical_of_width (fun n => n.toNat_lt) (fun _ => UInt32.ofNat_toNat)
    (fun _ hn => UInt32.toNat_ofNat_of_lt' hn) (fun _ => rfl) rfl

theorem canonical_uInt64 : Canonical UInt64 fun _ => True :=
  canonical_of_width (fun n => n.toNat_lt) (fun _ => UInt64.ofNat_toNat)
    (fun _ hn => UInt64.toNat_ofNat_of_lt' hn) (fun _ => rfl) rfl

theorem tag_eq_ok_iff {f : UInt8 → Decoder β} :
    ((decoder : Decoder UInt8) >>= f) input = .ok (b, rest) ↔
      ∃ tag mid, input = tag :: mid ∧ f tag mid = .ok (b, rest) := by
  have hform : ∀ tag : UInt8, encode tag = [tag] := fun tag => by
    show [UInt8.ofNat tag.toNat] = [tag]
    rw [UInt8.ofNat_toNat]
  simp only [canonical_uInt8.bind_eq_ok_iff, hform, true_and, List.singleton_append]

theorem canonical_buffer (n : Nat) : Canonical (Buffer n) fun _ => True := by
  intro input b rest
  show (takeBytes n >>= fun bs =>
    if h : bs.length = n then pure (Buffer.mk bs h) else fail .unexpectedEnd) input = _ ↔ _
  simp only [(reads_takeBytes n).bind_eq_ok_iff, id_eq, true_and]
  constructor
  · rintro ⟨bs, mid, hlength, rfl, h⟩
    rw [dif_pos hlength, pure_eq_ok_iff] at h
    obtain ⟨rfl, rfl⟩ := h
    rfl
  · rintro rfl
    refine ⟨b.toList, rest, b.length_toList, rfl, ?_⟩
    rw [dif_pos b.length_toList, pure_eq_ok_iff]
    exact ⟨rfl, rfl⟩

theorem canonical_bytes : Canonical Bytes fun bs => bs.length < lengthLimit := by
  intro input bs rest
  show (takeNat 4 >>= takeBytes) input = _ ↔ _
  simp only [(reads_takeNat 4).bind_eq_ok_iff, reads_takeBytes _ _ _ _, id_eq]
  constructor
  · rintro ⟨n, -, hn, rfl, rfl, rfl⟩
    exact ⟨hn, (List.append_assoc ..).symm⟩
  · rintro ⟨hn, rfl⟩
    exact ⟨bs.length, _, hn, List.append_assoc .., rfl, rfl⟩

theorem canonical_pair [Wire α] [Wire β] {fits' : β → Prop} (h : Canonical α fits)
    (h' : Canonical β fits') : Canonical (α × β) fun p => fits p.1 ∧ fits' p.2 :=
  h.record h' (fun _ _ => ⟨rfl, rfl⟩) fun _ => rfl

end Wire

end LedgerChain
