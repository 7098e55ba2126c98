import LedgerChain.Proofs.Execution.Select
import LedgerChain.Proofs.State.Totals
import LedgerChain.Proofs.Wire
import Mathlib.Data.Set.Finite.List

/-!
# Conservation of supply

The balances are the entries under the keys set aside for them, and the **supply** is what all of
them are worth together.  If all these keys are those of accounts, with values of eight bytes, then the
supply is the sum of the balances of all accounts (`supply_eq_finsum`).  Sums are sums of natural
numbers, so a balance that wrapped around would show.

A call mints, burns and pays so much, in all and for each account; that is all that its writes do to
the balances (`accounted_callWrites`).  What single extrinsics do adds up over a block
(`accounted_run`).

* `Execution.toNat_of_balance` : a balance that can be read is what the account holds.
* `Execution.count_balanceWrite` : a balance is worth its amount, also the empty one, which has no
  entry.
* `Accounted.trans` : payments add up.
-/

namespace LedgerChain

instance {n : Nat} : Finite (Buffer n) := by
  have hbytes : Finite UInt8 :=
    Finite.of_injective (fun b : UInt8 => (⟨b.toNat, b.toNat_lt⟩ : Fin 256))
      fun a b h => UInt8.toNat_inj.1 (congrArg Fin.val h)
  have hlists : Finite {bs : Bytes // bs.length = n} := List.finite_length_eq UInt8 n
  exact Finite.of_injective (fun b : Buffer n => (⟨b.toList, b.length_toList⟩ : {bs : Bytes //
    bs.length = n})) fun a b h => Buffer.ext (congrArg Subtype.val h)

/-! ### Balances in a map of entries -/

section Keys

variable {k : Bytes} {account other : Account}

theorem isReservedKey_iff : isReservedKey k = true ↔ ∃ rest, k = balanceMark ++ rest := by
  rw [isReservedKey, List.isPrefixOf_iff_prefix]
  exact ⟨fun ⟨rest, h⟩ => ⟨rest, h.symm⟩, fun ⟨rest, h⟩ => ⟨rest, h.symm⟩⟩

theorem isReservedKey_balanceKey (account : Account) :
    isReservedKey (balanceKey account) = true :=
  isReservedKey_iff.2 ⟨_, rfl⟩

theorem length_balanceKey (account : Account) : (balanceKey account).length = 36 := by
  rw [balanceKey, List.length_append, account.length_toList]
  rfl

theorem balanceKey_inj : balanceKey account = balanceKey other ↔ account = other :=
  ⟨fun h => Buffer.ext (List.append_cancel_left h), congrArg balanceKey⟩

theorem exists_account (h : isReservedKey k = true) (hlength : k.length = 36) :
    ∃ account, k = balanceKey account := by
  obtain ⟨rest, rfl⟩ := isReservedKey_iff.1 h
  rw [List.length_append] at hlength
  exact ⟨⟨rest, Nat.add_left_cancel (hlength.trans (rfl : 36 = balanceMark.length + 32))⟩, rfl⟩

end Keys

/-- What a value is worth as a balance. -/
def worth (raw : Bytes) : Nat :=
  match (Wire.decode raw : Except WireError UInt64) with
  | .ok amount => amount.toNat
  | .error _ => 0

theorem worth_encode (amount : UInt64) : worth (Wire.encode amount) = amount.toNat := by
  rw [worth, Wire.canonical_uInt64.decode_encode trivial]

theorem exists_decode {raw : Bytes} (h : raw.length = 8) :
    ∃ amount : UInt64, (Wire.decode raw : Except WireError UInt64) = .ok amount := by
  have hlt := Bytes.toNatLE_lt raw
  rw [h] at hlt
  have hform : raw = Wire.encode (UInt64.ofNat (Bytes.toNatLE raw)) := by
    show raw = Bytes.ofNatLE 8 (UInt64.ofNat (Bytes.toNatLE raw)).toNat
    rw [UInt64.toNat_ofNat_of_lt' hlt, ← h, Bytes.ofNatLE_toNatLE]
  exact ⟨_, (Wire.canonical_uInt64.oneForm _ _).2 ⟨trivial, hform⟩⟩

/-- What an entry is worth; only those under keys set aside for balances are worth anything. -/
def entryWorth (k raw : Bytes) : Nat := if isReservedKey k then worth raw else 0

theorem count_entryWorth_raw {k : Bytes} (h : isReservedKey k = false) (v : Option Bytes) :
    Entries.count entryWorth k v = 0 := by
  cases v with
  | none => rfl
  | some raw =>
    show entryWorth k raw = 0
    rw [entryWorth, h, if_neg Bool.false_ne_true]

namespace Entries

/-- What all balances are worth together. -/
def supply (m : Entries) : Nat := m.total entryWorth

/-- What an account holds. -/
def held (m : Entries) (account : Account) : Nat := m.share entryWorth (balanceKey account)

/-- All keys set aside for balances are as long as an account's key, with values of eight bytes. -/
def WellKept (m : Entries) : Prop :=
  ∀ k raw, m.find? k = some raw → isReservedKey k = true → k.length = 36 ∧ raw.length = 8

variable {m : Entries} {w : Write}

theorem WellKept.apply (h : m.WellKept)
    (hw : w.Leaves fun k raw => isReservedKey k = true → k.length = 36 ∧ raw.length = 8) :
    (w.apply m).WellKept :=
  All.apply h hw

theorem wellKept_empty : Entries.empty.WellKept := by
  intro k raw h
  cases h

end Entries

/-! ### Payments -/

/-- One map of entries comes from another by payments: so much is minted and burned, and paid into
every account and out of it. -/
structure Accounted (m m' : Entries) (minted burned : Nat) (paidIn paidOut : Account → Nat) :
    Prop where
  wellKept : m.WellKept → m'.WellKept
  supply_eq : m'.supply + burned = m.supply + minted
  held_eq : ∀ account, m'.held account + paidOut account = m.held account + paidIn account

namespace Accounted

variable {m m₁ m' : Entries} {minted minted' burned burned' : Nat}
  {paidIn paidIn' paidOut paidOut' : Account → Nat}

theorem refl (m : Entries) : Accounted m m 0 0 (fun _ => 0) fun _ => 0 :=
  ⟨id, rfl, fun _ => rfl⟩

theorem trans (h : Accounted m m₁ minted burned paidIn paidOut)
    (h' : Accounted m₁ m' minted' burned' paidIn' paidOut') :
    Accounted m m' (minted + minted') (burned + burned') (fun a => paidIn a + paidIn' a)
      fun a => paidOut a + paidOut' a where
  wellKept hm := h'.wellKept (h.wellKept hm)
  supply_eq := by
    have := h.supply_eq
    have := h'.supply_eq
    omega
  held_eq a := by
    have := h.held_eq a
    have := h'.held_eq a
    omega

/-- **A write to a key that is not set aside for balances pays nothing.** -/
theorem raw {w : Write} (h : isReservedKey w.key = false) (m : Entries) :
    Accounted m (w.apply m) 0 0 (fun _ => 0) fun _ => 0 where
  wellKept hm := hm.apply fun _ _ hreserved => by
    rw [h] at hreserved
    cases hreserved
  supply_eq := by
    have htotal := Entries.total_apply entryWorth w m
    rwa [Entries.share, count_entryWorth_raw h, count_entryWorth_raw h] at htotal
  held_eq account := by
    have hne : balanceKey account ≠ w.key := by
      intro heq
      rw [← heq, isReservedKey_balanceKey] at h
      cases h
    rw [Entries.held, Entries.share_apply, if_neg hne]
    rfl

end Accounted

namespace Execution

variable {s s' m : State} {account : Account} {amount new old : UInt64}

@[simp] theorem key_balanceWrite (account : Account) (amount : UInt64) :
    (balanceWrite account amount).key = balanceKey account := by
  rw [balanceWrite]
  split <;> rfl

theorem value?_balanceWrite (account : Account) (amount : UInt64) :
    (balanceWrite account amount).value? =
      if amount = 0 then none else some (Wire.encode amount) := by
  rw [balanceWrite]
  split <;> rfl

/-- A balance is worth its amount, also the empty one, which has no entry. -/
theorem count_balanceWrite (account : Account) (amount : UInt64) :
    Entries.count entryWorth (balanceKey account) (balanceWrite account amount).value? =
      amount.toNat := by
  rw [value?_balanceWrite]
  split
  · rename_i hzero
    rw [hzero]
    rfl
  · show entryWorth (balanceKey account) (Wire.encode amount) = amount.toNat
    rw [entryWorth, if_pos (isReservedKey_balanceKey account), worth_encode]

/-- **The write of a balance puts it in place of the old one**, and the supply changes as it does. -/
theorem held_balanceWrite (m : Entries) (account : Account) (amount : UInt64) (other : Account) :
    ((balanceWrite account amount).apply m).held other =
      if other = account then amount.toNat else m.held other := by
  simp only [Entries.held, Entries.share_apply, key_balanceWrite, balanceKey_inj,
    count_balanceWrite]

theorem supply_balanceWrite (m : Entries) (account : Account) (amount : UInt64) :
    ((balanceWrite account amount).apply m).supply + m.held account = m.supply + amount.toNat := by
  have htotal := Entries.total_apply entryWorth (balanceWrite account amount) m
  rwa [key_balanceWrite, count_balanceWrite] at htotal

theorem wellKept_balanceWrite {m : Entries} (h : m.WellKept) (account : Account)
    (amount : UInt64) : ((balanceWrite account amount).apply m).WellKept := by
  refine h.apply fun raw hraw _ => ?_
  rw [value?_balanceWrite] at hraw
  split at hraw
  · cases hraw
  · cases hraw
    exact ⟨by rw [key_balanceWrite, length_balanceKey], Bytes.length_ofNatLE 8 amount.toNat⟩

theorem accounted_balanceWrite {up down : Nat} (m : Entries)
    (h : new.toNat + down = m.held account + up) :
    Accounted m ((balanceWrite account new).apply m) up down
      (fun a => if account = a then up else 0) fun a => if account = a then down else 0 where
  wellKept hm := wellKept_balanceWrite hm account new
  supply_eq := by
    have := supply_balanceWrite m account new
    omega
  held_eq a := by
    rw [held_balanceWrite]
    by_cases ha : account = a
    · rw [if_pos ha.symm, if_pos ha, if_pos ha, ← ha]
      exact h
    · rw [if_neg (Ne.symm ha), if_neg ha, if_neg ha]

/-! ### Reading balances -/

theorem toNat_of_balance (h : balance s account = .ok old) :
    old.toNat = s.entries.held account := by
  rw [Entries.held, Entries.share, show s.entries.find? (balanceKey account) =
    s.find? (balanceKey account) from rfl]
  rw [balance] at h
  split at h
  · rename_i hnone
    cases h
    rw [hnone]
    rfl
  · rename_i raw hraw
    rw [hraw]
    show old.toNat = entryWorth (balanceKey account) raw
    rw [entryWorth, if_pos (isReservedKey_balanceKey account), worth]
    split at h
    · cases h
    · rename_i held hheld
      cases h
      rw [hheld]

/-- **All balances of a well-kept state can be read.** -/
theorem exists_balance (h : s.entries.WellKept) (account : Account) :
    ∃ held, balance s account = .ok held := by
  cases hraw : s.find? (balanceKey account) with
  | none => exact ⟨0, by simp only [balance, hraw]⟩
  | some raw =>
    obtain ⟨amount, hamount⟩ := exists_decode (h _ raw hraw (isReservedKey_balanceKey account)).2
    exact ⟨amount, by simp only [balance, hraw, hamount]⟩

theorem sum_eq_finsum {rows : List (Bytes × Bytes)} (hsorted : rows.Pairwise fun p q => p.1 < q.1)
    (hkept : ∀ p ∈ rows, isReservedKey p.1 = true → p.1.length = 36) :
    (rows.map fun p => entryWorth p.1 p.2).sum =
      ∑ᶠ account, Entries.count entryWorth (balanceKey account)
        (Entries.findPair (balanceKey account) rows) := by
  induction rows with
  | nil => exact finsum_zero.symm
  | cons r rest ih =>
    obtain ⟨k, v⟩ := r
    obtain ⟨hall, hrest⟩ := List.pairwise_cons.1 hsorted
    -- every account has a share in the first pair, and one in the others
    have hsplit : ∀ account, Entries.count entryWorth (balanceKey account)
          (Entries.findPair (balanceKey account) ((k, v) :: rest)) =
        (if k = balanceKey account then entryWorth k v else 0) +
          Entries.count entryWorth (balanceKey account)
            (Entries.findPair (balanceKey account) rest) := by
      intro account
      by_cases hk : k = balanceKey account
      · rw [if_pos hk, ← hk, Entries.count_cons_self, Entries.count_of_lt hall, Nat.add_zero]
      · rw [if_neg hk, Entries.count_cons_of_ne hk, Nat.zero_add]
    have hfirst : ∑ᶠ account, (if k = balanceKey account then entryWorth k v else 0) =
        entryWorth k v := by
      by_cases hreserved : isReservedKey k = true
      · obtain ⟨owner, rfl⟩ :=
          exists_account hreserved (hkept _ List.mem_cons_self hreserved)
        rw [finsum_eq_single _ owner fun other hne => if_neg fun heq =>
          hne (balanceKey_inj.1 heq).symm, if_pos rfl]
      · rw [entryWorth, if_neg hreserved]
        simp only [ite_self, finsum_zero]
    simp only [hsplit]
    rw [finsum_add_distrib (Set.toFinite _) (Set.toFinite _), hfirst, List.map_cons, List.sum_cons,
      ih hrest fun p hp => hkept p (List.mem_cons_of_mem _ hp)]

/-- **The supply of a well-kept state is the sum of all balances.** -/
theorem supply_eq_finsum (h : s.entries.WellKept) :
    s.entries.supply = ∑ᶠ account, ((balance s account).toOption.map UInt64.toNat).getD 0 := by
  have hbalance : ∀ account, ((balance s account).toOption.map UInt64.toNat).getD 0 =
      s.entries.held account := by
    intro account
    obtain ⟨held, hheld⟩ := exists_balance h account
    rw [hheld, ← toNat_of_balance hheld]
    rfl
  simp only [hbalance]
  refine sum_eq_finsum s.entries.sorted fun p hp hreserved => ?_
  exact (h p.1 p.2 (Entries.findPair_of_mem s.entries.distinct hp) hreserved).1

theorem toNat_of_credit (h : credit account old amount = .ok new) :
    new.toNat = old.toNat + amount.toNat := by
  obtain ⟨hfits, rfl⟩ := credit_eq_ok_iff.1 h
  rw [UInt64.toNat_add]
  exact Nat.mod_eq_of_lt hfits

theorem toNat_of_debit (h : debit account old amount = .ok new) :
    new.toNat + amount.toNat = old.toNat := by
  obtain ⟨hle, rfl⟩ := debit_eq_ok_iff.1 h
  rw [UInt64.toNat_sub_of_le _ _ (UInt64.le_iff_toNat_le.2 hle)]
  exact Nat.sub_add_cancel hle

end Execution

/-! ### Calls -/

namespace Call

/-- What a call adds to the supply. -/
def minted : Call → Nat
  | mint _ amount => amount.toNat
  | _ => 0

/-- What a call takes from the supply. -/
def burned : Call → Nat
  | burn _ amount => amount.toNat
  | _ => 0

/-- What a call pays into an account. -/
def paidIn (account : Account) : Call → Nat
  | mint target amount | transfer _ target amount => if target = account then amount.toNat else 0
  | _ => 0

/-- What a call pays out of an account. -/
def paidOut (account : Account) : Call → Nat
  | burn source amount | transfer source _ amount => if source = account then amount.toNat else 0
  | _ => 0

end Call

namespace Execution

variable {s s' : State} {call : Call} {batch : WriteBatch}

/-- **A call that succeeds does to the balances what it says**, and nothing else. -/
theorem accounted_callWrites (h : CallWrites s call batch) :
    Accounted s.entries (batch.apply s).entries call.minted call.burned (fun a => call.paidIn a)
      fun a => call.paidOut a := by
  cases h with
  | @set key value _ hraw _ => exact .raw (w := .put key value) hraw s.entries
  | @remove key _ hraw _ => exact .raw (w := .delete key) hraw s.entries
  | @mint account amount old new _ hold hnew =>
    have hheld : new.toNat + 0 = s.entries.held account + amount.toNat := by
      rw [← toNat_of_balance hold]
      exact toNat_of_credit hnew
    have hpaid := accounted_balanceWrite s.entries hheld
    simp only [ite_self] at hpaid
    exact hpaid
  | @burn account amount old new _ hold hnew =>
    have hheld : new.toNat + amount.toNat = s.entries.held account + 0 := by
      rw [← toNat_of_balance hold]
      exact toNat_of_debit hnew
    have hpaid := accounted_balanceWrite s.entries hheld
    simp only [ite_self] at hpaid
    exact hpaid
  | payOneself _ _ _ =>
    -- nothing is written, and as much goes in as goes out
    exact ⟨id, rfl, fun _ => rfl⟩
  | @transfer source target amount old new old' new' _ hne hold hnew hold' hnew' =>
    have hout : new.toNat + amount.toNat = s.entries.held source + 0 := by
      rw [← toNat_of_balance hold]
      exact toNat_of_debit hnew
    -- the balance of the target was read before the source was written
    have hin : new'.toNat + 0 =
        ((balanceWrite source new).apply s.entries).held target + amount.toNat := by
      rw [held_balanceWrite, if_neg (Ne.symm hne), ← toNat_of_balance hold']
      exact toNat_of_credit hnew'
    have hpaid := (accounted_balanceWrite s.entries hout).trans (accounted_balanceWrite _ hin)
    simp only [ite_self, Nat.zero_add, Nat.add_zero] at hpaid
    exact ⟨hpaid.wellKept, Nat.add_right_cancel hpaid.supply_eq, hpaid.held_eq⟩

end Execution

/-! ### Extrinsics and blocks -/

/-- What an extrinsic amounts to, if it carries a call. -/
def Extrinsic.amount (f : Call → Nat) (x : Extrinsic) : Nat :=
  match x.call with
  | .ok call => f call
  | .error _ => 0

/-- What extrinsics amount to together. -/
def amountOf (f : Call → Nat) (xs : List Extrinsic) : Nat := (xs.map fun x => x.amount f).sum

namespace Execution

variable {s s' : State} {x : Extrinsic} {xs before after : List Extrinsic} {call : Call}

theorem amount_of_call {f : Call → Nat} (h : x.call = .ok call) : x.amount f = f call := by
  rw [Extrinsic.amount, h]

theorem amountOf_cons (f : Call → Nat) (x : Extrinsic) (xs : List Extrinsic) :
    amountOf f (x :: xs) = x.amount f + amountOf f xs := by
  rw [amountOf, List.map_cons, List.sum_cons, amountOf]

theorem amountOf_append (f : Call → Nat) (xs ys : List Extrinsic) :
    amountOf f (xs ++ ys) = amountOf f xs + amountOf f ys := by
  rw [amountOf, List.map_append, List.sum_append, amountOf, amountOf]

/-- **One extrinsic.** -/
theorem accounted_step (h : step s x = .ok s') :
    Accounted s.entries s'.entries (x.amount Call.minted) (x.amount Call.burned)
      (fun a => x.amount (Call.paidIn a)) fun a => x.amount (Call.paidOut a) := by
  obtain ⟨call, batch, hcall, hbatch, rfl⟩ := step_ok_cases h
  simp only [amount_of_call hcall]
  exact accounted_callWrites hbatch

variable [Crypto]

/-- **A list of extrinsics.** -/
theorem accounted_run {index : Nat} (h : run s index xs = .ok s') :
    Accounted s.entries s'.entries (amountOf Call.minted xs) (amountOf Call.burned xs)
      (fun a => amountOf (Call.paidIn a) xs) fun a => amountOf (Call.paidOut a) xs := by
  induction xs generalizing s index with
  | nil =>
    cases h
    exact .refl _
  | cons x xs ih =>
    obtain ⟨m, hstep, hrest⟩ := run_cons_ok_cases h
    simp only [amountOf_cons]
    exact (accounted_step hstep).trans (ih hrest)

theorem exists_step_of_run {index : Nat} (h : run s index (before ++ x :: after) = .ok s') :
    ∃ m m', run s index before = .ok m ∧ step m x = .ok m' := by
  induction before generalizing s index with
  | nil =>
    obtain ⟨m, hstep, -⟩ := run_cons_ok_cases h
    exact ⟨s, m, rfl, hstep⟩
  | cons y before ih =>
    obtain ⟨s₁, hstep, hrest⟩ := run_cons_ok_cases h
    obtain ⟨m, m', hm, hx⟩ := ih hrest
    exact ⟨m, m', by rw [run, hstep]; exact hm, hx⟩

/-- What an extrinsic does to the balances of a well-kept state. -/
structure Pays (m : State) (x : Extrinsic) (m' : State) : Prop where
  /-- All balances can be read before and after, and none wraps around: sums are exact. -/
  balance_eq : ∀ account, ∃ old new, balance m account = .ok old ∧ balance m' account = .ok new ∧
    new.toNat + x.amount (Call.paidOut account) = old.toNat + x.amount (Call.paidIn account)
  supply_eq :
    m'.entries.supply + x.amount Call.burned = m.entries.supply + x.amount Call.minted
  /-- Whatever neither mints nor burns leaves the supply as it is. -/
  supply_unchanged : (∃ source target amount, x.call = .ok (.transfer source target amount)) ∨
    (∃ k v, x.call = .ok (.set k v)) ∨ (∃ k, x.call = .ok (.remove k)) →
      m'.entries.supply = m.entries.supply

/-- What a list of extrinsics does to the balances of a well-kept state. -/
structure Conserves (s : State) (xs : List Extrinsic) (s' : State) : Prop where
  wellKept : s'.entries.WellKept
  /-- The supply changes by what is minted and burned. -/
  supply_eq : s'.entries.supply + amountOf Call.burned xs = s.entries.supply + amountOf Call.minted xs
  /-- So it does with every extrinsic on the way. -/
  pays : ∀ before x after, xs = before ++ x :: after →
    ∃ m m', run s 0 before = .ok m ∧ m.entries.WellKept ∧ step m x = .ok m' ∧ Pays m x m'

omit [Crypto] in
theorem pays_step (hs : s.entries.WellKept) (h : step s x = .ok s') : Pays s x s' where
  balance_eq account := by
    have hpaid := accounted_step h
    obtain ⟨old, hold⟩ := exists_balance hs account
    obtain ⟨new, hnew⟩ := exists_balance (hpaid.wellKept hs) account
    refine ⟨old, new, hold, hnew, ?_⟩
    rw [toNat_of_balance hold, toNat_of_balance hnew]
    exact hpaid.held_eq account
  supply_eq := (accounted_step h).supply_eq
  supply_unchanged hcall := by
    have hsupply := (accounted_step h).supply_eq
    rcases hcall with ⟨source, target, amount, hcall⟩ | ⟨k, v, hcall⟩ | ⟨k, hcall⟩ <;>
      rwa [amount_of_call hcall, amount_of_call hcall] at hsupply

/-- **A block conserves the supply**, up to what it mints and burns, and so does every extrinsic in
it. -/
theorem conserves_applyAll {output : Output} (hs : s.entries.WellKept)
    (h : applyAll s xs = .ok output) : Conserves s xs output.state := by
  obtain ⟨s₁, hrun, rfl⟩ := applyAll_ok_cases h
  have hpaid := accounted_run hrun
  refine ⟨hpaid.wellKept hs, hpaid.supply_eq, fun before x after hxs => ?_⟩
  subst hxs
  obtain ⟨m, m', hm, hx⟩ := exists_step_of_run hrun
  have hkept := (accounted_run hm).wellKept hs
  exact ⟨m, m', hm, hkept, hx, pays_step hkept hx⟩

end Execution

end LedgerChain
