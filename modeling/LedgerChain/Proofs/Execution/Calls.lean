import LedgerChain.Execution

/-!
# What calls write

A call that succeeds has passed its checks, has read the balances it is about, and writes what it
says (`CallWrites`, `callWrites_ok_cases`); this is all there is to know of it, and enough for it to
succeed (`callWrites_of`).  A call that finds a balance malformed has read one that is
(`exists_balance_of_malformed`).
-/

namespace LedgerChain

namespace Execution

variable {s s' : State} {x : Extrinsic} {call : Call} {batch : WriteBatch} {account : Account}
  {amount old new : UInt64} {k : Bytes} {ε α β : Type}

/-! ### Steps and checks -/

theorem exists_of_bind_eq_ok {x : Except ε α} {f : α → Except ε β} {b : β}
    (h : x >>= f = .ok b) : ∃ a, x = .ok a ∧ f a = .ok b := by
  cases x with
  | error e => cases h
  | ok a => exact ⟨a, rfl, h⟩

theorem cases_of_bind_eq_error {f : α → Except ε β} {y : Except ε α} {e : ε}
    (h : y >>= f = .error e) : y = .error e ∨ ∃ a, y = .ok a ∧ f a = .error e := by
  cases y with
  | error e' =>
    cases h
    exact Or.inl rfl
  | ok a => exact Or.inr ⟨a, rfl, h⟩

theorem checkRawKey_eq_ok_iff {k : Bytes} {u : Unit} :
    checkRawKey k = .ok u ↔ k ≠ [] ∧ isReservedKey k = false := by
  cases k with
  | nil => exact ⟨fun h => (by cases h), fun h => absurd rfl h.1⟩
  | cons b bs =>
    rw [checkRawKey, List.isEmpty_cons, if_neg Bool.false_ne_true]
    cases isReservedKey (b :: bs) <;> simp

theorem checkAmount_eq_ok_iff {u : Unit} : checkAmount amount = .ok u ↔ amount ≠ 0 := by
  unfold checkAmount
  split <;> simp_all

theorem credit_eq_ok_iff : credit account old amount = .ok new ↔
    old.toNat + amount.toNat < UInt64.size ∧ old + amount = new := by
  unfold credit
  split
  · rename_i hfits
    exact ⟨fun h => ⟨hfits, Except.ok.inj h⟩, fun h => congrArg _ h.2⟩
  · rename_i hfits
    exact ⟨fun h => (by cases h), fun h => absurd h.1 hfits⟩

theorem debit_eq_ok_iff : debit account old amount = .ok new ↔
    amount.toNat ≤ old.toNat ∧ old - amount = new := by
  unfold debit
  rw [← UInt64.le_iff_toNat_le]
  split
  · rename_i hle
    exact ⟨fun h => ⟨hle, Except.ok.inj h⟩, fun h => congrArg _ h.2⟩
  · rename_i hle
    exact ⟨fun h => (by cases h), fun h => absurd h.1 hle⟩

/-! ### Calls that succeed -/

/-- What a call that succeeds has checked and read, and what it writes. -/
inductive CallWrites (s : State) : Call → WriteBatch → Prop
  | set {key value : Bytes} (hne : key ≠ []) (hraw : isReservedKey key = false)
      (hsize : value.length ≤ maxValueSize) : CallWrites s (.set key value) ⟨[.put key value]⟩
  | remove {key : Bytes} (hne : key ≠ []) (hraw : isReservedKey key = false)
      (hin : s.contains key = true) : CallWrites s (.remove key) ⟨[.delete key]⟩
  | mint {account : Account} {amount old new : UInt64} (hamount : amount ≠ 0)
      (hold : balance s account = .ok old) (hnew : credit account old amount = .ok new) :
      CallWrites s (.mint account amount) ⟨[balanceWrite account new]⟩
  | burn {account : Account} {amount old new : UInt64} (hamount : amount ≠ 0)
      (hold : balance s account = .ok old) (hnew : debit account old amount = .ok new) :
      CallWrites s (.burn account amount) ⟨[balanceWrite account new]⟩
  /-- A transfer to oneself must be affordable, and writes nothing. -/
  | payOneself {account : Account} {amount old new : UInt64} (hamount : amount ≠ 0)
      (hold : balance s account = .ok old) (hnew : debit account old amount = .ok new) :
      CallWrites s (.transfer account account amount) ⟨[]⟩
  /-- Both balances are read before either is written. -/
  | transfer {source target : Account} {amount old new old' new' : UInt64} (hamount : amount ≠ 0)
      (hne : source ≠ target) (hold : balance s source = .ok old)
      (hnew : debit source old amount = .ok new) (hold' : balance s target = .ok old')
      (hnew' : credit target old' amount = .ok new') :
      CallWrites s (.transfer source target amount)
        ⟨[balanceWrite source new, balanceWrite target new']⟩

theorem callWrites_ok_cases (h : callWrites s call = .ok batch) : CallWrites s call batch := by
  -- one case per call, with the checks that it passes in their order
  cases call with
  | set key value =>
    obtain ⟨u, hkey, h⟩ := exists_of_bind_eq_ok h
    obtain ⟨hne, hraw⟩ := checkRawKey_eq_ok_iff.1 hkey
    split at h
    · cases h
    · rename_i hsize
      cases h
      exact .set hne hraw (Nat.le_of_not_lt hsize)
  | remove key =>
    obtain ⟨u, hkey, h⟩ := exists_of_bind_eq_ok h
    obtain ⟨hne, hraw⟩ := checkRawKey_eq_ok_iff.1 hkey
    split at h
    · rename_i hin
      cases h
      exact .remove hne hraw hin
    · cases h
  | mint account amount =>
    obtain ⟨u, hamount, h⟩ := exists_of_bind_eq_ok h
    obtain ⟨old, hold, h⟩ := exists_of_bind_eq_ok h
    obtain ⟨new, hnew, h⟩ := exists_of_bind_eq_ok h
    cases h
    exact .mint (checkAmount_eq_ok_iff.1 hamount) hold hnew
  | burn account amount =>
    obtain ⟨u, hamount, h⟩ := exists_of_bind_eq_ok h
    obtain ⟨old, hold, h⟩ := exists_of_bind_eq_ok h
    obtain ⟨new, hnew, h⟩ := exists_of_bind_eq_ok h
    cases h
    exact .burn (checkAmount_eq_ok_iff.1 hamount) hold hnew
  | transfer source target amount =>
    obtain ⟨u, hamount, h⟩ := exists_of_bind_eq_ok h
    obtain ⟨old, hold, h⟩ := exists_of_bind_eq_ok h
    obtain ⟨new, hnew, h⟩ := exists_of_bind_eq_ok h
    split at h
    · rename_i hsame
      cases h
      subst hsame
      exact .payOneself (checkAmount_eq_ok_iff.1 hamount) hold hnew
    · rename_i hne
      obtain ⟨old', hold', h⟩ := exists_of_bind_eq_ok h
      obtain ⟨new', hnew', h⟩ := exists_of_bind_eq_ok h
      cases h
      exact .transfer (checkAmount_eq_ok_iff.1 hamount) hne hold hnew hold' hnew'

theorem callWrites_of (h : CallWrites s call batch) : callWrites s call = .ok batch := by
  have hraw : ∀ {key}, key ≠ [] → isReservedKey key = false → checkRawKey key = .ok () :=
    fun hne hraw => checkRawKey_eq_ok_iff.2 ⟨hne, hraw⟩
  have hpaid : ∀ {amount}, amount ≠ 0 → checkAmount amount = .ok () := checkAmount_eq_ok_iff.2
  cases h with
  | set hne hkey hsize =>
    simp only [callWrites, hraw hne hkey, Nat.not_lt.2 hsize, if_false]
    rfl
  | remove hne hkey hin =>
    simp only [callWrites, hraw hne hkey, hin, if_true]
    rfl
  | mint hamount hold hnew =>
    simp only [callWrites, hpaid hamount, hold, hnew, Bind.bind, Except.bind]
    rfl
  | burn hamount hold hnew =>
    simp only [callWrites, hpaid hamount, hold, hnew, Bind.bind, Except.bind]
    rfl
  | payOneself hamount hold hnew =>
    simp only [callWrites, hpaid hamount, hold, hnew, if_true, Bind.bind, Except.bind]
    rfl
  | transfer hamount hne hold hnew hold' hnew' =>
    simp only [callWrites, hpaid hamount, hold, hnew, hne, hold', hnew', if_false, Bind.bind,
      Except.bind]
    rfl

/-- An extrinsic that applies carries a call, and does what this writes. -/
theorem step_ok_cases (h : step s x = .ok s') :
    ∃ call batch, x.call = .ok call ∧ CallWrites s call batch ∧ s' = batch.apply s := by
  rw [step] at h
  split at h
  · cases h
  · rename_i batch hbatch
    cases h
    rw [writes] at hbatch
    split at hbatch
    · cases hbatch
    · rename_i call hcall
      exact ⟨call, batch, hcall, callWrites_ok_cases hbatch, rfl⟩

/-! ### Calls that find a balance malformed -/

theorem checkRawKey_ne_malformed : checkRawKey k ≠ .error (.malformedBalance account) := by
  unfold checkRawKey
  split
  · simp
  · split <;> simp

theorem checkAmount_ne_malformed : checkAmount amount ≠ .error (.malformedBalance account) := by
  unfold checkAmount
  split <;> simp

theorem credit_ne_malformed {owner : Account} {held : UInt64} :
    credit owner held amount ≠ .error (.malformedBalance account) := by
  unfold credit
  split <;> simp

theorem debit_ne_malformed {owner : Account} {held : UInt64} :
    debit owner held amount ≠ .error (.malformedBalance account) := by
  unfold debit
  split <;> simp

/-- **A call that finds a balance malformed has read one that is.** -/
theorem exists_balance_of_malformed (h : callWrites s call = .error (.malformedBalance account)) :
    ∃ owner e, balance s owner = .error e := by
  -- only looking up a balance gives this error
  cases call with
  | set key value =>
    rcases cases_of_bind_eq_error h with h | ⟨u, -, h⟩
    · exact absurd h checkRawKey_ne_malformed
    · split at h <;> cases h
  | remove key =>
    rcases cases_of_bind_eq_error h with h | ⟨u, -, h⟩
    · exact absurd h checkRawKey_ne_malformed
    · split at h <;> cases h
  | mint owner amount =>
    rcases cases_of_bind_eq_error h with h | ⟨u, -, h⟩
    · exact absurd h checkAmount_ne_malformed
    rcases cases_of_bind_eq_error h with h | ⟨old, -, h⟩
    · exact ⟨owner, _, h⟩
    rcases cases_of_bind_eq_error h with h | ⟨new, -, h⟩
    · exact absurd h credit_ne_malformed
    · cases h
  | burn owner amount =>
    rcases cases_of_bind_eq_error h with h | ⟨u, -, h⟩
    · exact absurd h checkAmount_ne_malformed
    rcases cases_of_bind_eq_error h with h | ⟨old, -, h⟩
    · exact ⟨owner, _, h⟩
    rcases cases_of_bind_eq_error h with h | ⟨new, -, h⟩
    · exact absurd h debit_ne_malformed
    · cases h
  | transfer source target amount =>
    rcases cases_of_bind_eq_error h with h | ⟨u, -, h⟩
    · exact absurd h checkAmount_ne_malformed
    rcases cases_of_bind_eq_error h with h | ⟨old, -, h⟩
    · exact ⟨source, _, h⟩
    rcases cases_of_bind_eq_error h with h | ⟨new, -, h⟩
    · exact absurd h debit_ne_malformed
    split at h
    · cases h
    · rcases cases_of_bind_eq_error h with h | ⟨old', -, h⟩
      · exact ⟨target, _, h⟩
      rcases cases_of_bind_eq_error h with h | ⟨new', -, h⟩
      · exact absurd h credit_ne_malformed
      · cases h

end Execution

end LedgerChain
