import LedgerChain.Proofs.Execution.Select
import LedgerChain.Proofs.Execution.WellFormed

/-!
# The ledger that calls are about

Behind the entries of a state is a **ledger** (`State.ledger`): raw values under raw keys, and a
natural number for every account, which is zero if the account has no entry.  What a call asks for is
said of ledgers alone: when it is permitted (`Call.Permitted`) and what it changes (`Call.effect`).

Execution does just that (`Execution.step_implements_ledger`): an extrinsic applies if and only if it
carries a permitted call, and then changes the ledger by the effect of the call.  The entries say
nothing more than the ledger: an account whose balance a call has emptied has no entry.
-/

namespace LedgerChain

/-- The raw values and the balances of accounts. -/
@[ext]
structure Ledger where
  /-- The values under raw keys. -/
  values : Bytes → Option Bytes
  /-- What the accounts hold. -/
  balances : Account → Nat

namespace Ledger

/-- The ledger with a raw value put in place, or removed. -/
def setValue (l : Ledger) (key : Bytes) (value : Option Bytes) : Ledger :=
  { l with values := Function.update l.values key value }

/-- The ledger with another balance of an account. -/
def setBalance (l : Ledger) (account : Account) (balance : Nat) : Ledger :=
  { l with balances := Function.update l.balances account balance }

/-- Adds to a balance. -/
def credit (l : Ledger) (account : Account) (amount : Nat) : Ledger :=
  l.setBalance account (l.balances account + amount)

/-- Takes from a balance. -/
def debit (l : Ledger) (account : Account) (amount : Nat) : Ledger :=
  l.setBalance account (l.balances account - amount)

theorem balances_setBalance (l : Ledger) (account other : Account) (balance : Nat) :
    (l.setBalance account balance).balances other =
      if other = account then balance else l.balances other :=
  Function.update_apply l.balances account balance other

end Ledger

/-- The ledger behind a state: the values under keys that are not set aside for balances, and what
the accounts hold. -/
def State.ledger (s : State) : Ledger where
  values key := if isReservedKey key then none else s.find? key
  balances := s.entries.held

namespace Call

/-- When a ledger permits a call. -/
def Permitted (l : Ledger) : Call → Prop
  | set key value => key ≠ [] ∧ isReservedKey key = false ∧ value.length ≤ maxValueSize
  | remove key => (∃ value, l.values key = some value) ∧ key ≠ [] ∧ isReservedKey key = false
  | mint account amount => amount ≠ 0 ∧ l.balances account + amount.toNat < 2 ^ 64
  | burn account amount => amount ≠ 0 ∧ amount.toNat ≤ l.balances account
  | transfer source target amount =>
    amount ≠ 0 ∧ amount.toNat ≤ l.balances source ∧
      (source ≠ target → l.balances target + amount.toNat < 2 ^ 64)

/-- What a call makes of a ledger. -/
def effect (l : Ledger) : Call → Ledger
  | set key value => l.setValue key (some value)
  | remove key => l.setValue key none
  | mint account amount => l.credit account amount.toNat
  | burn account amount => l.debit account amount.toNat
  | transfer source target amount => (l.debit source amount.toNat).credit target amount.toNat

end Call

namespace Execution

variable {s s' : State} {x : Extrinsic} {call : Call} {batch : WriteBatch} {account other : Account}
  {amount held new : UInt64}

/-! ### Reading and writing the ledger -/

theorem balances_of_balance (h : balance s account = .ok held) :
    s.ledger.balances account = held.toNat :=
  (toNat_of_balance h).symm

/-- The state after a single write. -/
def after (s : State) (w : Write) : State := { s with entries := w.apply s.entries }

theorem find?_after (s : State) (w : Write) (k : Bytes) :
    (after s w).find? k = if k = w.key then w.value? else s.find? k :=
  Write.find?_apply w s.entries k

theorem ledger_after_raw {w : Write} (h : isReservedKey w.key = false) :
    (after s w).ledger = s.ledger.setValue w.key w.value? := by
  ext1
  · funext key
    simp only [State.ledger, Ledger.setValue, Function.update_apply, find?_after]
    by_cases hkey : key = w.key
    · simp [hkey, h]
    · simp [hkey]
  · funext owner
    exact (Accounted.raw h s.entries).held_eq owner

theorem ledger_after_balance (s : State) (account : Account) (new : UInt64) :
    (after s (balanceWrite account new)).ledger = s.ledger.setBalance account new.toNat := by
  ext1
  · funext key
    simp only [State.ledger, Ledger.setBalance, find?_after, key_balanceWrite]
    by_cases hkey : key = balanceKey account
    · simp [hkey, isReservedKey_balanceKey]
    · simp [hkey]
  · funext owner
    simp only [Ledger.setBalance, Function.update_apply]
    exact held_balanceWrite s.entries account new owner

/-! ### When calls apply -/

theorem permitted_of_callWrites (h : CallWrites s call batch) : call.Permitted s.ledger := by
  cases h with
  | set hne hkey hsize => exact ⟨hne, hkey, hsize⟩
  | @remove key hne hkey hin =>
    obtain ⟨value, hvalue⟩ := Option.isSome_iff_exists.1 hin
    refine ⟨⟨value, ?_⟩, hne, hkey⟩
    simp only [State.ledger, hkey, Bool.false_eq_true, if_false]
    exact hvalue
  | mint hamount hold hnew =>
    rw [Call.Permitted, balances_of_balance hold]
    exact ⟨hamount, (credit_eq_ok_iff.1 hnew).1⟩
  | burn hamount hold hnew =>
    rw [Call.Permitted, balances_of_balance hold]
    exact ⟨hamount, (debit_eq_ok_iff.1 hnew).1⟩
  | payOneself hamount hold hnew =>
    rw [Call.Permitted, balances_of_balance hold]
    exact ⟨hamount, (debit_eq_ok_iff.1 hnew).1, fun hne => absurd rfl hne⟩
  | transfer hamount hne hold hnew hold' hnew' =>
    rw [Call.Permitted, balances_of_balance hold, balances_of_balance hold']
    exact ⟨hamount, (debit_eq_ok_iff.1 hnew).1, fun _ => (credit_eq_ok_iff.1 hnew').1⟩

/-- **A call that the ledger permits can be made**, as all balances can be read. -/
theorem exists_callWrites (hs : s.entries.WellKept) (h : call.Permitted s.ledger) :
    ∃ batch, CallWrites s call batch := by
  cases call with
  | set key value => exact ⟨_, .set h.1 h.2.1 h.2.2⟩
  | remove key =>
    obtain ⟨⟨value, hvalue⟩, hne, hkey⟩ := h
    simp only [State.ledger, hkey, Bool.false_eq_true, if_false] at hvalue
    exact ⟨_, .remove hne hkey (Option.isSome_iff_exists.2 ⟨value, hvalue⟩)⟩
  | mint account amount =>
    obtain ⟨hamount, hfits⟩ := h
    obtain ⟨old, hold⟩ := exists_balance hs account
    rw [balances_of_balance hold] at hfits
    exact ⟨_, .mint hamount hold (credit_eq_ok_iff.2 ⟨hfits, rfl⟩)⟩
  | burn account amount =>
    obtain ⟨hamount, hle⟩ := h
    obtain ⟨old, hold⟩ := exists_balance hs account
    rw [balances_of_balance hold] at hle
    exact ⟨_, .burn hamount hold (debit_eq_ok_iff.2 ⟨hle, rfl⟩)⟩
  | transfer source target amount =>
    obtain ⟨hamount, hle, hfits⟩ := h
    obtain ⟨old, hold⟩ := exists_balance hs source
    rw [balances_of_balance hold] at hle
    have hnew : debit source old amount = .ok (old - amount) := debit_eq_ok_iff.2 ⟨hle, rfl⟩
    by_cases hsame : source = target
    · subst hsame
      exact ⟨_, .payOneself hamount hold hnew⟩
    · obtain ⟨old', hold'⟩ := exists_balance hs target
      have hfits' := hfits hsame
      rw [balances_of_balance hold'] at hfits'
      exact ⟨_, .transfer hamount hsame hold hnew hold' (credit_eq_ok_iff.2 ⟨hfits', rfl⟩)⟩

/-! ### What calls change -/

/-- **A call changes the ledger by its effect.** -/
theorem ledger_apply (h : CallWrites s call batch) :
    (batch.apply s).ledger = call.effect s.ledger := by
  cases h with
  | @set key value _ hraw _ => exact ledger_after_raw (w := .put key value) hraw
  | @remove key _ hraw _ => exact ledger_after_raw (w := .delete key) hraw
  | @mint account amount old new _ hold hnew =>
    show (after s (balanceWrite account new)).ledger = _
    rw [ledger_after_balance, toNat_of_credit hnew, ← balances_of_balance hold]
    rfl
  | @burn account amount old new _ hold hnew =>
    have hsum := toNat_of_debit hnew
    show (after s (balanceWrite account new)).ledger = _
    rw [ledger_after_balance, Call.effect, Ledger.debit, balances_of_balance hold, ← hsum,
      Nat.add_sub_cancel]
  | @payOneself account amount old new _ hold hnew =>
    have hle : amount.toNat ≤ s.ledger.balances account := by
      rw [balances_of_balance hold]
      exact (debit_eq_ok_iff.1 hnew).1
    simp [WriteBatch.apply, Call.effect, Ledger.debit, Ledger.credit, Ledger.setBalance,
      Nat.sub_add_cancel hle]
  | @transfer source target amount old new old' new' _ hne hold hnew hold' hnew' =>
    have hsum := toNat_of_debit hnew
    show (after (after s (balanceWrite source new)) (balanceWrite target new')).ledger = _
    rw [ledger_after_balance, ledger_after_balance, Call.effect, Ledger.debit, Ledger.credit,
      balances_of_balance hold, ← hsum, Nat.add_sub_cancel, toNat_of_credit hnew',
      ← balances_of_balance hold']
    simp [Ledger.setBalance, Function.update_of_ne (Ne.symm hne)]

/-- An account whose balance was written as zero has no entry. -/
theorem find?_of_emptied
    (h : (after s (balanceWrite account new)).ledger.balances account = 0) :
    (after s (balanceWrite account new)).find? (balanceKey account) = none := by
  have hnew : new = 0 := by
    rw [ledger_after_balance, Ledger.balances_setBalance, if_pos rfl] at h
    exact UInt64.toNat_inj.1 h
  rw [find?_after, key_balanceWrite, if_pos rfl, value?_balanceWrite, if_pos hnew]

/-- **An account that a call has emptied has no entry.** -/
theorem find?_emptied (h : CallWrites s call batch) (hmem : account ∈ call.accounts)
    (hempty : (batch.apply s).ledger.balances account = 0) :
    (batch.apply s).find? (balanceKey account) = none := by
  cases h with
  | set _ _ _ => cases hmem
  | remove _ _ _ => cases hmem
  | mint _ _ _ =>
    obtain rfl := List.mem_singleton.1 hmem
    exact find?_of_emptied hempty
  | burn _ _ _ =>
    obtain rfl := List.mem_singleton.1 hmem
    exact find?_of_emptied hempty
  | @payOneself owner amount old new hamount hold hnew =>
    -- the amount is not zero, and the account still holds it
    have hheld : s.ledger.balances owner = 0 := by
      have : account = owner := by simpa [Call.accounts] using hmem
      exact this ▸ hempty
    have hle := (debit_eq_ok_iff.1 hnew).1
    rw [← balances_of_balance hold, hheld] at hle
    exact absurd (UInt64.toNat_inj.1 (Nat.le_zero.1 hle)) hamount
  | @transfer source target amount old new old' new' _ hne _ _ _ _ =>
    rcases List.mem_cons.1 hmem with rfl | hmem
    · -- the write to the target leaves the source alone
      have hkey : balanceKey account ≠ (balanceWrite target new').key := by
        rw [key_balanceWrite]
        exact fun heq => hne (balanceKey_inj.1 heq)
      show (after (after s (balanceWrite account new)) (balanceWrite target new')).find? _ = none
      rw [find?_after, if_neg hkey]
      refine find?_of_emptied ?_
      have hbalance := ledger_after_balance (after s (balanceWrite account new)) target new'
      replace hbalance := congrArg (Ledger.balances · account) hbalance
      rw [Ledger.balances_setBalance, if_neg hne] at hbalance
      exact hbalance.symm.trans hempty
    · obtain rfl := List.mem_singleton.1 hmem
      exact find?_of_emptied (s := after s (balanceWrite source new)) hempty

/-! ### Extrinsics -/

/-- What an extrinsic does that carries a call and applies. -/
structure Performs (s : State) (call : Call) (s' : State) : Prop where
  ledger : s'.ledger = call.effect s.ledger
  /-- A balance that is zero afterwards is not stored. -/
  emptied : ∀ account ∈ call.accounts, s'.ledger.balances account = 0 →
    s'.find? (balanceKey account) = none
  /-- Entries that the call does not name are left alone. -/
  unchanged : ∀ k, ¬ call.Names k → s'.find? k = s.find? k
  version : s'.version = s.version
  wellKept : s.entries.WellKept → s'.entries.WellKept

theorem performs_callWrites (h : CallWrites s call batch) : Performs s call (batch.apply s) where
  ledger := ledger_apply h
  emptied _ hmem hempty := find?_emptied h hmem hempty
  unchanged _ hk := WriteBatch.find?_apply fun w hw heq => hk (heq ▸ (writes_callWrites h w hw).2)
  version := rfl
  wellKept := (accounted_callWrites h).wellKept

/-- **Execution implements the ledger.**  On a well-kept state an extrinsic applies if and only if
it carries a call that the ledger permits.  Then it has the effect of the call on the ledger, and on
nothing else. -/
theorem step_implements_ledger (hs : s.entries.WellKept) (x : Extrinsic) :
    ((∃ s', step s x = .ok s') ↔ ∃ call, x.call = .ok call ∧ call.Permitted s.ledger) ∧
      ∀ s' call, step s x = .ok s' → x.call = .ok call → Performs s call s' := by
  refine ⟨⟨?_, ?_⟩, ?_⟩
  · rintro ⟨s', h⟩
    obtain ⟨call, batch, hcall, hbatch, -⟩ := step_ok_cases h
    exact ⟨call, hcall, permitted_of_callWrites hbatch⟩
  · rintro ⟨call, hcall, hpermitted⟩
    obtain ⟨batch, hbatch⟩ := exists_callWrites hs hpermitted
    refine ⟨batch.apply s, ?_⟩
    simp only [step, writes, hcall, callWrites_of hbatch]
  · intro s' call h hcall
    obtain ⟨call', batch, hcall', hbatch, rfl⟩ := step_ok_cases h
    have hsame : call' = call := Except.ok.inj (hcall'.symm.trans hcall)
    exact hsame ▸ performs_callWrites hbatch

/-- Where one account holds everything there is, it can give it all away, and is no longer stored. -/
theorem transfer_of_everything :
    (⟨(balanceWrite (.zero 32) 5).apply .empty, 0⟩ : State).entries.WellKept ∧
      ∃ s', step ⟨(balanceWrite (.zero 32) 5).apply .empty, 0⟩
          (.ofCall (.transfer (.zero 32) (.ofNat 32 1) 5) 0) = .ok s' ∧
        s'.ledger.balances (.ofNat 32 1) = 5 ∧ s'.find? (balanceKey (.zero 32)) = none := by
  have hkept := wellKept_balanceWrite Entries.wellKept_empty (.zero 32) 5
  obtain ⟨happlies, hperforms⟩ :=
    step_implements_ledger (s := ⟨(balanceWrite (.zero 32) 5).apply .empty, 0⟩) hkept
      (.ofCall (.transfer (.zero 32) (.ofNat 32 1) 5) 0)
  have hcall : (Extrinsic.ofCall (.transfer (.zero 32) (.ofNat 32 1) 5) 0).call =
      .ok (.transfer (.zero 32) (.ofNat 32 1) 5) := by decide +kernel
  obtain ⟨s', hs'⟩ := happlies.2
    ⟨_, hcall, by decide, by decide +kernel, fun _ => by decide +kernel⟩
  have hdone := hperforms s' _ hs' hcall
  have hgiven : s'.ledger.balances (.ofNat 32 1) = 5 := by
    rw [hdone.ledger]
    decide +kernel
  refine ⟨hkept, s', hs', hgiven, hdone.emptied _ List.mem_cons_self ?_⟩
  rw [hdone.ledger]
  decide +kernel

end Execution

end LedgerChain
