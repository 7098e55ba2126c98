import LedgerChain.Proofs.Execution.Supply

/-!
# Well-formed states

Balances and raw values share one map and are kept apart by the first bytes of their keys.  A state
is **well formed** (`Entries.WellFormed`) if a key set aside for balances is that of an account, with
the form of a balance that is not zero, and every other key is not empty, with a value that a call may
set.

All writes of a call keep to this, and write only to what the call names (`writes_callWrites`): the
accounts of a mint, burn or transfer, and the raw key of a set or remove.  So whatever extrinsics are
applied to a well-formed state, or sifted on it, leads through well-formed states only, meets no
balance that cannot be read, and changes no entry that is not named (`Execution.regular`).
-/

namespace LedgerChain

/-- What an entry is like: a balance under the key of its account, or a value that a call may set
under a raw key. -/
structure ProperEntry (k raw : Bytes) : Prop where
  balance : isReservedKey k = true →
    ∃ (account : Account) (amount : UInt64),
      k = balanceKey account ∧ raw = Wire.encode amount ∧ amount ≠ 0
  value : isReservedKey k = false → k ≠ [] ∧ raw.length ≤ maxValueSize

namespace Entries

variable {m : Entries}

/-- All entries are proper. -/
def WellFormed (m : Entries) : Prop := m.All ProperEntry

theorem wellFormed_empty : Entries.empty.WellFormed := by
  intro k raw h
  cases h

/-- A well-formed state is well kept, so its supply is conserved and its balances can be read. -/
theorem WellFormed.wellKept (h : m.WellFormed) : m.WellKept := by
  intro k raw hk hreserved
  obtain ⟨account, amount, rfl, rfl, -⟩ := (h k raw hk).balance hreserved
  exact ⟨length_balanceKey account, Bytes.length_ofNatLE 8 amount.toNat⟩

end Entries

/-! ### What calls name -/

namespace Call

/-- The accounts whose balance a call is about. -/
def accounts : Call → List Account
  | mint account _ | burn account _ => [account]
  | transfer source target _ => [source, target]
  | set _ _ | remove _ => []

/-- The raw keys that a call is about. -/
def rawKeys : Call → List Bytes
  | set key _ | remove key => [key]
  | mint _ _ | burn _ _ | transfer _ _ _ => []

/-- A call names the key of a balance by its account, and any other key by itself. -/
structure Names (call : Call) (k : Bytes) : Prop where
  account : isReservedKey k = true → ∃ account ∈ call.accounts, k = balanceKey account
  raw : isReservedKey k = false → k ∈ call.rawKeys

variable {call : Call} {k : Bytes} {account : Account}

theorem names_account (h : account ∈ call.accounts) : call.Names (balanceKey account) where
  account _ := ⟨account, h, rfl⟩
  raw hraw := by
    rw [isReservedKey_balanceKey] at hraw
    cases hraw

theorem names_raw (h : k ∈ call.rawKeys) (hk : isReservedKey k = false) : call.Names k where
  account hreserved := by
    rw [hk] at hreserved
    cases hreserved
  raw _ := h

end Call

/-- An extrinsic names what its call names. -/
def Extrinsic.Names (x : Extrinsic) (k : Bytes) : Prop := ∃ call, x.call = .ok call ∧ call.Names k

namespace Execution

variable {s s' m m' : State} {x : Extrinsic} {xs : List Extrinsic} {call : Call}
  {batch : WriteBatch} {account : Account} {amount : UInt64} {k : Bytes}

/-! ### What calls write -/

theorem proper_balanceWrite (account : Account) (amount : UInt64) :
    (balanceWrite account amount).Leaves ProperEntry := by
  intro raw hraw
  rw [value?_balanceWrite] at hraw
  split at hraw
  · cases hraw
  · rename_i hamount
    cases hraw
    rw [key_balanceWrite]
    exact ⟨fun _ => ⟨account, amount, rfl, rfl, hamount⟩, fun hraw => by
      rw [isReservedKey_balanceKey] at hraw
      cases hraw⟩

/-- **All that a call writes is proper, and named by the call.** -/
theorem writes_callWrites (h : CallWrites s call batch) :
    ∀ w ∈ batch.writes, w.Leaves ProperEntry ∧ call.Names w.key := by
  have hbalance : ∀ {account amount}, account ∈ call.accounts →
      (balanceWrite account amount).Leaves ProperEntry ∧
        call.Names (balanceWrite account amount).key := by
    intro account amount hmem
    rw [key_balanceWrite]
    exact ⟨proper_balanceWrite account amount, Call.names_account hmem⟩
  cases h with
  | @set key value hne hraw hsize =>
    refine List.forall_mem_singleton.2 ⟨fun raw hvalue => ?_,
      Call.names_raw List.mem_cons_self hraw⟩
    cases hvalue
    refine ⟨fun hreserved => ?_, fun _ => ⟨hne, hsize⟩⟩
    rw [show (Write.put key value).key = key from rfl, hraw] at hreserved
    cases hreserved
  | remove _ hraw _ =>
    exact List.forall_mem_singleton.2 ⟨fun raw hvalue => (by cases hvalue),
      Call.names_raw List.mem_cons_self hraw⟩
  | mint _ _ _ => exact List.forall_mem_singleton.2 (hbalance List.mem_cons_self)
  | burn _ _ _ => exact List.forall_mem_singleton.2 (hbalance List.mem_cons_self)
  | payOneself _ _ _ =>
    intro w hw
    cases hw
  | transfer _ _ _ _ _ _ =>
    exact List.forall_mem_cons.2 ⟨hbalance List.mem_cons_self,
      List.forall_mem_singleton.2 (hbalance (.tail _ (.head _)))⟩

/-- **No balance of a well-formed state is malformed.** -/
theorem step_ne_malformed (hs : s.entries.WellFormed) (x : Extrinsic) (account : Account) :
    step s x ≠ .error (.malformedBalance account) := by
  intro h
  rw [step] at h
  split at h
  · rename_i e hwrites
    cases h
    rw [writes] at hwrites
    split at hwrites
    · cases hwrites
    · obtain ⟨owner, e, he⟩ := exists_balance_of_malformed hwrites
      obtain ⟨held, hheld⟩ := exists_balance hs.wellKept owner
      rw [hheld] at he
      cases he
  · cases h

/-! ### Extrinsics -/

/-- What every extrinsic finds and does on a well-formed state. -/
structure Orderly (s : State) (x : Extrinsic) : Prop where
  readable : ∀ account, step s x ≠ .error (.malformedBalance account)
  wellFormed : ∀ {s'}, step s x = .ok s' → s'.entries.WellFormed
  /-- Only what the extrinsic names is changed. -/
  names : ∀ {s' k}, step s x = .ok s' → s'.find? k ≠ s.find? k → x.Names k

/-- **Every extrinsic is orderly on a well-formed state**, whatever its payload is. -/
theorem orderly_step (hs : s.entries.WellFormed) (x : Extrinsic) : Orderly s x := by
  refine ⟨step_ne_malformed hs x, fun h => ?_, fun {s' k} h hchanged => ?_⟩
  · obtain ⟨call, batch, -, hbatch, rfl⟩ := step_ok_cases h
    exact hs.batch fun w hw => (writes_callWrites hbatch w hw).1
  · obtain ⟨call, batch, hcall, hbatch, rfl⟩ := step_ok_cases h
    -- a key that nothing is written to keeps its look-up
    have hwritten : ∃ w ∈ batch.writes, w.key = k := by
      by_contra hnone
      refine hchanged (WriteBatch.find?_apply fun w hw heq => hnone ⟨w, hw, heq⟩)
    obtain ⟨w, hw, rfl⟩ := hwritten
    exact ⟨call, hcall, (writes_callWrites hbatch w hw).2⟩

/-! ### Lists of extrinsics -/

/-- A well-formed state, which differs from an earlier one only in what some extrinsics name. -/
structure Reached (s : State) (xs : List Extrinsic) (m : State) : Prop where
  wellFormed : m.entries.WellFormed
  names : ∀ {k}, m.find? k ≠ s.find? k → ∃ x ∈ xs, x.Names k

theorem Reached.refl (hs : s.entries.WellFormed) : Reached s [] s :=
  ⟨hs, fun h => absurd rfl h⟩

theorem Reached.cons (hs : s.entries.WellFormed) (hx : step s x = .ok s')
    (h : Reached s' xs m) : Reached s (x :: xs) m where
  wellFormed := h.wellFormed
  names {k} hchanged := by
    by_cases hfirst : s'.find? k = s.find? k
    · obtain ⟨y, hy, hnames⟩ := h.names (hfirst ▸ hchanged)
      exact ⟨y, List.mem_cons_of_mem _ hy, hnames⟩
    · exact ⟨x, List.mem_cons_self, (orderly_step hs x).names hx hfirst⟩

theorem Reached.bumpVersion (h : Reached s xs m) : Reached s xs m.bumpVersion :=
  ⟨h.wellFormed, h.names⟩

variable [Crypto]

theorem reached_run {index : Nat} (hs : s.entries.WellFormed) (h : run s index xs = .ok m) :
    Reached s xs m := by
  induction xs generalizing s index with
  | nil =>
    cases h
    exact .refl hs
  | cons x xs ih =>
    obtain ⟨s₁, hx, hrest⟩ := run_cons_ok_cases h
    exact .cons hs hx (ih ((orderly_step hs x).wellFormed hx) hrest)

omit [Crypto] in
theorem Reached.mono {ys : List Extrinsic} (h : Reached s xs m) (hsub : xs ⊆ ys) :
    Reached s ys m where
  wellFormed := h.wellFormed
  names hchanged :=
    let ⟨x, hx, hnames⟩ := h.names hchanged
    ⟨x, hsub hx, hnames⟩

theorem reached_sift (hs : s.entries.WellFormed) (xs : List Extrinsic) :
    Reached s (sift s xs).2.1 (sift s xs).1 :=
  reached_run hs (run_sift s 0 xs)

theorem exists_step_of_run_error {index : Nat} {e : TransitionError} (hs : s.entries.WellFormed)
    (h : run s index xs = .error e) :
    ∃ m x, m.entries.WellFormed ∧ step m x = .error e.cause := by
  induction xs generalizing s index with
  | nil => cases h
  | cons x xs ih =>
    rw [run] at h
    split at h
    · rename_i cause hx
      cases h
      exact ⟨s, x, hs, hx⟩
    · rename_i s₁ hx
      exact ih ((orderly_step hs x).wellFormed hx) h

omit [Crypto] in
theorem exists_step_of_left_out {p : Extrinsic × ExtrinsicError} (hs : s.entries.WellFormed)
    (hp : p ∈ (sift s xs).2.2) : ∃ m, m.entries.WellFormed ∧ step m p.1 = .error p.2 := by
  induction xs generalizing s with
  | nil => cases hp
  | cons x xs ih =>
    cases hx : step s x with
    | error e =>
      simp only [sift, hx, List.mem_cons] at hp
      rcases hp with rfl | hp
      · exact ⟨s, hs, hx⟩
      · exact ih hs hp
    | ok s₁ =>
      simp only [sift, hx] at hp
      exact ih ((orderly_step hs x).wellFormed hx) hp

/-- What a list of extrinsics meets and does on a well-formed state, applied as a block or sifted by
an author. -/
structure Regular (s : State) (xs : List Extrinsic) : Prop where
  /-- All states on the way are well formed, and whatever extrinsic comes next is orderly there. -/
  met : ∀ {before after m}, xs = before ++ after →
    run s 0 before = .ok m ∨ m = (sift s before).1 →
      Reached s before m ∧ ∀ x, Orderly m x
  applied : ∀ {output}, applyAll s xs = .ok output → Reached s xs output.state
  selected : Reached s (select s xs).included (select s xs).output.state
  refused : ∀ {e}, applyAll s xs = .error e → ∀ account, e.cause ≠ .malformedBalance account
  excluded : ∀ p ∈ (select s xs).excluded, ∀ account, p.2 ≠ .malformedBalance account

/-- **Extrinsics lead from a well-formed state through well-formed states only**, none of them finds a
balance malformed, and only what they name is changed. -/
theorem regular (hs : s.entries.WellFormed) (xs : List Extrinsic) : Regular s xs where
  met {before after m} _ hm := by
    have hreached : Reached s before m := by
      rcases hm with hm | rfl
      · exact reached_run hs hm
      · exact (reached_sift hs before).mono fun x hx =>
          (perm_sift s before).subset (List.mem_append_left _ hx)
    exact ⟨hreached, orderly_step hreached.wellFormed⟩
  applied {output} h := by
    obtain ⟨m, hrun, rfl⟩ := applyAll_ok_cases h
    exact (reached_run hs hrun).bumpVersion
  selected := (reached_sift hs xs).bumpVersion
  refused {e} h account hcause := by
    rw [applyAll] at h
    split at h
    · rename_i e' hrun
      cases h
      obtain ⟨m, x, hm, hx⟩ := exists_step_of_run_error hs hrun
      exact step_ne_malformed hm x account (hcause ▸ hx)
    · cases h
  excluded p hp account hcause := by
    obtain ⟨m, hm, hx⟩ := exists_step_of_left_out hs hp
    exact step_ne_malformed hm p.1 account (hcause ▸ hx)

end Execution

end LedgerChain
