import LedgerChain.Proofs.Execution.Calls

/-!
# Choosing extrinsics and applying them

The extrinsics that are chosen as applicable do apply, one after the other and as a whole block, and
lead to the output that the choice came with (`applyAll_select`).  Those that are not chosen are left
out, and none gets lost (`perm_sift`).  A block adds one to the version of the state, whatever its
extrinsics are (`version_applyAll`).
-/

namespace LedgerChain

namespace Execution

variable {s s' : State} {x : Extrinsic} {xs : List Extrinsic}

theorem version_step (h : step s x = .ok s') : s'.version = s.version := by
  obtain ⟨call, batch, -, -, rfl⟩ := step_ok_cases h
  rfl

variable [Crypto]

omit [Crypto] in
/-- **Every candidate is either included or left out.** -/
theorem perm_sift (s : State) (xs : List Extrinsic) :
    ((sift s xs).2.1 ++ (sift s xs).2.2.map Prod.fst).Perm xs := by
  induction xs generalizing s with
  | nil => exact .nil
  | cons x xs ih =>
    cases hx : step s x with
    | error e =>
      simp only [sift, hx, List.map_cons]
      exact List.perm_middle.trans ((ih s).cons x)
    | ok s₁ =>
      simp only [sift, hx, List.cons_append]
      exact (ih s₁).cons x

theorem run_sift (s : State) (index : Nat) (xs : List Extrinsic) :
    run s index (sift s xs).2.1 = .ok (sift s xs).1 := by
  induction xs generalizing s index with
  | nil => rfl
  | cons x xs ih =>
    cases hx : step s x with
    | error e =>
      simp only [sift, hx]
      exact ih s index
    | ok s₁ =>
      simp only [sift, hx, run]
      exact ih s₁ (index + 1)

/-- **A block of chosen extrinsics applies**, and leads to the output they were chosen with. -/
theorem applyAll_select (s : State) (candidates : List Extrinsic) :
    applyAll s (select s candidates).included = .ok (select s candidates).output := by
  simp only [select, applyAll, run_sift]

theorem run_cons_ok_cases {index : Nat} (h : run s index (x :: xs) = .ok s') :
    ∃ s₁, step s x = .ok s₁ ∧ run s₁ (index + 1) xs = .ok s' := by
  rw [run] at h
  split at h
  · cases h
  · rename_i s₁ hstep
    exact ⟨s₁, hstep, h⟩

theorem version_run {index : Nat} (h : run s index xs = .ok s') : s'.version = s.version := by
  induction xs generalizing s index with
  | nil =>
    cases h
    rfl
  | cons x xs ih =>
    obtain ⟨s₁, hstep, hrest⟩ := run_cons_ok_cases h
    exact (ih hrest).trans (version_step hstep)

theorem applyAll_ok_cases {output : Output} (h : applyAll s xs = .ok output) :
    ∃ m, run s 0 xs = .ok m ∧ output = finish m xs := by
  rw [applyAll] at h
  split at h
  · cases h
  · rename_i m hrun
    cases h
    exact ⟨m, hrun, rfl⟩

theorem version_applyAll {output : Output} (h : applyAll s xs = .ok output) :
    output.state.version = s.version + 1 := by
  obtain ⟨m, hrun, rfl⟩ := applyAll_ok_cases h
  exact congrArg (· + 1) (version_run hrun)

theorem stateDigest_applyAll {output : Output} (h : applyAll s xs = .ok output) :
    output.stateDigest = output.state.digest := by
  obtain ⟨m, -, rfl⟩ := applyAll_ok_cases h
  rfl

end Execution

end LedgerChain
