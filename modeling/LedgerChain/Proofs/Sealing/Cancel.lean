import LedgerChain.Authoring

/-!
# Attempts that are not cancelled

An attempt to seal a block says that it was cancelled only if one of its polls saw that
(`Candidate.exists_cancelled`).
-/

namespace LedgerChain

variable {ctx : SealContext}

theorem SealContext.cancelled_of_interruption {poll : Nat}
    (h : ctx.interruption poll = some .sealCancelled) : ctx.cancelled poll = true := by
  rw [interruption] at h
  split at h
  · assumption
  · split at h <;> cases h

theorem WorkRule.exists_cancelled_of_search {good : UInt64 → Bool} {left tried : Nat}
    {nonce : UInt64} (h : search good ctx.interruption left tried nonce = .error .sealCancelled) :
    ∃ poll, ctx.cancelled poll = true := by
  induction left generalizing tried nonce with
  | zero => cases h
  | succ left ih =>
    rw [search] at h
    split at h
    · rename_i e hstop
      cases h
      split at hstop
      · exact ⟨_, SealContext.cancelled_of_interruption hstop⟩
      · cases hstop
    · split at h
      · cases h
      · exact ih h

theorem Sealing.readProof_ne_cancelled {α : Type} [Wire α] (mark : Seal) :
    (readProof mark : Except SealError α) ≠ .error .sealCancelled := by
  unfold readProof
  split <;> simp

variable [Crypto] {t : HeaderTemplate} {parent : Header} {resulting : Digest}

theorem Sealing.checkPlacement_ne_cancelled (t : HeaderTemplate) (parent : Header) :
    checkPlacement t parent ≠ .error .sealCancelled := by
  unfold checkPlacement
  split
  · simp
  · split <;> simp

theorem WorkRule.exists_cancelled {rule : WorkRule}
    (h : rule.produce t parent resulting ctx = .error .sealCancelled) :
    ∃ poll, ctx.cancelled poll = true := by
  simp only [produce, Bind.bind, Except.bind] at h
  split at h
  · rename_i hplace
    cases h
    exact absurd hplace (Sealing.checkPlacement_ne_cancelled t parent)
  · split at h
    · rename_i hsearch
      cases h
      exact exists_cancelled_of_search hsearch
    · cases h

theorem AuthorityRule.exists_cancelled {rule : AuthorityRule}
    (h : rule.produce t parent resulting ctx = .error .sealCancelled) :
    ∃ poll, ctx.cancelled poll = true := by
  simp only [produce, Bind.bind, Except.bind] at h
  split at h
  · rename_i hplace
    cases h
    exact absurd hplace (Sealing.checkPlacement_ne_cancelled t parent)
  · split at h
    · rename_i hstop
      cases h
      exact ⟨0, SealContext.cancelled_of_interruption hstop⟩
    · -- all other failures are about keys and turns
      repeat' split at h
      all_goals cases h

omit [Crypto] in
theorem Engine.weight_ne_cancelled (engine : Engine) (h : Header) :
    engine.weight h ≠ .error .sealCancelled := by
  cases engine with
  | work rule =>
    simp only [weight, WorkRule.weight, Bind.bind, Except.bind]
    split
    · rename_i hread
      intro heq
      cases heq
      exact Sealing.readProof_ne_cancelled _ hread
    · simp [Pure.pure, Except.pure]
  | authority rule => simp [weight]

/-- **A candidate whose completion was cancelled was cancelled by one of the polls.** -/
theorem Candidate.exists_cancelled {engine : Engine} {c : Candidate} {p : ChainTip}
    (h : c.complete engine p ctx = .error .sealCancelled) : ∃ poll, ctx.cancelled poll = true := by
  simp only [complete] at h
  split at h
  · rename_i hproduce
    cases h
    cases engine with
    | work rule => exact WorkRule.exists_cancelled hproduce
    | authority rule => exact AuthorityRule.exists_cancelled hproduce
  · split at h
    · rename_i hweight
      cases h
      exact absurd hweight (engine.weight_ne_cancelled _)
    · cases h

end LedgerChain
