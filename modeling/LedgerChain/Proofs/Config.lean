import LedgerChain.Config

/-!
# Well-formed configurations

What the check of a configuration ensures, read off it once (`Config.wellFormed_iff`).  It compares
the limit of the pool for the size of an extrinsic with the one for blocks; the limit of an author
for the number of extrinsics is not compared with anything.
-/

namespace LedgerChain

namespace Config

variable {c : Config}

theorem wellFormed_iff :
    c.WellFormed ↔ c.consensus.sealRule.defect? = none ∧ c.consensus.maxBlockExtrinsics ≠ 0 ∧
      c.run.finalityDepth ≠ 0 ∧ c.run.orphanPolicy ≠ .hold 0 ∧ c.authoring.maxAttempts ≠ 0 ∧
      c.pool.maxExtrinsicSize ≤ c.consensus.maxExtrinsicSize := by
  rw [WellFormed, defect?]
  cases c.consensus.sealRule.defect? with
  | some defect => simp only [reduceCtorEq, false_and]
  | none =>
    have hstep : ∀ {p : Prop} [Decidable p] {defect : ConfigDefect} {rest : Option ConfigDefect},
        (if p then some defect else rest) = none ↔ ¬ p ∧ rest = none := by
      intro p _ defect rest
      by_cases hp : p <;> simp [hp]
    simp only [hstep, Nat.not_lt, and_true, true_and, ne_eq]

theorem wellFormed_of_ofToml {text : String} (h : ofToml text = .ok c) : c.WellFormed := by
  rw [ofToml] at h
  split at h
  · cases h
  · split at h
    · cases h
    · rename_i hnone
      cases h
      exact hnone

end Config

end LedgerChain
