import LedgerChain.Authoring
import LedgerChain.Proofs.Execution.Select
import LedgerChain.Proofs.Sealing.Sound
import LedgerChain.Validation

/-!
# Valid blocks

A block is **valid** on a parent if validation accepts it there, with the state and weight it comes
with, and its binary form has the one supported version.  What a valid block is like is read off
validation once (`validateBlock_eq_ok_iff`).

Blocks that a node makes itself are never validated.  They are valid all the same
(`valid_of_complete`), since choosing extrinsics agrees with applying them and sealing with checking
seals.
-/

namespace LedgerChain

variable [Crypto] {engine : Engine} {rule : SealRule} {b : Block} {parent tip : ChainTip}

theorem validateBlock_eq_ok_iff :
    validateBlock engine b parent = .ok tip ↔
      b.height = parent.height + 1 ∧
      engine.validate b.header parent.header b.header.stateDigest = .ok () ∧
      engine.weight b.header = .ok tip.weight ∧
      b.computedExtrinsicsDigest = b.header.extrinsicsDigest ∧
      ∃ output, Execution.applyAll parent.state b.extrinsics = .ok output ∧
        output.stateDigest = b.header.stateDigest ∧ tip = ⟨b, output.state, tip.weight⟩ := by
  simp only [validateBlock]
  constructor
  · intro h
    split at h
    · cases h
    · rename_i hheight
      split at h
      · cases h
      · rename_i hseal
        split at h
        · cases h
        · rename_i weight hweight
          split at h
          · cases h
          · rename_i hext
            split at h
            · cases h
            · rename_i output hrun
              split at h
              · cases h
              · rename_i hstate
                cases h
                exact ⟨Decidable.of_not_not hheight, hseal, hweight, Decidable.of_not_not hext,
                  output, hrun, Decidable.of_not_not hstate, rfl⟩
  · rintro ⟨hheight, hseal, hweight, hext, output, hrun, hstate, htip⟩
    simp only [hheight, hseal, hweight, hext, hrun, hstate, ne_eq, not_true_eq_false, if_false]
    exact congrArg _ htip.symm

/-- The height is found wrong where the sum in 64 bits is, or overflows. -/
theorem validateBlock_wrongHeight_iff :
    validateBlock engine b parent = .error (.malformed (.wrongHeight b.height parent.height)) ↔
      ¬ (b.header.height = parent.header.height + 1 ∧ parent.height < UInt64.size - 1) := by
  have hiff : b.height = parent.height + 1 ↔
      b.header.height = parent.header.height + 1 ∧ parent.height < UInt64.size - 1 :=
    height_eq_succ_iff
  rw [← hiff, validateBlock]
  by_cases hheight : b.height = parent.height + 1
  case neg => simp only [hheight, ne_eq, not_false_eq_true, if_true]
  -- every later check has an error of its own
  refine iff_of_false (fun h => ?_) (not_not_intro hheight)
  simp only [hheight, ne_eq, not_true_eq_false, if_false] at h
  repeat' split at h
  all_goals cases h

theorem validateBlock_congr {p q : ChainTip} (hblock : p.block = q.block)
    (hstate : p.state = q.state) :
    validateBlock engine b p = validateBlock engine b q := by
  obtain ⟨block, state, _⟩ := p
  obtain ⟨block', state', _⟩ := q
  cases hblock
  cases hstate
  rfl

/-- A block that lies right above another one and adds a positive weight to it. -/
structure Follows (engine : Engine) (parent tip : ChainTip) : Prop where
  parent_eq : tip.parent = parent.id
  height_eq : tip.height = parent.height + 1
  weight_eq : engine.weight tip.header = .ok tip.weight
  weight_pos : 1 ≤ tip.weight

/-- A block that validation accepts on a parent, in the supported version. -/
structure Valid (engine : Engine) (parent tip : ChainTip) : Prop where
  validated : validateBlock engine tip.block parent = .ok tip
  version_eq : tip.header.version = blockVersion

theorem block_eq_of_validateBlock (h : validateBlock engine b parent = .ok tip) :
    tip.block = b := by
  obtain ⟨-, -, -, -, output, -, -, htip⟩ := validateBlock_eq_ok_iff.1 h
  rw [htip]

/-- **A header that was found bad is bad with any body.**  The body plays a part only once it is the
one that the header names; blocks with one digest are to have one body. -/
theorem exists_error_of_isBlockInvalid {b' : Block} {cause : ImportError}
    (h : validateBlock engine b parent = .error cause) (hinvalid : cause.isBlockInvalid = true)
    (hheader : b'.header = b.header)
    (hbody : b'.computedExtrinsicsDigest = b.computedExtrinsicsDigest →
      b'.extrinsics = b.extrinsics) :
    ∃ cause', validateBlock engine b' parent = .error cause' := by
  cases hvalid : validateBlock engine b' parent with
  | error cause' => exact ⟨cause', rfl⟩
  | ok tip =>
    exfalso
    obtain ⟨hheight, hseal, hweight, hext, output, hrun, hstate, -⟩ :=
      validateBlock_eq_ok_iff.1 hvalid
    by_cases hdigest : b.computedExtrinsicsDigest = b.header.extrinsicsDigest
    · -- both have the body that the header names
      have hsame : b' = b := by
        rw [Block.mk.injEq]
        exact ⟨hheader, hbody (hext.trans (hheader ▸ hdigest.symm))⟩
      rw [hsame, h] at hvalid
      cases hvalid
    · -- the header was found good before the bodies were compared
      have hheight' : b.height = parent.height + 1 := by
        rw [← hheight, Block.height, Block.height, hheader]
      rw [hheader] at hseal hweight
      simp only [validateBlock, hheight', hseal, hweight, hdigest, ne_eq, not_true_eq_false,
        not_false_eq_true, if_true, if_false, Except.error.injEq] at h
      rw [← h] at hinvalid
      cases hinvalid

omit [Crypto] in
theorem firstOversized_eq_none_iff {limit : Nat} (index : Nat) {xs : List Extrinsic} :
    firstOversized limit index xs = none ↔ ∀ x ∈ xs, x.size ≤ limit := by
  induction xs generalizing index with
  | nil => simp [firstOversized]
  | cons x xs ih =>
    rw [firstOversized, List.forall_mem_cons]
    by_cases hbig : limit < x.size
    · simp only [hbig, if_true, reduceCtorEq, Nat.not_le.2 hbig, false_and]
    · simp only [hbig, if_false, ih, Nat.not_lt.1 hbig, true_and]

omit [Crypto] in
theorem checkShape_eq_ok_iff {consensus : ConsensusParams} :
    b.checkShape consensus = .ok () ↔
      b.header.version = blockVersion ∧ b.extrinsics.length ≤ consensus.maxBlockExtrinsics ∧
      (∀ x ∈ b.extrinsics, x.size ≤ consensus.maxExtrinsicSize) ∧ b.height ≠ 0 ∧
      b.parent.isNull = false := by
  rw [Block.checkShape, ← firstOversized_eq_none_iff 0]
  by_cases hversion : b.header.version = blockVersion
  case neg => simp [hversion]
  by_cases hlength : consensus.maxBlockExtrinsics < b.extrinsics.length
  case pos => simp [hversion, hlength, Nat.not_le.2 hlength]
  cases firstOversized consensus.maxExtrinsicSize 0 b.extrinsics with
  | some found => simp [hversion, hlength]
  | none => simp [hversion, hlength, Nat.not_lt.1 hlength]

omit [Crypto] in
theorem version_eq_of_checkShape {consensus : ConsensusParams}
    (h : b.checkShape consensus = .ok ()) : b.header.version = blockVersion :=
  (checkShape_eq_ok_iff.1 h).1

theorem follows_of_validateBlock (h : validateBlock (.ofRule rule) b parent = .ok tip) :
    Follows (.ofRule rule) parent tip := by
  have hb := block_eq_of_validateBlock h
  obtain ⟨hheight, hseal, hweight, -⟩ := validateBlock_eq_ok_iff.1 h
  have hplace := Sealing.checkPlacement_eq_ok_iff.1 (Engine.checkPlacement_of_validate hseal)
  obtain ⟨w, hw, hpos⟩ := Engine.weight_of_validate hseal
  rw [hweight] at hw
  cases hw
  subst hb
  exact ⟨hplace.1, hheight, hweight, hpos⟩

theorem Valid.follows (h : Valid (.ofRule rule) parent tip) : Follows (.ofRule rule) parent tip :=
  follows_of_validateBlock h.validated

theorem Valid.version_state (h : Valid engine parent tip) :
    tip.state.version = parent.state.version + 1 := by
  obtain ⟨-, -, -, -, output, hrun, -, htip⟩ := validateBlock_eq_ok_iff.1 h.validated
  rw [htip]
  exact Execution.version_applyAll hrun

/-! ### Blocks of one's own -/

namespace Candidate

variable {xs : List Extrinsic} {ctx : SealContext}

theorem complete_ok_cases {c : Candidate} (h : c.complete engine parent ctx = .ok tip) :
    ∃ mark, engine.produce c.template parent.header c.template.stateDigest ctx = .ok mark ∧
      engine.weight (c.template.complete mark) = .ok tip.weight ∧
      tip = ⟨⟨c.template.complete mark, c.extrinsics⟩, c.state, tip.weight⟩ := by
  rw [complete] at h
  split at h
  · cases h
  · rename_i mark hmark
    simp only at h
    split at h
    · cases h
    · rename_i weight hweight
      cases h
      exact ⟨mark, hmark, hweight, rfl⟩

theorem extrinsics_of_complete {c : Candidate} (h : c.complete engine parent ctx = .ok tip) :
    tip.block.extrinsics = c.extrinsics := by
  obtain ⟨mark, -, -, htip⟩ := complete_ok_cases h
  rw [htip]

theorem mem_prepare_or {x : Extrinsic} (parent : ChainTip) (hx : x ∈ xs) :
    x ∈ (prepare parent xs).1.extrinsics ∨ ∃ e, (x, e) ∈ (prepare parent xs).2 := by
  have hmem := (Execution.perm_sift parent.state xs).mem_iff.2 hx
  rcases List.mem_append.1 hmem with hin | hout
  · exact Or.inl hin
  · obtain ⟨⟨y, e⟩, hy, rfl⟩ := List.mem_map.1 hout
    exact Or.inr ⟨e, hy⟩

theorem mem_of_mem_prepare {x : Extrinsic} (hx : x ∈ (prepare parent xs).1.extrinsics) : x ∈ xs :=
  (Execution.perm_sift parent.state xs).mem_iff.1 (List.mem_append_left _ hx)

theorem length_prepare_le (parent : ChainTip) (xs : List Extrinsic) :
    (prepare parent xs).1.extrinsics.length ≤ xs.length := by
  rw [← (Execution.perm_sift parent.state xs).length_eq, List.length_append]
  exact Nat.le_add_right _ _

theorem follows_of_complete
    (h : (prepare parent xs).1.complete (.ofRule rule) parent ctx = .ok tip) :
    Follows (.ofRule rule) parent tip := by
  obtain ⟨mark, hmark, hweight, htip⟩ := complete_ok_cases h
  have hplace := Sealing.checkPlacement_eq_ok_iff.1 (Engine.checkPlacement_of_produce hmark)
  obtain ⟨w, hw, hpos⟩ := Engine.weight_complete hmark
  rw [hweight] at hw
  cases hw
  rw [htip]
  exact ⟨hplace.1, hplace.2, hweight, hpos⟩

/-- **A block that was made on a parent is valid there**, though it is never validated. -/
theorem valid_of_complete (hverify : Crypto.SignaturesVerify) (hfit : rule.PositionsFit)
    (h : (prepare parent xs).1.complete (.ofRule rule) parent ctx = .ok tip) :
    Valid (.ofRule rule) parent tip := by
  obtain ⟨mark, hmark, hweight, htip⟩ := complete_ok_cases h
  have hplace := Sealing.checkPlacement_eq_ok_iff.1 (Engine.checkPlacement_of_produce hmark)
  have hrun := Execution.applyAll_select parent.state xs
  rw [htip]
  refine ⟨validateBlock_eq_ok_iff.2 ⟨hplace.2, Engine.validate_complete hverify hfit hmark, hweight,
    rfl, _, hrun, rfl, rfl⟩, rfl⟩

end Candidate

end LedgerChain
