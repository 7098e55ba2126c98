import LedgerChain.Proofs.Node.Departed

/-!
# Imports that do not accept

An import with an answer other than acceptance changes nothing on the chain.  Every exit of the
pipeline is one of three (`Node.unaccepted_importOne`):

* the block is ignored, and the node stays as it is;
* the block is refused, and at most its identifier is noted as that of a bad header
  (`Node.Dismisses`);
* the block is held as an orphan, since its parent is in neither tree nor store (`Node.Shelves`).

A block that fork choice would ignore is in the tree or has no parent there, and no such block gets as
far as the store (`Node.Checks.isAccepted_of_offer`).
-/

namespace LedgerChain

/-- The cause is a fault of the header: the seal, the execution, or the digest of the state. -/
def ImportError.BlamesHeader (cause : ImportError) : Prop :=
  (∃ e, cause = .consensus e) ∨ (∃ e, cause = .transition e) ∨
    ∃ claimed computed, cause = .digestMismatch .state claimed computed

theorem ImportError.isBlockInvalid_iff (cause : ImportError) :
    cause.isBlockInvalid = true ↔ cause.BlamesHeader := by
  cases cause with
  | digestMismatch kind _ _ => cases kind <;> simp [isBlockInvalid, BlamesHeader]
  | _ => simp [isBlockInvalid, BlamesHeader]

variable [Crypto]

namespace Node

variable {n n' : Node} {b : Block}

/-! ### The exits -/

/-- The ends of an import that does not accept: the answer, and the node after it. -/
inductive Unaccepted (n : Node) (b : Block) : ImportResult → Node → Prop
  /-- There is nothing to do with the block. -/
  | ignored (reason : IgnoreReason) : Unaccepted n b (.ignored reason) n
  /-- The block is refused. -/
  | refused (cause : ImportError) : Unaccepted n b (.rejected cause) (n.reject b.id cause).2
  /-- The block is held as an orphan. -/
  | held {n' : Node} (hparent : n.hasSeen b.parent = false)
      (hhigh : n.forkChoice.tree.rootHeight + 1 < b.height)
      (hstored : n.store.getBlock b.parent = .ok none)
      (hhold : n.holdOrphan b = (.pendingParent, n')) : Unaccepted n b .pendingParent n'

theorem holdOrphan_cases (n : Node) (b : Block) :
    n.holdOrphan b = (.rejected (.unknownParent b.parent), n) ∨
      ∃ n', n.holdOrphan b = (.pendingParent, n') := by
  rw [holdOrphan]
  cases hpool : n.orphans with
  | none => exact Or.inl rfl
  | some pool =>
    simp only [OrphanPool.insert]
    split
    · -- nothing was taken, so the pool is the one from before
      split
      · exact Or.inr ⟨_, rfl⟩
      · left
        rw [← hpool]
    · simp only [Bool.true_or, if_true]
      exact Or.inr ⟨_, rfl⟩

theorem unaccepted_importUnknownParent (hparent : n.hasSeen b.parent = false)
    {result : ImportResult} (h : n.importUnknownParent b = (.ok result, n')) :
    Unaccepted n b result n' := by
  rw [importUnknownParent] at h
  split at h
  · cases h
    exact .ignored .stale
  · rename_i hhigh
    split at h
    · cases h
    · cases h
      exact .ignored .stale
    · rename_i hstored
      rcases n.holdOrphan_cases b with hdrop | ⟨m, hhold⟩
      · rw [hdrop] at h
        cases h
        exact .refused (.unknownParent b.parent)
      · rw [hhold] at h
        cases h
        exact .held hparent (Nat.not_le.1 hhigh) hstored hhold

/-- **Every import of one block that does not accept ends in one of these ways.** -/
theorem unaccepted_importOne (hn : n.Sound) {result : ImportResult}
    (hnot : result.isAccepted = false) (h : n.importOne b = (.ok result, n')) :
    Unaccepted n b result n' := by
  cases hseen : n.hasSeen b.id with
  | true =>
    rw [importOne, if_pos hseen] at h
    cases h
    exact .ignored .alreadyKnown
  | false =>
    cases hinvalid : n.invalid.contains b.id with
    | true =>
      simp only [importOne, hseen, hinvalid, Bool.false_eq_true, if_false, if_true] at h
      cases h
      exact .refused .knownInvalid
    | false =>
      simp only [importOne, hseen, hinvalid, Bool.false_eq_true, if_false] at h
      cases hshape : b.checkShape n.params.consensus with
      | error e =>
        rw [hshape] at h
        cases h
        exact .refused (.malformed e)
      | ok u =>
        rw [hshape] at h
        cases hbelow : n.forkChoice.tree.find? b.parent with
        | none =>
          rw [hbelow] at h
          exact unaccepted_importUnknownParent (ChainTree.find?_eq_none_iff.1 hbelow) h
        | some below =>
          simp only [hbelow, importOnParent] at h
          cases hvalid : validateBlock n.engine b below.tip with
          | error e =>
            rw [hvalid] at h
            cases h
            exact .refused e
          | ok tip =>
            have hchecks := checks_of_validateBlock hseen hbelow hvalid
            simp only [hvalid, submitTip_eq] at h
            rcases hoffer : n.offer tip with ⟨e | ⟨outcome, update⟩, n₁⟩ <;> rw [hoffer] at h
            · cases h
            · -- what fits and is stored is accepted
              cases h
              rw [hchecks.isAccepted_of_offer hn (by rw [hoffer])] at hnot
              cases hnot

/-! ### What they leave -/

/-- A refused block leaves nothing behind but its identifier in the memory of bad headers, and that
only if its header is to blame. -/
structure Dismisses (n : Node) (b : Block) (cause : ImportError) (n' : Node) : Prop where
  frame : n' = { n with invalid := n'.invalid }
  blamed : cause.BlamesHeader → n'.invalid = n.invalid.note b.id
  spared : ¬ cause.BlamesHeader → n' = n
  gains : ∀ id ∈ n'.invalid.ids, id ∈ n.invalid.ids ∨ id = b.id ∧ cause.BlamesHeader

/-- A block that waits changes the pool of orphans and nothing else.  It is held there, its parent is
in neither tree nor store, and it is high enough for a parent above the root. -/
structure Shelves (n : Node) (b : Block) (n' : Node) : Prop where
  frame : n' = { n with orphans := n'.orphans }
  held : ∃ pool, n'.orphans = some pool ∧ pool.contains b.id = true
  unseen : n.hasSeen b.parent = false
  unread : n.store.getBlock b.parent = .ok none
  unstored : b.parent ∉ n.store.faults.lostBlocks → n.store.blocks.contains b.parent = false
  high : n.forkChoice.tree.rootHeight + 1 < b.height

theorem dismisses_reject (n : Node) (b : Block) (cause : ImportError) :
    Dismisses n b cause (n.reject b.id cause).2 := by
  by_cases hblamed : cause.BlamesHeader
  · have hnote : (n.reject b.id cause).2 = { n with invalid := n.invalid.note b.id } := by
      rw [reject, if_pos ((cause.isBlockInvalid_iff).2 hblamed)]
    rw [hnote]
    exact ⟨rfl, fun _ => rfl, fun hspared => absurd hblamed hspared,
      fun id hid => (RecentIds.mem_of_mem_note hid).imp_right fun heq => ⟨heq, hblamed⟩⟩
  · have hsame : (n.reject b.id cause).2 = n := by
      rw [reject, if_neg fun hbad => hblamed ((cause.isBlockInvalid_iff).1 hbad)]
    rw [hsame]
    exact ⟨rfl, fun h => absurd h hblamed, fun _ => rfl, fun id hid => Or.inl hid⟩

theorem holds_of_holdOrphan (h : n.holdOrphan b = (.pendingParent, n')) (hn : n.Orderly) :
    n' = { n with orphans := n'.orphans } ∧
      ∃ pool, n'.orphans = some pool ∧ pool.contains b.id = true := by
  have hwaits : b.id ∈ n'.waiting.map Block.id := by
    obtain ⟨-, -, ⟨hsame, hknown⟩ | ⟨-, -, hroom | ⟨-, c, rest, -, hafter⟩⟩⟩ :=
      hn.holdOrphan_cases b
    · rw [h] at hsame hknown
      rw [show n'.waiting = n.waiting from hsame]
      exact hknown rfl
    · rw [h] at hroom
      exact List.mem_map_of_mem (hroom ▸ List.mem_append_right _ List.mem_cons_self)
    · rw [h] at hafter
      exact List.mem_map_of_mem (hafter ▸ List.mem_append_right _ List.mem_cons_self)
  have horder : n'.Orderly := by
    have horder := (hn.holdOrphan_cases b).1
    rwa [h] at horder
  rw [holdOrphan] at h
  split at h
  · cases h
  · simp only at h
    split at h
    · cases h
      exact ⟨rfl, _, rfl, (horder _ rfl).1.contains_iff.2 hwaits⟩
    · cases h

namespace Unaccepted

theorem eq_of_ignored {reason : IgnoreReason} (h : Unaccepted n b (.ignored reason) n') :
    n' = n := by
  cases h
  rfl

theorem dismisses {cause : ImportError} (h : Unaccepted n b (.rejected cause) n') :
    Dismisses n b cause n' := by
  cases h
  exact dismisses_reject n b cause

theorem shelves (hn : n.Orderly) (h : Unaccepted n b .pendingParent n') : Shelves n b n' := by
  cases h with
  | held hparent hhigh hstored hhold =>
    obtain ⟨hframe, hheld⟩ := holds_of_holdOrphan hhold hn
    exact ⟨hframe, hheld, hparent, hstored, Store.contains_of_getBlock_none hstored, hhigh⟩

end Unaccepted

/-- **Every import that does not accept ends in one of these ways**, since nothing is released. -/
theorem unaccepted_importBlock (hn : n.Sound) {result : ImportResult}
    (hnot : result.isAccepted = false) (h : n.importBlock b = (.ok result, n')) :
    Unaccepted n b result n' :=
  unaccepted_importOne hn hnot (importOne_of_not_accepted hnot h)

/-- An encoded block is imported as the block that it encodes, or refused if it encodes none. -/
theorem importEncoded_cases (n : Node) (input : Bytes) :
    (∃ e, Block.decode input = .error e ∧
        n.importEncoded input = (.ok (.rejected (.malformed (.undecodable e))), n)) ∨
      ∃ b, Block.decode input = .ok b ∧ n.importEncoded input = n.importBlock b := by
  rw [importEncoded]
  cases hdecode : Block.decode input with
  | error e => exact Or.inl ⟨e, rfl, rfl⟩
  | ok b => exact Or.inr ⟨b, rfl, rfl⟩

end Node

end LedgerChain
