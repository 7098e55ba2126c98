import LedgerChain.Node
import LedgerChain.Proofs.ForkChoice.Consider

/-!
# Deciding on a block

A node **offers** a block to itself when it stores the block and decides on it; imported blocks and
blocks of its own go this way and no other (`Node.offer`).

Deciding has four ends (`Node.Decided`): the tree is left alone; the block is attached and the
canonical tip stays, being the best tip; the block is attached and there is a better tip, but its
pointer cannot be written, so the canonical tip stays behind; or the canonical tip moves to the best
tip and the root moves up behind it (`Node.Settled`).
-/

namespace LedgerChain

namespace Node

variable [Crypto] {n n' : Node} {tip : ChainTip}

/-- Stores a validated block and decides on it. -/
def offer (n : Node) (tip : ChainTip) : Except ChainError (Outcome × PoolUpdate) × Node :=
  match n.store.put tip.block tip.state with
  | .error e => (.error (.store e), n)
  | .ok store => decide { n with store } tip

theorem submitTip_eq (n : Node) (tip : ChainTip) :
    n.submitTip tip =
      match n.offer tip with
      | (.error e, n') => (.error e, n')
      | (.ok (outcome, update), n') => (.ok outcome, n'.updatePool update) := by
  unfold submitTip offer
  cases n.store.put tip.block tip.state <;> rfl

theorem submitTip_eq_ok {n : Node} {tip : ChainTip} {outcome : Outcome} {update : PoolUpdate}
    (h : (n.offer tip).1 = .ok (outcome, update)) :
    n.submitTip tip = (.ok outcome, (n.offer tip).2.updatePool update) := by
  rw [submitTip_eq]
  rcases hoffer : n.offer tip with ⟨answer, n₁⟩
  rw [hoffer] at h
  cases h
  rfl

/-! ### After the canonical tip moved -/

/-- The fork choice of a node with the root moved up. -/
def cutTo (n : Node) (t : ChainTree) : Node :=
  publish { n with forkChoice := { n.forkChoice with tree := t } }

/-- A tree that is left when the root moves up the lineage of the canonical tip, or stays. -/
structure Cut (f : ForkChoice) (t : ChainTree) : Prop where
  root_mem : t.root ∈ f.tree.lineage f.best
  isUpperPart : f.tree.IsUpperPart t.root t
  eq_of_le : f.bestHeight ≤ f.tree.rootHeight + f.finalityDepth → t = f.tree
  rootHeight_eq : t.rootHeight = max f.tree.rootHeight (f.bestHeight - f.finalityDepth)

/-- What a node becomes once its canonical tip has moved and the pointer is written: the root moves
up the lineage of the canonical tip, the status is published, and the finalized pointer is written
if it is out of date and can be written. -/
inductive Settled (n : Node) : Node → Prop
  | unwritten {t : ChainTree} (hcut : Cut n.forkChoice t)
      (hdue : n.storedFinalized = t.root ∨ ∃ e, n.store.setPointer .finalized t.root = .error e) :
      Settled n (n.cutTo t)
  | written {t : ChainTree} {store : Store} (hcut : Cut n.forkChoice t)
      (hstore : n.store.setPointer .finalized t.root = .ok store) :
      Settled n { n.cutTo t with store, storedFinalized := t.root }

omit [Crypto] in
theorem storeFinalized_ok_cases (h : n.storeFinalized = .ok n') :
    (n.storedFinalized = n.forkChoice.tree.root ∧ n' = n) ∨
      ∃ store, n.store.setPointer .finalized n.forkChoice.tree.root = .ok store ∧
        n' = { n with store, storedFinalized := n.forkChoice.tree.root } := by
  simp only [storeFinalized] at h
  split at h
  · rename_i heq
    cases h
    exact Or.inl ⟨heq, rfl⟩
  · split at h
    · cases h
    · rename_i store hstore
      cases h
      exact Or.inr ⟨store, hstore, rfl⟩

omit [Crypto] in
theorem storeFinalized_error {e : StoreError} (h : n.storeFinalized = .error e) :
    n.store.setPointer .finalized n.forkChoice.tree.root = .error e := by
  simp only [storeFinalized] at h
  split at h
  · cases h
  · split at h
    · rename_i e' he
      cases h
      exact he
    · cases h

theorem settled_settle (h : n.forkChoice.WellFormed) : Settled n n.settle := by
  obtain ⟨report, t, hadv, hmem, hpart, hstay, hheight⟩ := h.rooted.advanceRoot_spec
  have hcut : Cut n.forkChoice t := ⟨hmem, hpart, hstay, hheight⟩
  cases hstore : (n.cutTo t).storeFinalized with
  | error e =>
    have hsettle : n.settle = n.cutTo t := by
      rw [cutTo] at hstore ⊢
      simp only [settle, hadv, hstore]
    rw [hsettle]
    exact .unwritten hcut (Or.inr ⟨e, storeFinalized_error hstore⟩)
  | ok n' =>
    have hsettle : n.settle = n' := by
      rw [cutTo] at hstore
      simp only [settle, hadv, hstore]
    rw [hsettle]
    rcases storeFinalized_ok_cases hstore with ⟨hsame, rfl⟩ | ⟨store, hset, rfl⟩
    · exact .unwritten hcut (Or.inl hsame)
    · exact .written hcut hset

/-! ### The ends of a decision -/

/-- The node with a block attached to its tree. -/
def withTip (n : Node) (tip : ChainTip) (below : TreeEntry) : Node :=
  { n with forkChoice := { n.forkChoice with tree := n.forkChoice.tree.graft tip below } }

/-- The node with its canonical tip moved. -/
def moveTo (n : Node) (id : BlockId) : Node := { n with forkChoice := n.forkChoice.setBest id }

/-- The ends of a decision on a block: the answer, and the node after it. -/
inductive Decided (n : Node) (tip : ChainTip) :
    Except ChainError (Outcome × PoolUpdate) → Node → Prop
  /-- The block is known or does not fit the tree. -/
  | unchanged {answer : Except ChainError (Outcome × PoolUpdate)}
      (hnot : ∀ below, ¬ n.forkChoice.tree.Fits tip below)
      (hanswer : (n.forkChoice.tree.contains tip.id = true ∧
          answer = .ok (.ignored .alreadyKnown, {})) ∨
        (n.forkChoice.tree.find? tip.parent = none ∧ answer = .ok (.ignored .stale, {})) ∨
        ∃ e, answer = .error e) : Decided n tip answer n
  /-- The canonical tip is still the best. -/
  | stayed {below : TreeEntry} (hfits : n.forkChoice.tree.Fits tip below)
      (hbest : (n.forkChoice.tree.graft tip below).IsBest n.forkChoice.best) :
      Decided n tip (.ok (.ignored .notBetter, {})) (n.withTip tip below)
  /-- There is a better tip, but the pointer cannot be written. -/
  | heldBack {below : TreeEntry} {id : BlockId} {e : StoreError}
      (hfits : n.forkChoice.tree.Fits tip below)
      (hbest : (n.forkChoice.tree.graft tip below).IsBest id)
      (hne : id ≠ n.forkChoice.best)
      (hstore : n.store.setPointer .canonical id = .error e) :
      Decided n tip (.error (.store e)) (n.withTip tip below)
  /-- The canonical tip moved to the best tip. -/
  | moved {below : TreeEntry} {id : BlockId} {outcome : Outcome} {store : Store} {n' : Node}
      (hfits : n.forkChoice.tree.Fits tip below)
      (hbest : (n.forkChoice.tree.graft tip below).IsBest id)
      (hne : id ≠ n.forkChoice.best) (hchanged : outcome.changedCanonical = true)
      (hstore : n.store.setPointer .canonical id = .ok store)
      (hsettled : Settled (cancelAttempts { (n.withTip tip below).moveTo id with store }) n') :
      Decided n tip (.ok (outcome, .ofOutcome tip.block outcome)) n'

theorem Decided.rest_eq {answer : Except ChainError (Outcome × PoolUpdate)}
    (h : Decided n tip answer n') :
    n'.orphans = n.orphans ∧ n'.invalid = n.invalid ∧ n'.params = n.params ∧
      n'.forkChoice.finalityDepth = n.forkChoice.finalityDepth := by
  cases h with
  | unchanged _ _ => exact ⟨rfl, rfl, rfl, rfl⟩
  | stayed _ _ => exact ⟨rfl, rfl, rfl, rfl⟩
  | heldBack _ _ _ _ => exact ⟨rfl, rfl, rfl, rfl⟩
  | moved _ _ _ _ _ hsettled => cases hsettled <;> exact ⟨rfl, rfl, rfl, rfl⟩

/-- **Every decision has one of the four ends.** -/
theorem decided_decide (h : n.forkChoice.WellFormed) (hpos : 1 ≤ tip.weight) :
    Decided n tip (n.decide tip).1 (n.decide tip).2 := by
  rcases h.consider_cases hpos with ⟨hnot, answer, hcons, hanswer⟩ |
    ⟨below, id, hfits, hbest, ⟨rfl, hcons⟩ | ⟨hne, outcome, hchanged, hcons⟩⟩
  · rcases hanswer with ⟨hin, rfl⟩ | ⟨hout, rfl⟩ | ⟨e, rfl⟩
    · have hdecide : n.decide tip = (.ok (.ignored .alreadyKnown, {}), n) := by
        rw [Node.decide, hcons]
        rfl
      rw [hdecide]
      exact .unchanged hnot (Or.inl ⟨hin, rfl⟩)
    · have hdecide : n.decide tip = (.ok (.ignored .stale, {}), n) := by
        rw [Node.decide, hcons]
        rfl
      rw [hdecide]
      exact .unchanged hnot (Or.inr (Or.inl ⟨hout, rfl⟩))
    · have hdecide : n.decide tip = (.error e, n) := by
        rw [Node.decide, hcons]
      rw [hdecide]
      exact .unchanged hnot (Or.inr (Or.inr ⟨e, rfl⟩))
  · have hdecide : n.decide tip = (.ok (.ignored .notBetter, {}), n.withTip tip below) := by
      rw [Node.decide, hcons]
      rfl
    rw [hdecide]
    exact .stayed hfits hbest
  · have hwf := h.graft hfits hpos
    obtain ⟨e, he, -⟩ := hwf.tree.mem_tips.1 hbest.mem_tips
    cases hstore : n.store.setPointer .canonical id with
    | error e =>
      -- rolling back undoes the move, not the new block
      have hback : ForkChoice.rollback _ n.forkChoice.best = .ok (n.withTip tip below).forkChoice :=
        hwf.rooted.rollback_eq id
      have hdecide : n.decide tip = (.error (.store e), n.withTip tip below) := by
        rw [Node.decide, hcons]
        simp only [hchanged, Bool.not_true, Bool.false_eq_true, if_false,
          ForkChoice.best_setBest, hstore]
        simp only [withTip] at hback
        rw [hback]
        rfl
      rw [hdecide]
      exact .heldBack hfits hbest hne hstore
    | ok store =>
      have hdecide : n.decide tip = (.ok (outcome, .ofOutcome tip.block outcome),
          settle (cancelAttempts { (n.withTip tip below).moveTo id with store })) := by
        rw [Node.decide, hcons]
        simp only [hchanged, Bool.not_true, Bool.false_eq_true, if_false,
          ForkChoice.best_setBest, hstore]
        rfl
      rw [hdecide]
      exact .moved hfits hbest hne hchanged hstore (settled_settle (hwf.setBest he))

end Node

end LedgerChain
