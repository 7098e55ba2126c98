import LedgerChain.Proofs.Node.Run
import LedgerChain.Proofs.Store.Journal

/-!
# The canonical tip of a node

A node is **at its best** if its canonical tip is the best tip of its tree.  Every decision on a
block that fits the tree brings a node there, except one whose pointer cannot be written, which
leaves the canonical tip where it was.  A canonical tip that moves, moves to a better block
(`Decided.rank_cases`), so along a run it never gets worse (`Run.noWorse`).
-/

namespace LedgerChain

namespace Node

variable [Crypto] {n n' m : Node} {tip : ChainTip}
  {answer : Except ChainError (Outcome × PoolUpdate)}

/-- The canonical tip is the best tip of the tree. -/
def AtBest (n : Node) : Prop := n.forkChoice.tree.IsBest n.forkChoice.best

/-- The canonical tip with its weight, as blocks are compared. -/
def rank (n : Node) : BlockId × Nat := n.forkChoice.rank

/-! ### After a move -/

omit [Crypto] in
theorem Settled.exists_tree (h : Settled n n') :
    ∃ t, Cut n.forkChoice t ∧ n'.forkChoice = { n.forkChoice with tree := t } ∧
      n'.status = n'.forkChoice.status := by
  cases h with
  | unwritten hcut _ => exact ⟨_, hcut, rfl, rfl⟩
  | written hcut _ => exact ⟨_, hcut, rfl, rfl⟩

theorem Settled.wellFormed (h : Settled n n') (hwf : n.forkChoice.WellFormed) :
    n'.forkChoice.WellFormed := by
  obtain ⟨t, hcut, heq, -⟩ := h.exists_tree
  rw [heq]
  exact hwf.cutBack hcut.root_mem hcut.isUpperPart

omit [Crypto] in
theorem Settled.rank_eq (h : Settled n n') : n'.rank = n.rank := by
  obtain ⟨t, hcut, heq, -⟩ := h.exists_tree
  rw [rank, rank, heq]
  exact ForkChoice.rank_cutBack hcut.root_mem hcut.isUpperPart

omit [Crypto] in
theorem Settled.atBest (h : Settled n n') (hbest : n.AtBest) : n'.AtBest := by
  obtain ⟨t, hcut, heq, -⟩ := h.exists_tree
  rw [AtBest, heq]
  exact hbest.of_isUpperPart hcut.isUpperPart hcut.root_mem

/-! ### Decisions -/

theorem Decided.wellFormed (h : Decided n tip answer n') (hwf : n.forkChoice.WellFormed)
    (hpos : 1 ≤ tip.weight) : n'.forkChoice.WellFormed := by
  cases h with
  | unchanged _ _ => exact hwf
  | stayed hfits _ => exact hwf.graft hfits hpos
  | heldBack hfits _ _ _ => exact hwf.graft hfits hpos
  | moved hfits hbest _ _ _ hsettled =>
    have hgraft := hwf.graft hfits hpos
    obtain ⟨e, he, -⟩ := hgraft.tree.mem_tips.1 hbest.mem_tips
    exact hsettled.wellFormed (hgraft.setBest he)

/-- A decision whose answer says that the canonical tip moved, or that the block is not better,
leaves the node at its best. -/
theorem Decided.atBest {outcome : Outcome} {update : PoolUpdate}
    (h : Decided n tip (.ok (outcome, update)) n') (hknown : outcome ≠ .ignored .alreadyKnown)
    (hstale : outcome ≠ .ignored .stale) : n'.AtBest := by
  cases h with
  | unchanged _ hanswer =>
    rcases hanswer with ⟨-, heq⟩ | ⟨-, heq⟩ | ⟨e, heq⟩
    · cases heq
      exact absurd rfl hknown
    · cases heq
      exact absurd rfl hstale
    · cases heq
  | stayed _ hbest => exact hbest
  | moved _ hbest _ _ _ hsettled => exact hsettled.atBest hbest

/-- **A canonical tip that moves gets better; one that does not keeps its place.** -/
theorem Decided.rank_cases (h : Decided n tip answer n') (hwf : n.forkChoice.WellFormed)
    (hpos : 1 ≤ tip.weight) :
    ((∃ outcome update, answer = .ok (outcome, update) ∧ outcome.changedCanonical = true) ∧
        ForkChoice.beats n'.rank n.rank = true) ∨
      ((∀ outcome update, answer = .ok (outcome, update) → outcome.changedCanonical = false) ∧
        n'.rank = n.rank ∧ n'.status = n.status) := by
  cases h with
  | unchanged _ hanswer =>
    refine Or.inr ⟨?_, rfl, rfl⟩
    rintro outcome update rfl
    rcases hanswer with ⟨-, heq⟩ | ⟨-, heq⟩ | ⟨e, heq⟩
    · cases heq
      rfl
    · cases heq
      rfl
    · cases heq
  | stayed hfits _ =>
    refine Or.inr ⟨?_, hwf.rank_graft hfits, rfl⟩
    intro outcome update heq
    cases heq
    rfl
  | heldBack hfits _ _ _ =>
    exact Or.inr ⟨fun outcome update heq => (by cases heq), hwf.rank_graft hfits, rfl⟩
  | @moved below id outcome store _ hfits hbest hne hchanged _ hsettled =>
    refine Or.inl ⟨⟨outcome, _, rfl, hchanged⟩, ?_⟩
    have hgraft := hwf.graft hfits hpos
    obtain ⟨e, he, -⟩ := hgraft.tree.mem_tips.1 hbest.mem_tips
    obtain ⟨b, hb, -⟩ := hgraft.best
    -- both ranks are read off the tree with the new block
    have hnew : n'.rank = (id, e.cumulativeWeight) := by
      rw [hsettled.rank_eq]
      exact ForkChoice.rank_eq (f := ((n.withTip tip below).moveTo id).forkChoice) he
    have hold : n.rank = (n.forkChoice.best, b.cumulativeWeight) := by
      rw [rank, ← hwf.rank_graft hfits]
      exact ForkChoice.rank_eq (f := (n.withTip tip below).forkChoice) hb
    rw [hnew, hold]
    exact hbest.beats he hb (Ne.symm hne)

/-! ### Offers and runs -/

omit [Crypto] in
/-- A block that adds to the weight of its branch what its seal says. -/
structure Heavy (n : Node) (tip : ChainTip) : Prop where
  weight_eq : n.engine.weight tip.header = .ok tip.weight
  weight_pos : 1 ≤ tip.weight

theorem offer_cases (n : Node) (tip : ChainTip) :
    (∃ e, n.offer tip = (.error (.store e), n)) ∨
      ∃ store, n.store.put tip.block tip.state = .ok store ∧
        n.offer tip = decide { n with store } tip := by
  unfold offer
  cases hput : n.store.put tip.block tip.state with
  | error e => exact Or.inl ⟨e, rfl⟩
  | ok store => exact Or.inr ⟨store, rfl, rfl⟩

theorem wellFormed_offer (hwf : n.forkChoice.WellFormed) (hpos : 1 ≤ tip.weight) :
    (n.offer tip).2.forkChoice.WellFormed := by
  rcases n.offer_cases tip with ⟨e, heq⟩ | ⟨store, -, heq⟩ <;> rw [heq]
  · exact hwf
  · have hwf' : ({ n with store } : Node).forkChoice.WellFormed := hwf
    exact (decided_decide hwf' hpos).wellFormed hwf' hpos

theorem rank_offer_cases (hwf : n.forkChoice.WellFormed) (hpos : 1 ≤ tip.weight) :
    ((∃ outcome update, (n.offer tip).1 = .ok (outcome, update) ∧
        outcome.changedCanonical = true) ∧
        ForkChoice.beats (n.offer tip).2.rank n.rank = true) ∨
      ((∀ outcome update, (n.offer tip).1 = .ok (outcome, update) →
        outcome.changedCanonical = false) ∧
        (n.offer tip).2.rank = n.rank ∧ (n.offer tip).2.status = n.status) := by
  rcases n.offer_cases tip with ⟨e, heq⟩ | ⟨store, -, heq⟩ <;> rw [heq]
  · exact Or.inr ⟨fun outcome update h => (by cases h), rfl, rfl⟩
  · have hwf' : ({ n with store } : Node).forkChoice.WellFormed := hwf
    exact (decided_decide hwf' hpos).rank_cases hwf' hpos

omit [Crypto] in
theorem chain_shutdown (n : Node) :
    n.shutdown.2.forkChoice = n.forkChoice ∧ n.shutdown.2.status = n.status := by
  rcases n.shutdown_cases with hsame | ⟨store, -, hsame | ⟨store', -, hsame⟩⟩
  · exact ⟨hsame.forkChoice, hsame.status⟩
  · exact ⟨hsame.forkChoice, hsame.status⟩
  · exact ⟨hsame.forkChoice, hsame.status⟩

omit [Crypto] in
theorem forkChoice_shutdown (n : Node) : n.shutdown.2.forkChoice = n.forkChoice :=
  n.chain_shutdown.1

theorem Step.wellFormed (h : Step Heavy n n') (hwf : n.forkChoice.WellFormed) :
    n'.forkChoice.WellFormed := by
  cases h with
  | aside hsame => exact hsame.forkChoice ▸ hwf
  | offer hheavy => exact wellFormed_offer hwf hheavy.weight_pos
  | shutdown => exact n.forkChoice_shutdown ▸ hwf

theorem Run.wellFormed (h : Run Heavy n n') (hwf : n.forkChoice.WellFormed) :
    n'.forkChoice.WellFormed :=
  h.induct (I := fun m => m.forkChoice.WellFormed) (fun hwf hstep => hstep.wellFormed hwf) hwf

/-! ### The published status -/

/-- The published status is that of fork choice. -/
def Published (n : Node) : Prop := n.status = n.forkChoice.status

theorem Decided.published (h : Decided n tip answer n') (hwf : n.forkChoice.WellFormed)
    (hn : n.Published) : n'.Published := by
  have hgraft : ∀ {below : TreeEntry}, n.forkChoice.tree.Fits tip below →
      (n.withTip tip below).Published := by
    intro below hfits
    have hweight := congrArg Prod.snd (hwf.rank_graft hfits)
    rw [Published, ForkChoice.status]
    refine Eq.trans hn ?_
    rw [ForkChoice.status]
    exact congrArg (fun w => ChainStatus.mk _ _ w _) hweight.symm
  cases h with
  | unchanged _ _ => exact hn
  | stayed hfits _ => exact hgraft hfits
  | heldBack hfits _ _ _ => exact hgraft hfits
  | moved _ _ _ _ _ hsettled =>
    obtain ⟨t, -, -, hstatus⟩ := hsettled.exists_tree
    exact hstatus

theorem Step.published (h : Step Heavy n n') (hwf : n.forkChoice.WellFormed)
    (hn : n.Published) : n'.Published := by
  cases h with
  | aside hsame =>
    rw [Published, hsame.status, hsame.forkChoice]
    exact hn
  | @offer tip hheavy =>
    rcases n.offer_cases tip with ⟨e, heq⟩ | ⟨store, -, heq⟩ <;> rw [heq]
    · exact hn
    · have hwf' : ({ n with store } : Node).forkChoice.WellFormed := hwf
      exact (decided_decide hwf' hheavy.weight_pos).published hwf' hn
  | shutdown =>
    rw [Published, n.chain_shutdown.1, n.chain_shutdown.2]
    exact hn

/-- **The published status stays that of fork choice**, at the end of every step of a run. -/
theorem Run.published (h : Run Heavy n n') (hwf : n.forkChoice.WellFormed) (hn : n.Published) :
    n'.Published := by
  have hboth : n'.forkChoice.WellFormed ∧ n'.Published :=
    h.induct (I := fun m => m.forkChoice.WellFormed ∧ m.Published)
      (fun hm hstep => ⟨hstep.wellFormed hm.1, hstep.published hm.1 hm.2⟩) ⟨hwf, hn⟩
  exact hboth.2

/-! ### Tips that never get worse -/

/-- The second node has the canonical tip of the first one, or a better one. -/
def NoWorse (n n' : Node) : Prop :=
  n'.rank = n.rank ∨ ForkChoice.beats n'.rank n.rank = true

omit [Crypto] in
theorem NoWorse.trans (h : NoWorse n m) (h' : NoWorse m n') : NoWorse n n' := by
  rcases h' with heq | hbeats
  · rw [NoWorse, heq]
    exact h
  · rcases h with heq | hbeats'
    · exact Or.inr (heq ▸ hbeats)
    · exact Or.inr (ForkChoice.beats_trans hbeats hbeats')

theorem Step.noWorse (h : Step Heavy n n') (hwf : n.forkChoice.WellFormed) : NoWorse n n' := by
  cases h with
  | aside hsame => exact Or.inl (congrArg ForkChoice.rank hsame.forkChoice)
  | offer hheavy =>
    rcases rank_offer_cases hwf hheavy.weight_pos with ⟨-, hbeats⟩ | ⟨-, heq, -⟩
    · exact Or.inr hbeats
    · exact Or.inl heq
  | shutdown => exact Or.inl (congrArg ForkChoice.rank n.forkChoice_shutdown)

/-- **Along a run the canonical tip never gets worse.** -/
theorem Run.noWorse (h : Run Heavy n n') (hwf : n.forkChoice.WellFormed) : NoWorse n n' := by
  induction h with
  | refl => exact Or.inl rfl
  | tail hrun hstep ih => exact ih.trans (hstep.noWorse (Run.wellFormed hrun hwf))

end Node

end LedgerChain
