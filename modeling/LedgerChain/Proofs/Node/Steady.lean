import LedgerChain.Proofs.Node.AtBest
import LedgerChain.Proofs.Node.Making

/-!
# Moves of a node with its author

A sound node stays sound while its author is at work, its orphans stay in order, and what the author
has in its hands was made on a canonical tip of an earlier moment (`Making.Steady`).  As in
`Node.Admits`, an invariant of the node and a property of canonical tips are parameters.

* The author touches the chain with one step only, the one that submits a sealed block
  (`Making.sameChain_advance`).
* The news of a block that is submitted report what it does (`Node.reports_submitSealed`).
* The news of a move tell whether the canonical tip moves, and then it gets strictly better
  (`Making.Steady.climbs`).
-/

namespace LedgerChain

variable [Crypto]

namespace Node

variable {n n' : Node} {a : Attempt} {tip : ChainTip} {xs : List Extrinsic} {ctx : SealContext}

theorem exists_canonicalTip (hwf : n.forkChoice.WellFormed) :
    ∃ e, n.forkChoice.tree.find? n.forkChoice.best = some e ∧ n.canonicalTip? = some e.tip := by
  obtain ⟨e, he, -⟩ := hwf.best
  exact ⟨e, he, by rw [canonicalTip?, ForkChoice.bestChainTip?, he, Option.map_some]⟩

theorem id_of_canonicalTip (hwf : n.forkChoice.WellFormed) (h : n.canonicalTip? = some tip) :
    tip.id = n.forkChoice.best := by
  obtain ⟨e, he, htip⟩ := exists_canonicalTip hwf
  rw [h, Option.some.injEq] at htip
  rw [htip]
  exact hwf.tree.id_eq he

/-- How an attempt ends if no block is made of a sealed one. -/
def AttemptEnd.InVain (ending : AttemptEnd) : Prop :=
  ending = .startOver ∨ ∃ e, ending = .failed (.chain e)

/-- **The news of a sealed block report what becomes of it.**  If it is submitted in vain, then there
are none, and its extrinsics go back to the pool. -/
theorem reports_submitSealed (hn : n.Orderly) (hsound : n.Sound)
    (hmade : (Candidate.prepare a.parent xs).1.complete n.engine a.parent ctx = .ok tip) :
    ∃ n₁, Reports (n.sealedNews a tip) (n.unregister a.token) n₁ ∧
      ((∃ outcome, n.submitSealed a tip = (.made tip.block outcome, n₁)) ∨
        n.sealedNews a tip = [] ∧ ∃ ending, AttemptEnd.InVain ending ∧
          n.submitSealed a tip = (ending, n₁.giveBack tip.block.extrinsics)) := by
  have hchain := sameChain_unregister n a.token
  have hsound' : (n.unregister a.token).Sound := Step.sound (.aside hchain) hsound
  have hfollows := Candidate.follows_of_complete hmade
  have hheavy : (n.unregister a.token).Heavy tip := ⟨hfollows.weight_eq, hfollows.weight_pos⟩
  rcases n.submitSealed_cases a tip with ⟨hend, hnews⟩ |
    ⟨-, -, ⟨e, hoffer, hend, hnews⟩ | ⟨outcome, update, hoffer, hend, hnews⟩⟩
  · rw [hnews]
    exact ⟨_, reports_refl _, Or.inr ⟨rfl, _, Or.inl rfl, hend⟩⟩
  · rw [hnews]
    exact ⟨_, reports_offer_error hsound'.wellFormed hheavy hoffer,
      Or.inr ⟨rfl, _, Or.inr ⟨e, rfl⟩, hend⟩⟩
  · rw [hnews]
    refine ⟨_, ?_, Or.inl ⟨outcome, hend⟩⟩
    have hoffered := reports_offer hsound'.wellFormed hheavy hoffer
    -- the orphans of the block are released after it
    have horder : (n.unregister a.token).Orderly := orderly_of_orphans_eq rfl hn
    have hkeep := (sameMemory_made (n.unregister a.token) tip update).orphans
    have hcascade := (orderly_of_orphans_eq hkeep horder).cascade_releaseOrphans tip.id
    exact hoffered.trans (hcascade.reports ((run_made hheavy update).sound hsound'))

end Node

namespace Making

open Node

variable {I : Node → Prop} {K A : Node → ChainTip → Prop} {m m' : Making}
  {config : AuthoringConfig}

theorem Advances.sameChain {timeline : Timeline} (h : m.Advances config timeline m')
    (hsealed : ∀ a tip, m.stage ≠ .sealed a tip) : m.node.SameChain m'.node := by
  cases h with
  | closed hstage => exact absurd hstage (hsealed _ _)
  | unsealed _ _ => exact (sameChain_unregister _ _).trans (sameChain_giveBack _ _)
  | pulled | registered => exact ⟨rfl, rfl, rfl, rfl, rfl, rfl⟩
  | spent | headless | chose | empty | found | done => exact .refl _

theorem sameChain_advance (hsealed : ∀ a tip, m.stage ≠ .sealed a tip) (timeline : Timeline) :
    m.node.SameChain (m.advance config timeline).node :=
  (m.advances config timeline).sameChain hsealed

/-- The node is sound and its orphans are in order, and what the author has in its hands was made on
a canonical tip of an earlier moment. -/
structure Steady (I : Node → Prop) (K : Node → ChainTip → Prop) (m : Making) : Prop where
  inv : I m.node
  sound : m.node.Sound
  orderly : m.node.Orderly
  holds : m.stage.Holds (K m.node) m.node.engine

theorem Steady.start {n : Node} (hn : I n) (hsound : n.Sound) (horder : n.Orderly) (left : Nat) :
    Making.Steady I K { node := n, left } :=
  ⟨hn, hsound, horder, trivial⟩

/-- **Every move is a run, and keeps what is steady.** -/
theorem Steady.next (hA : Admits I K A) (hI : ∀ {n}, I n → n.Sound) (h : m.Steady I K)
    (config : AuthoringConfig) (move : MakingMove) :
    Run A m.node (m.next config move).node ∧ (m.next config move).Steady I K := by
  obtain ⟨hrun, hholds⟩ : Run A m.node (m.next config move).node ∧
      (m.next config move).stage.Holds (K (m.next config move).node)
        (m.next config move).node.engine := hA.next h.inv h.holds move
  have hinv := hA.run_inv hrun h.inv
  exact ⟨hrun, hinv, hI hinv, h.orderly.next h.sound.wellFormed h.holds move, hholds⟩

theorem Steady.run (hA : Admits I K A) (hI : ∀ {n}, I n → n.Sound) (h : m.Steady I K)
    (config : AuthoringConfig) (moves : List MakingMove) :
    Run A m.node (m.run config moves).node ∧ (m.run config moves).Steady I K := by
  induction moves generalizing m with
  | nil => exact ⟨.refl, h⟩
  | cons move rest ih =>
    obtain ⟨hrun, hnext⟩ := h.next hA hI config move
    obtain ⟨hrest, hend⟩ := ih hnext
    exact ⟨hrun.trans hrest, hend⟩

theorem Steady.reports_submitSealed (h : m.Steady I K) {a : Attempt} {tip : ChainTip}
    (hstage : m.stage = .sealed a tip) :
    ∃ n₁, Reports (m.node.sealedNews a tip) (m.node.unregister a.token) n₁ ∧
      ((∃ outcome, m.node.submitSealed a tip = (.made tip.block outcome, n₁)) ∨
        m.node.sealedNews a tip = [] ∧ ∃ ending, AttemptEnd.InVain ending ∧
          m.node.submitSealed a tip = (ending, n₁.giveBack tip.block.extrinsics)) := by
  have hholds := h.holds
  rw [hstage] at hholds
  obtain ⟨-, xs, ctx, hmade⟩ := hholds
  exact Node.reports_submitSealed h.orderly h.sound hmade

theorem Steady.reports_event (h : m.Steady I K) (event : NodeEvent) :
    Reports (m.node.eventNews event) m.node (m.node.handle event).2 :=
  reports_handle h.orderly h.sound event

/-- **The news of a move tell whether it moves the canonical tip**, which makes this better. -/
theorem Steady.climbs (h : m.Steady I K) (config : AuthoringConfig) (move : MakingMove) :
    Climbs (m.news move) m.node (m.next config move).node := by
  cases move with
  | event event => exact (h.reports_event event).toClimbs
  | submit x => exact (reports_submitExtrinsic m.node x).toClimbs
  | proceed timeline =>
    by_cases hsealed : ∃ a tip, m.stage = .sealed a tip
    · obtain ⟨a, tip, hstage⟩ := hsealed
      obtain ⟨n₁, hreports, hend⟩ := h.reports_submitSealed hstage
      have hrank : (m.next config (.proceed timeline)).node.rank = n₁.rank := by
        simp only [Making.next, advance, hstage, close]
        rcases hend with ⟨outcome, hend⟩ | ⟨-, ending, -, hend⟩ <;> rw [hend]
        exact congrArg ForkChoice.rank (sameChain_giveBack n₁ _).forkChoice
      have hnews : m.news (.proceed timeline) = m.node.sealedNews a tip := by
        rw [news, hstage]
      rw [hnews]
      exact ⟨fun hex => hrank ▸ hreports.moved hex, fun hnone => hrank.trans (hreports.stayed hnone)⟩
    · simp only [not_exists] at hsealed
      have hnews : m.news (.proceed timeline) = [] := by
        rw [news]
        split
        · rename_i a tip hstage
          exact absurd hstage (hsealed a tip)
        · rfl
      rw [hnews]
      exact climbs_nil (congrArg ForkChoice.rank (sameChain_advance hsealed timeline).forkChoice)

end Making

end LedgerChain
