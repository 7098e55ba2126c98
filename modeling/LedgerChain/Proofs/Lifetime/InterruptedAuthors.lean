import LedgerChain.Proofs.Lifetime.Authoring
import LedgerChain.Proofs.Lifetime.Pools

/-!
# Authors that are interrupted

An extrinsic that becomes canonical while a block is being made is not pending when the author
returns, and not in its block, unless it was in the author's hands at that moment
(`Lifetime.canonical_extrinsic_stays_out`).

What is in hand when the block is given up goes back to the pool, canonical or not.  So it may be
pulled again, and be included a second time (`Lifetime.canonical_extrinsic_included_again`).
-/

namespace LedgerChain

namespace Lifetime

open Node

variable [Crypto] {params : Params} {initial : State} {events : List LifeEvent} {n : Node}
  {m m' : Making}

/-- **A canonical extrinsic stays out of the pool and of the author's block.**  Let a node be at work
making a block, and let any operations come in between its steps.

* Let some move make an extrinsic canonical that is not in the author's hands, and let it neither be
  retracted nor submitted since.  Then it is neither pending at any later moment, nor in the author's
  hands, nor in the block that the author returns.
* Whatever is in hand when an attempt ends without a block is pending again, unless the pool is
  full. -/
theorem canonical_extrinsic_stays_out (hlife : run params initial events = running n)
    {limits : MempoolConfig} (hpool : n.pool.Grown limits) {config : AuthoringConfig}
    {before after : List MakingMove} {move : MakingMove} (hm : n.making config before = m)
    (hm' : n.making config (before ++ move :: after) = m') :
    (∀ id l u r, m.news move = l ++ u :: r → u.Includes id →
      (∀ v ∈ r ++ (m.next config move).newsOf config after, ¬ v.Returns id) →
      (∀ x ∈ m.stage.hand, x.id ≠ id) →
      m'.node.pool.contains id = false ∧ (∀ x ∈ m'.stage.hand, x.id ≠ id) ∧
        ∀ made, m'.stage = .returned (.ok made) → ∀ x ∈ made.block.extrinsics, x.id ≠ id) ∧
    ∀ timeline, m.stage.token? ≠ none → (m.advance config timeline).stage.hand = [] →
      ∀ x ∈ m.stage.hand, (m.advance config timeline).node.pool.contains x.id = true ∨
        limits.capacity ≤ (m.advance config timeline).node.pool.size := by
  obtain ⟨-, hsteady⟩ := steady (linking_follows _) hlife config before
  obtain ⟨hgrown, hlimited⟩ := limited_making hlife hpool config before
  subst hm hm'
  refine ⟨fun id l u r hnews hin hnone hhand => ?_, fun timeline hattempt hend x hx => ?_⟩
  · have hpasses := hsteady.passes config move
    have hgone := hpasses.absent_of_includes hnews hin
      (fun v hv => hnone v (List.mem_append_left _ hv)) hhand
    obtain ⟨-, hsteady'⟩ :=
      hsteady.next (admits_placed (linking_follows _)) Node.Kept.sound config move
    have hstays := Making.absent_run (admits_placed (linking_follows _)) Node.Kept.sound hsteady'
      (hpasses.grown hgrown) config (fun v hv => hnone v (List.mem_append_right _ hv)) hgone
    rw [making_append, Making.run_cons]
    refine ⟨hstays.pool, hstays.hand, fun made hmade x hx => hstays.hand x ?_⟩
    rw [hmade]
    exact hx
  · exact Making.contains_of_ended hsteady hgrown hattempt hend hx (hlimited.2 x hx)

/-! ### A block with the same extrinsic -/

/-- A block on genesis with the extrinsic. -/
def takenBlock : ChainTip :=
  ((Candidate.prepare (Genesis.tip easyParams {}) [smallExtrinsic]).1.complete
    (.ofRule easyParams.consensus.sealRule) (Genesis.tip easyParams {}) {}).toOption.getD
      (Genesis.tip easyParams {})

/-- The block comes in before the author does anything. -/
def takenFirst : MakingMove := .event (.importBlock takenBlock.block)

omit [Crypto] in
/-- The pending extrinsic becomes canonical before the author pulls anything.  It is not in the block
that the author makes, and not pending. -/
theorem canonical_extrinsic_stays_out_first :
    letI := Crypto.transparent
    ∃ n made, run easyParams {} submittedEvents = running n ∧
      n.pool.contains smallExtrinsic.id = true ∧
      (n.making onceConfig (takenFirst :: List.replicate 5 (.proceed {}))).stage =
        .returned (.ok made) ∧
      smallExtrinsic ∈ takenBlock.block.extrinsics ∧ made.block.parent = takenBlock.id ∧
      (n.making onceConfig
        (takenFirst :: List.replicate 5 (.proceed {}))).node.pool.contains smallExtrinsic.id = false ∧
      ∀ x ∈ made.block.extrinsics, x.id ≠ smallExtrinsic.id := by
  let _ := Crypto.transparent
  have hnode : ((run easyParams {} submittedEvents).node?.map fun n =>
      let m := n.making onceConfig []
      let m' := n.making onceConfig (takenFirst :: List.replicate 5 (.proceed {}))
      (decide (m.news takenFirst = [.decided takenBlock.block .extended]),
        decide (∀ v ∈ (m.next onceConfig takenFirst).newsOf onceConfig
          (List.replicate 5 (.proceed {})), ¬ v.Returns smallExtrinsic.id),
        decide (n.pool.contains smallExtrinsic.id = true),
        m'.stage.made?.map fun made => decide (made.block.parent = takenBlock.id))) =
      some (true, true, true, some true) := by
    decide +kernel
  have htaken : takenBlock.block.extrinsics = [smallExtrinsic] := by decide +kernel
  obtain ⟨n, hn, hend⟩ := Option.map_eq_some_iff.1 hnode
  rw [node?_eq_some_iff] at hn
  simp only [Prod.mk.injEq, decide_eq_true_eq, Option.map_eq_some_iff, Stage.made?_eq_some_iff]
    at hend
  obtain ⟨hnews, hnone, hpending, made, hmade, hparent⟩ := hend
  have hm : n.making onceConfig [] = n.making onceConfig [] := rfl
  have hm' : n.making onceConfig ([] ++ takenFirst :: List.replicate 5 (.proceed {})) =
      n.making onceConfig (takenFirst :: List.replicate 5 (.proceed {})) := rfl
  have hin : (News.decided takenBlock.block .extended).Includes smallExtrinsic.id :=
    ⟨takenBlock.block, List.mem_singleton_self _, smallExtrinsic, htaken ▸ List.mem_singleton_self _,
      rfl⟩
  have hgiven : ∀ event ∈ submittedEvents, event.Pools {} :=
    List.forall_mem_cons.2 ⟨.empty, List.forall_mem_singleton.2 trivial⟩
  have hgrown : n.pool.Grown {} := grown hgiven hn
  have hempty : ∀ x ∈ (n.making onceConfig []).stage.hand, x.id ≠ smallExtrinsic.id :=
    fun x hx => absurd hx List.not_mem_nil
  obtain ⟨hgone, -⟩ := canonical_extrinsic_stays_out hn hgrown hm hm'
  obtain ⟨hpool, -, hblock⟩ := hgone _ [] _ [] hnews hin hnone hempty
  exact ⟨n, made, hn, hpending, hmade, by decide +kernel, hparent, hpool, hblock made hmade⟩

/-- The block comes in after the author has pulled. -/
def takenMeanwhile : Nat → Timeline
  | 0 => { afterPull := [.importBlock takenBlock.block] }
  | _ => {}

omit [Crypto] in
/-- **A canonical extrinsic is included again**: it becomes canonical while it is in the author's
hands.  The author gives its block up and puts the extrinsic back, pulls it again and makes another
block with it. -/
theorem canonical_extrinsic_included_again :
    letI := Crypto.transparent
    ∃ n made, run easyParams {} submittedEvents = running n ∧
      (n.author {} takenMeanwhile).1.result = .ok made ∧
      (n.author {} takenMeanwhile).2.Canonical takenBlock.block ∧
      smallExtrinsic ∈ takenBlock.block.extrinsics ∧
      smallExtrinsic ∈ made.block.extrinsics ∧ made.block.parent = takenBlock.id := by
  let _ := Crypto.transparent
  have hnode : ((run easyParams {} submittedEvents).node?.map fun n =>
      ((n.author {} takenMeanwhile).1.result.toOption.map fun made =>
          decide (smallExtrinsic ∈ made.block.extrinsics ∧ made.block.parent = takenBlock.id),
        (n.author {} takenMeanwhile).2.canonicalTip?.map fun top : ChainTip =>
          decide (top.block.parent = takenBlock.id ∧
            top.block.height = takenBlock.block.height + 1))) =
      some (some true, some true) := by
    decide +kernel
  obtain ⟨n, hn, hend⟩ := Option.map_eq_some_iff.1 hnode
  rw [node?_eq_some_iff] at hn
  simp only [Prod.mk.injEq, decide_eq_true_eq, Option.map_eq_some_iff, toOption_eq_some_iff] at hend
  obtain ⟨⟨made, hmade, hagain, hparent⟩, ⟨top, htop, hon⟩⟩ := hend
  exact ⟨n, made, hn, hmade, ⟨top, htop, .single hon⟩, by decide +kernel, hagain, hparent⟩

end Lifetime

end LedgerChain
