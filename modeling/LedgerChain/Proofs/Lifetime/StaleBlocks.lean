import LedgerChain.Proofs.Crypto.Transparent
import LedgerChain.Proofs.Lifetime.Archive
import LedgerChain.Proofs.Lifetime.Orphans
import LedgerChain.Proofs.Node.Stale

/-!
# Stale blocks over a lifetime

**A block that was sealed on a stale parent is never submitted** (`Lifetime.stale_block_given_up`),
wherever imports, shutdowns and submissions come in between the steps of the author.  When the author
returns, it has nothing registered (`Lifetime.attempts_eq_nil`).
-/

namespace LedgerChain

namespace Node

variable [Crypto] {n : Node}

theorem attempts_perform (hsound : n.Sound) (horder : n.Orderly) (hnone : n.attempts = [])
    (operation : Operation) : (n.perform operation).attempts = [] := by
  have himport : ∀ b, (n.importBlock b).2.attempts ⊆ n.attempts := fun b =>
    ((horder.cascade_importBlock b).reports hsound).attempts
  rw [hnone] at himport
  cases operation with
  | submitExtrinsic x =>
    exact List.subset_nil.1 (hnone ▸ (reports_submitExtrinsic n x).attempts)
  | replacePool pool => exact hnone
  | importBlock b => exact List.subset_nil.1 (himport b)
  | importEncoded input =>
    show (n.importEncoded input).2.attempts = []
    rw [importEncoded]
    cases Block.decode input with
    | error e => exact hnone
    | ok b => exact List.subset_nil.1 (himport b)
  | author config timelines =>
    obtain ⟨moves, hnode, hstage⟩ := n.exists_moves_author config timelines
    have hguarded := guarded_making hsound horder hnone config moves
    have hend := hguarded.attempts_eq (by rw [hstage]; rfl)
    rw [hnode] at hend
    exact hend
  | shutdown => exact List.subset_nil.1 (hnone ▸ (reports_shutdown n).attempts)

end Node

namespace Lifetime

open Node

variable [Crypto] {params : Params} {initial : State} {events : List LifeEvent} {n : Node}
  {m : Making}

/-- **Between operations, no sealing attempt is registered.** -/
theorem attempts_eq_nil (hlife : run params initial events = running n) : n.attempts = [] := by
  have hboth : n.Orderly ∧ n.attempts = [] :=
    node_induct_of_faults (F := fun _ => True) (I := fun n => n.Orderly ∧ n.attempts = []) trivial
      (fun _ _ hstart => ⟨(orphans_of_start hstart).2, by
        obtain ⟨root, s₁, t, -, -, -, rfl⟩ := start_ok_cases hstart
        rfl⟩)
      (fun operation hm _ h =>
        ⟨(acts_perform h.1 admits_heavy id hm.wellFormed operation).orderly h.1,
          attempts_perform hm h.1 h.2 operation⟩)
      (fun _ h => ⟨orderly_of_orphans_eq rfl h.1, h.2⟩) (fun _ _ => trivial) hlife
  exact hboth.2

/-- **A node of a lifetime stays steady while its author is at work.** -/
theorem steady {R : ChainTip → ChainTip → Prop} (hR : Linking params.consensus R)
    (hlife : run params initial events = running n) (config : AuthoringConfig)
    (moves : List MakingMove) :
    n.Kept R params (Genesis.tip params initial) ∧
    (n.making config moves).Steady (Node.Kept R params (Genesis.tip params initial)) Stands := by
  have hlived := Lifetime.kept hR initial events
  rw [hlife] at hlived
  have hn := hlived.node rfl
  exact ⟨hn, (steady_making (admits_placed hR) Node.Kept.sound hn (orderly hlife) config moves).2⟩

/-- **A stale block is never submitted.**  Let a node be at work making a block, and let any
operations come in between its steps.

* When a block is sealed, it is given up; or its parent is the canonical tip at that moment, which
  has not moved since the attempt was registered.
* No other step of the author touches the chain.
* What is told of the moves is true: some of the news says that the canonical tip moved if and only
  if it did.
* If the canonical tip moves between the reading of the parent and the submission, each time, then
  the author does not touch the chain at all.  It returns after too many attempts, unless there is
  nothing to author or a search for a seal fails without being cancelled.  Different headers are to
  have different identifiers here.
* When the author returns, nothing is registered; and it returns if it is let go on.
* What an author does in one go is a sequence of such moves. -/
theorem stale_block_given_up (hlife : run params initial events = running n)
    {config : AuthoringConfig} {moves : List MakingMove} (hm : n.making config moves = m) :
    (∀ a tip, m.stage = .sealed a tip →
      m.node.GivesUp a tip ∨ (tip.parent = m.node.forkChoice.best ∧ ¬ m.Disturbed)) ∧
    ((∀ a tip, m.stage ≠ .sealed a tip) →
      ∀ timeline, m.node.SameChain (m.advance config timeline).node) ∧
    (∀ move, (∃ u ∈ m.news move, u.MovesTip) ↔ (m.next config move).node.rank ≠ m.node.rank) ∧
    (n.AlwaysOvertaken config moves → Store.DistinctIds m.node.store.journal →
      (∀ before timeline, before ++ [.proceed timeline] <+: moves →
        (n.making config before).node.SameChain
          (n.making config (before ++ [.proceed timeline])).node) ∧
      ∀ result, m.stage = .returned result → Making.Fruitless config result) ∧
    (m.Returned → m.node.attempts = []) ∧
    (5 * config.maxAttempts < Making.proceeds moves → m.Returned) ∧
    ∀ timelines, ∃ moves', (n.making config moves').node = (n.author config timelines).2 ∧
      (n.making config moves').stage = .returned (n.author config timelines).1.result := by
  obtain ⟨hn, hsteady⟩ := steady (linking_follows _) hlife config moves
  have horder := orderly hlife
  have hguarded := guarded_making hn.sound horder (attempts_eq_nil hlife) config moves
  subst hm
  refine ⟨fun a tip hstage => Making.gives_up_or_current hguarded hsteady hstage,
    fun hsealed timeline => Making.sameChain_advance hsealed timeline,
    fun move => (hsteady.climbs config move).movesTip_iff,
    fun hovertaken hids => hovertaken.fruitless (linking_follows _) hn horder hids, ?_,
    Making.returned_of_proceeds n, n.exists_moves_author config⟩
  rintro ⟨result, hstage⟩
  exact hguarded.attempts_eq (by rw [hstage]; rfl)

/-! ### A block that comes in before the seal is used -/

/-- One attempt is made. -/
def onceConfig : AuthoringConfig := { maxAttempts := 1 }

/-- An author is overtaken by a block that comes in after its own one was sealed. -/
def overtakenMoves : List MakingMove :=
  List.replicate 4 (.proceed {}) ++ .event (.importBlock (sideBlock 0).block) ::
    List.replicate 2 (.proceed {})

omit [Crypto] in
/-- An author with a sealed block is overtaken, gives it up, and has no further attempt. -/
theorem stale_block_given_up_once :
    letI := Crypto.transparent
    ∃ n result, run easyParams {} [startEvent] = running n ∧
      n.AlwaysOvertaken onceConfig overtakenMoves ∧
      (n.making onceConfig (overtakenMoves.take 5)).stage.stepsLeft = 2 ∧
      (n.making onceConfig (overtakenMoves.take 5)).Overtaken ∧
      (n.making onceConfig overtakenMoves).stage = .returned result ∧
      Making.Fruitless onceConfig result ∧
      (n.making onceConfig overtakenMoves).node.attempts = [] := by
  let _ := Crypto.transparent
  have hnode : ((run easyParams {} [startEvent]).node?.map fun n =>
      (decide (Store.DistinctIds (n.making onceConfig overtakenMoves).node.store.journal),
        [0, 1, 2, 3, 6].all fun k =>
          (n.making onceConfig (overtakenMoves.take k)).stage.stepsLeft ≠ 2,
        decide ((n.making onceConfig (overtakenMoves.take 5)).stage.stepsLeft = 2),
        decide (∃ u ∈ (n.making onceConfig (overtakenMoves.take 5)).sinceParent, u.MovesTip))) =
      some (true, true, true, true) := by
    decide +kernel
  obtain ⟨n, hn, hend⟩ := Option.map_eq_some_iff.1 hnode
  rw [node?_eq_some_iff] at hn
  simp only [Prod.mk.injEq, decide_eq_true_eq, List.all_eq_true] at hend
  obtain ⟨hids, hunsealed, hsealed, hmoved⟩ := hend
  have hovertaken : n.AlwaysOvertaken onceConfig overtakenMoves := by
    intro before timeline a tip hpart hstage
    have hlength := hpart.length_le
    have hbefore := List.prefix_iff_eq_take.1 ((List.prefix_append _ _).trans hpart)
    have hmove : overtakenMoves[before.length]? = some (.proceed timeline) := by
      obtain ⟨rest, hmoves⟩ := hpart
      rw [← hmoves, List.append_assoc, List.getElem?_append_right (Nat.le_refl _)]
      simp
    rw [List.length_append] at hlength
    change before.length + 1 ≤ 7 at hlength
    generalize before.length = k at hlength hbefore hmove
    subst hbefore
    by_cases hevent : k = 4
    · subst hevent
      cases hmove
    by_cases hfound : k = 5
    · subst hfound
      exact hmoved
    · have hmem : k ∈ [0, 1, 2, 3, 6] := by
        simp only [List.mem_cons, List.not_mem_nil, or_false]
        omega
      exact absurd (by rw [hstage]; rfl) (hunsealed k hmem)
  have hm : n.making onceConfig overtakenMoves = n.making onceConfig overtakenMoves := rfl
  obtain ⟨-, -, -, hfruitless, hnone, hreturned, -⟩ := stale_block_given_up hn hm
  obtain ⟨result, hresult⟩ := hreturned (by decide)
  exact ⟨n, result, hn, hovertaken, hsealed, hmoved, hresult,
    (hfruitless hovertaken hids).2 result hresult, hnone ⟨result, hresult⟩⟩

end Lifetime

end LedgerChain
