import LedgerChain.Proofs.Node.News

/-!
# Making a block, step by step

An author reads the canonical tip, pulls extrinsics, registers an attempt, searches for a seal, and
submits the block or gives it up.  Between any two of these steps the node may do other things: it
shuts down, imports blocks, or takes in extrinsics.  A node with its author at work is a `Making`,
and each of its moves is a step of the author or one of these other things (`Making.next`).

What an author does in one go, with operations coming in at the moments that a timeline gives, is
one sequence of such moves (`Node.exists_moves_author`).

* What a step of the author can do is said once (`Making.Advances`).
* As in `Node.Admits`, the moves are runs of the node, and what the author has in its hands was made
  on a canonical tip of an earlier moment (`Node.Admits.next`).
* Each attempt comes to an end, so an author that is let go on returns
  (`Making.returned_of_proceeds`).
-/

namespace LedgerChain

/-- Where an author is between two of its steps. -/
inductive Stage where
  /-- No attempt is being made. -/
  | idle
  /-- The parent was read. -/
  | chosen (parent : ChainTip)
  /-- Extrinsics were pulled. -/
  | pulled (parent : ChainTip) (xs : List Extrinsic)
  /-- The attempt is registered, and a seal is searched for. -/
  | sealing (a : Attempt)
  /-- A seal was found. -/
  | sealed (a : Attempt) (tip : ChainTip)
  | returned (result : Except AuthoringError AuthoredBlock)

namespace Stage

/-- The stage after the end of an attempt. -/
def ofEnd (excluded : List (ExtrinsicId × ExtrinsicError)) : AttemptEnd → Stage
  | .startOver => idle
  | .failed e => returned (.error e)
  | .made block outcome => returned (.ok ⟨block, outcome, excluded⟩)

/-- The extrinsics that the author took out of the pool, or that are in the block it made. -/
def hand : Stage → List Extrinsic
  | idle | chosen _ => []
  | pulled _ xs => xs
  | sealing a => a.candidate.extrinsics
  | sealed _ tip => tip.block.extrinsics
  | returned (.ok r) => r.block.extrinsics
  | returned (.error _) => []

/-- The block that the author made. -/
def made? : Stage → Option AuthoredBlock
  | returned (.ok r) => some r
  | returned (.error _) => none
  | idle | chosen _ | pulled _ _ | sealing _ | sealed _ _ => none

theorem made?_eq_some_iff {stage : Stage} {r : AuthoredBlock} :
    stage.made? = some r ↔ stage = returned (.ok r) := by
  constructor
  · intro h
    cases stage with
    | returned result =>
      cases result with
      | error e => cases h
      | ok r' =>
        cases h
        rfl
    | idle | chosen | pulled | sealing | sealed => cases h
  · rintro rfl
    rfl

/-- The parent of the attempt. -/
def parent? : Stage → Option ChainTip
  | chosen parent | pulled parent _ => some parent
  | sealing a | sealed a _ => some a.parent
  | idle | returned _ => none

/-- The token of the attempt. -/
def token? : Stage → Option CancelToken
  | sealing a | sealed a _ => some a.token
  | idle | chosen _ | pulled _ _ | returned _ => none

/-- The steps up to the end of the attempt. -/
def stepsLeft : Stage → Nat
  | idle => 1
  | chosen _ => 5
  | pulled _ _ => 4
  | sealing _ => 3
  | sealed _ _ => 2
  | returned _ => 0

end Stage

/-- A node with its author at work. -/
structure Making where
  node : Node
  stage : Stage := .idle
  /-- The further attempts that may be made. -/
  left : Nat
  /-- The extrinsics that were left out so far. -/
  excluded : List (ExtrinsicId × ExtrinsicError) := []
  /-- What happened since the parent of the attempt was read. -/
  sinceParent : List News := []
  /-- What happened since the attempt was registered. -/
  sinceToken : List News := []

/-- What can happen next to a node with its author. -/
inductive MakingMove where
  /-- The author takes its next step; a search for a seal goes as the timeline says. -/
  | proceed (timeline : Timeline)
  /-- An operation comes in. -/
  | event (event : NodeEvent)
  /-- An extrinsic is submitted. -/
  | submit (x : Extrinsic)

variable [Crypto]

namespace Making

variable (m : Making) (config : AuthoringConfig)

/-- The author reads the parent of its next attempt, if there is one. -/
def choose : Making :=
  match m.left with
  | 0 => { m with stage := .returned (.error (.tooManyAttempts config.maxAttempts)) }
  | left + 1 =>
    match m.node.canonicalTip? with
    | none =>
      { m with stage := .returned (.error (.chain (.missingBlock m.node.forkChoice.best))) }
    | some parent => { m with left, stage := .chosen parent, sinceParent := [] }

/-- The author pulls extrinsics. -/
def pull (parent : ChainTip) : Making :=
  let (xs, pool) := m.node.pool.pull config.maxExtrinsics
  { m with node := { m.node with pool }, stage := .pulled parent xs }

/-- The author builds a candidate, and registers the attempt to seal it. -/
def register (parent : ChainTip) (xs : List Extrinsic) : Making :=
  let (candidate, leftOut) := Candidate.prepare parent xs
  let excluded := m.excluded ++ leftOut.map fun (x, e) => (x.id, e)
  if candidate.extrinsics.isEmpty && !config.allowEmptyBlocks then
    { m with stage := .returned (.error .nothingToAuthor), excluded }
  else
    let (a, node) := m.node.register parent candidate
    { m with node, stage := .sealing a, excluded, sinceToken := [] }

/-- The author ends an attempt. -/
def close (ending : AttemptEnd × Node) : Making :=
  { m with node := ending.2, stage := .ofEnd m.excluded ending.1 }

/-- The author searches for a seal, and gives the attempt up if it finds none. -/
def search (timeline : Timeline) (a : Attempt) : Making :=
  match m.node.sealAttempt config timeline a with
  | .error e => m.close (m.node.abandon a e)
  | .ok tip => { m with stage := .sealed a tip }

/-- The author takes its next step. -/
def advance (timeline : Timeline) : Making :=
  match m.stage with
  | .idle => m.choose config
  | .chosen parent => m.pull config parent
  | .pulled parent xs => m.register config parent xs
  | .sealing a => m.search config timeline a
  | .sealed a tip => m.close (m.node.submitSealed a tip)
  | .returned _ => m

/-- What a step of the author can lead to. -/
inductive Advances (config : AuthoringConfig) (timeline : Timeline) (m : Making) : Making → Prop
  /-- No further attempt may be made. -/
  | spent (hstage : m.stage = .idle) (hleft : m.left = 0) : Advances config timeline m
      { m with stage := .returned (.error (.tooManyAttempts config.maxAttempts)) }
  /-- There is no canonical tip. -/
  | headless (hstage : m.stage = .idle) (htip : m.node.canonicalTip? = none) :
      Advances config timeline m
        { m with stage := .returned (.error (.chain (.missingBlock m.node.forkChoice.best))) }
  | chose {left : Nat} {parent : ChainTip} (hstage : m.stage = .idle) (hleft : m.left = left + 1)
      (htip : m.node.canonicalTip? = some parent) : Advances config timeline m
      { m with left, stage := .chosen parent, sinceParent := [] }
  | pulled {parent : ChainTip} (hstage : m.stage = .chosen parent) :
      Advances config timeline m (m.pull config parent)
  /-- Nothing that was pulled applies. -/
  | empty {parent : ChainTip} {xs : List Extrinsic} {excluded : List (ExtrinsicId × ExtrinsicError)}
      (hstage : m.stage = .pulled parent xs) : Advances config timeline m
      { m with stage := .returned (.error .nothingToAuthor), excluded }
  | registered {parent : ChainTip} {xs : List Extrinsic}
      {excluded : List (ExtrinsicId × ExtrinsicError)} (hstage : m.stage = .pulled parent xs) :
      Advances config timeline m
        { m with
          node := (m.node.register parent (Candidate.prepare parent xs).1).2
          stage := .sealing (m.node.register parent (Candidate.prepare parent xs).1).1
          excluded
          sinceToken := [] }
  | unsealed {a : Attempt} {e : SealError} (hstage : m.stage = .sealing a)
      (hseal : m.node.sealAttempt config timeline a = .error e) :
      Advances config timeline m (m.close (m.node.abandon a e))
  | found {a : Attempt} {tip : ChainTip} (hstage : m.stage = .sealing a)
      (hseal : m.node.sealAttempt config timeline a = .ok tip) :
      Advances config timeline m { m with stage := .sealed a tip }
  | closed {a : Attempt} {tip : ChainTip} (hstage : m.stage = .sealed a tip) :
      Advances config timeline m (m.close (m.node.submitSealed a tip))
  | done {result : Except AuthoringError AuthoredBlock} (hstage : m.stage = .returned result) :
      Advances config timeline m m

/-- **Every step of the author goes one of these ways.** -/
theorem advances (timeline : Timeline) :
    m.Advances config timeline (m.advance config timeline) := by
  rw [advance]
  cases hstage : m.stage with
  | idle =>
    simp only [choose]
    split
    · rename_i hleft
      exact .spent hstage hleft
    · rename_i left hleft
      split
      · rename_i htip
        exact .headless hstage htip
      · rename_i parent htip
        exact .chose hstage hleft htip
  | chosen parent => exact .pulled hstage
  | pulled parent xs =>
    simp only [register]
    split
    · exact .empty hstage
    · exact .registered hstage
  | sealing a =>
    simp only [search]
    cases hseal : m.node.sealAttempt config timeline a with
    | error e => exact .unsealed hstage hseal
    | ok tip => exact .found hstage hseal
  | sealed a tip => exact .closed hstage
  | returned result => exact .done hstage

/-- The node changes, and there is news. -/
def tell (node : Node) (news : List News) : Making :=
  { m with
    node
    sinceParent := m.sinceParent ++ news
    sinceToken := m.sinceToken ++ news }

/-- What a move leads to. -/
def next : MakingMove → Making
  | .proceed timeline => m.advance config timeline
  | .event event => m.tell (m.node.handle event).2 (m.node.eventNews event)
  | .submit x => m.tell (m.node.submitExtrinsic x).2 [.submitted x]

/-- What some moves lead to. -/
def run (moves : List MakingMove) : Making := moves.foldl (fun m => m.next config) m

end Making

namespace Node

variable {n n' : Node}

/-- A node whose author sets to work, after some moves. -/
def making (n : Node) (config : AuthoringConfig) (moves : List MakingMove) : Making :=
  Making.run { node := n, left := config.maxAttempts } config moves

/-- The news of a block that is submitted. -/
def sealedNews (n : Node) (a : Attempt) (tip : ChainTip) : List News :=
  if n.flags.isCancelled a.token || n.forkChoice.best ≠ a.parent.id then []
  else
    match (n.unregister a.token).offer tip with
    | (.error _, _) => []
    | (.ok (outcome, update), n₁) =>
      .decided tip.block outcome :: Handing.newsOf ((n₁.updatePool update).releaseHandings tip.id)

/-- **What becomes of a sealed block**: it is given up since the parent is stale; or the parent is the
canonical tip and the attempt was not cancelled, and the block is offered in vain, or made. -/
theorem submitSealed_cases (n : Node) (a : Attempt) (tip : ChainTip) :
    (n.submitSealed a tip = (.startOver, (n.unregister a.token).giveBack tip.block.extrinsics) ∧
        n.sealedNews a tip = []) ∨
      n.flags.isCancelled a.token = false ∧ n.forkChoice.best = a.parent.id ∧
        ((∃ e, ((n.unregister a.token).offer tip).1 = .error e ∧ n.submitSealed a tip =
            (.failed (.chain e),
              ((n.unregister a.token).offer tip).2.giveBack tip.block.extrinsics) ∧
            n.sealedNews a tip = []) ∨
          ∃ outcome update, ((n.unregister a.token).offer tip).1 = .ok (outcome, update) ∧
            n.submitSealed a tip = (.made tip.block outcome,
              ((((n.unregister a.token).offer tip).2.updatePool update).releaseOrphans tip.id).2) ∧
            n.sealedNews a tip = .decided tip.block outcome :: Handing.newsOf
              ((((n.unregister a.token).offer tip).2.updatePool update).releaseHandings tip.id)) := by
  rw [submitSealed_eq, sealedNews]
  split
  · exact Or.inl ⟨rfl, rfl⟩
  · rename_i hgo
    simp only [Bool.or_eq_true, decide_eq_true_eq, not_or, Bool.not_eq_true, ne_eq, not_not] at hgo
    refine Or.inr ⟨hgo.1, hgo.2, ?_⟩
    rcases (n.unregister a.token).offer tip with ⟨e | ⟨outcome, update⟩, n₁⟩
    · exact Or.inl ⟨e, rfl, rfl, rfl⟩
    · exact Or.inr ⟨outcome, update, rfl, rfl, rfl⟩

end Node

namespace Making

variable {m m' : Making} {config : AuthoringConfig} {timeline : Timeline} {parent : ChainTip}
  {xs : List Extrinsic} {moves : List MakingMove}

/-- The news of a move. -/
def news (m : Making) : MakingMove → List News
  | .proceed _ =>
    match m.stage with
    | .sealed a tip => m.node.sealedNews a tip
    | _ => []
  | .event event => m.node.eventNews event
  | .submit x => [.submitted x]

/-- The news of some moves. -/
def newsOf (m : Making) (config : AuthoringConfig) : List MakingMove → List News
  | [] => []
  | move :: rest => m.news move ++ newsOf (m.next config move) config rest

theorem run_append (m : Making) (config : AuthoringConfig) (moves moves' : List MakingMove) :
    m.run config (moves ++ moves') = (m.run config moves).run config moves' := List.foldl_append

theorem run_cons (m : Making) (config : AuthoringConfig) (move : MakingMove)
    (moves : List MakingMove) :
    m.run config (move :: moves) = (m.next config move).run config moves := rfl

theorem run_induct {P : Making → Prop} (next : ∀ {m} move, P m → P (m.next config move))
    (h : P m) (moves : List MakingMove) : P (m.run config moves) := by
  induction moves generalizing m with
  | nil => exact h
  | cons move rest ih => exact ih (next move h)

end Making

/-! ### Moves as runs -/

/-- The parent of the attempt has a property, and what was made was made on it. -/
def Stage.Holds (K : ChainTip → Prop) (engine : Engine) : Stage → Prop
  | .idle | .returned _ => True
  | .chosen parent | .pulled parent _ => K parent
  | .sealing a => K a.parent ∧ ∃ xs, a.candidate = (Candidate.prepare a.parent xs).1
  | .sealed a tip => K a.parent ∧
      ∃ xs ctx, (Candidate.prepare a.parent xs).1.complete engine a.parent ctx = .ok tip

namespace Stage.Holds

variable {K K' : ChainTip → Prop} {engine engine' : Engine} {stage : Stage}

theorem mono (h : stage.Holds K engine) (hK : ∀ p, K p → K' p) (hengine : engine' = engine) :
    stage.Holds K' engine' := by
  subst hengine
  cases stage with
  | idle => trivial
  | chosen parent => exact hK parent h
  | pulled parent xs => exact hK parent h
  | sealing a => exact ⟨hK _ h.1, h.2⟩
  | sealed a tip => exact ⟨hK _ h.1, h.2⟩
  | returned result => trivial

theorem ofEnd (K : ChainTip → Prop) (engine : Engine)
    (excluded : List (ExtrinsicId × ExtrinsicError)) (ending : AttemptEnd) :
    (Stage.ofEnd excluded ending).Holds K engine := by
  cases ending <;> trivial

theorem parent (h : stage.Holds K engine) {p : ChainTip} (hp : stage.parent? = some p) : K p := by
  cases stage <;> cases hp <;> first | exact h | exact h.1

end Stage.Holds

namespace Node

variable {I : Node → Prop} {K A : Node → ChainTip → Prop} {m m' : Making}
  {config : AuthoringConfig}

theorem Admits.advances (hA : Admits I K A) (h : I m.node)
    (hholds : m.stage.Holds (K m.node) m.node.engine) {timeline : Timeline}
    (hstep : m.Advances config timeline m') :
    Run A m.node m'.node ∧ m'.stage.Holds (K m'.node) m'.node.engine := by
  cases hstep with
  | spent _ _ => exact ⟨.refl, trivial⟩
  | headless _ _ => exact ⟨.refl, trivial⟩
  | chose _ _ htip => exact ⟨.refl, hA.canonical h htip⟩
  | @pulled parent hstage =>
    rw [hstage] at hholds
    have hrun : Run A m.node (m.pull config parent).node := .aside ⟨rfl, rfl, rfl, rfl, rfl, rfl⟩
    exact ⟨hrun, hA.run_keep hrun h hholds⟩
  | empty _ => exact ⟨.refl, trivial⟩
  | @registered parent xs _ hstage =>
    rw [hstage] at hholds
    have hrun : Run A m.node (m.node.register parent (Candidate.prepare parent xs).1).2 :=
      .aside ⟨rfl, rfl, rfl, rfl, rfl, rfl⟩
    exact ⟨hrun, hA.run_keep hrun h hholds, xs, rfl⟩
  | @unsealed a e _ _ => exact ⟨Admits.abandon A m.node a e, .ofEnd _ _ _ _⟩
  | found hstage hseal =>
    rw [hstage] at hholds
    obtain ⟨hparent, xs, hcandidate⟩ := hholds
    rw [sealAttempt, hcandidate] at hseal
    exact ⟨.refl, hparent, xs, _, hseal⟩
  | @closed a tip hstage =>
    rw [hstage] at hholds
    obtain ⟨hparent, xs, ctx, hmade⟩ := hholds
    exact ⟨hA.submitSealed h a tip hparent hmade, .ofEnd _ _ _ _⟩
  | done _ => exact ⟨.refl, hholds⟩

/-- **Every move is a run of the node**, and what the author has in its hands stays made on a
canonical tip of an earlier moment. -/
theorem Admits.next (hA : Admits I K A) (h : I m.node)
    (hstage : m.stage.Holds (K m.node) m.node.engine) (move : MakingMove) :
    Run A m.node (m.next config move).node ∧
      (m.next config move).stage.Holds (K (m.next config move).node)
        (m.next config move).node.engine := by
  have haround : ∀ {n' : Node}, Run A m.node n' →
      Run A m.node n' ∧ m.stage.Holds (K n') n'.engine := fun hrun =>
    ⟨hrun, hstage.mono (fun p hp => hA.run_keep hrun h hp) hrun.engine_eq⟩
  cases move with
  | proceed timeline => exact hA.advances h hstage (m.advances config timeline)
  | event event => exact haround (hA.handle h event)
  | submit x => exact haround (.aside (sameChain_submitExtrinsic m.node x))

theorem Orderly.next (hn : m.node.Orderly) (hwf : m.node.forkChoice.WellFormed)
    {K : ChainTip → Prop} (hstage : m.stage.Holds K m.node.engine) (move : MakingMove) :
    (m.next config move).node.Orderly := by
  cases move with
  | event event => exact (acts_handle hn Heavy event).orderly hn
  | submit x =>
    refine orderly_of_orphans_eq ?_ hn
    simp only [Making.next, Making.tell, submitExtrinsic]
    split <;> rfl
  | proceed timeline =>
    have hstep := m.advances config timeline
    rw [Making.next]
    generalize m.advance config timeline = m' at hstep
    cases hstep with
    | closed heq =>
      rw [heq] at hstage
      obtain ⟨-, xs, ctx, hmade⟩ := hstage
      exact (acts_submitSealed hn admits_heavy id hwf trivial hmade).orderly hn
    | spent | headless | chose | empty | found | done => exact hn
    | pulled | registered | unsealed => exact orderly_of_orphans_eq rfl hn

end Node

/-! ### The steps of an author in one go -/

namespace Making

variable {m : Making} {config : AuthoringConfig}

theorem run_events (m : Making) (config : AuthoringConfig) (events : List NodeEvent) :
    ∃ news, m.run config (events.map .event) =
      m.tell (m.node.handleAll events).2 news := by
  induction events generalizing m with
  | nil => exact ⟨[], by simp [run, tell, Node.handleAll]⟩
  | cons event rest ih =>
    obtain ⟨news, hnews⟩ := ih (m.next config (.event event))
    refine ⟨m.node.eventNews event ++ news, ?_⟩
    rw [List.map_cons, run_cons, hnews]
    simp [next, tell, Node.handleAll]

theorem exists_moves_runAttempt (m : Making) (config : AuthoringConfig) (timeline : Timeline)
    {a : Attempt} (hstage : m.stage = .sealing a) :
    ∃ moves, (m.run config moves).node = (m.node.runAttempt config timeline a).2 ∧
      (m.run config moves).stage = .ofEnd m.excluded (m.node.runAttempt config timeline a).1.1 ∧
      (m.run config moves).left = m.left ∧ (m.run config moves).excluded = m.excluded := by
  obtain ⟨news, hsealing⟩ := m.run_events config timeline.whileSealing
  rw [Node.runAttempt]
  simp only
  set n₁ := (m.node.handleAll timeline.whileSealing).2
  cases hseal : n₁.sealAttempt config timeline a with
  | error e =>
    refine ⟨timeline.whileSealing.map .event ++ [.proceed timeline], ?_⟩
    rw [run_append, hsealing]
    simp only [run, List.foldl_cons, List.foldl_nil, next, advance, tell, hstage, search, hseal,
      close, and_self]
  | ok tip =>
    -- the search ends, and other operations come in before the block is submitted
    set m₁ : Making := { m.tell n₁ news with stage := .sealed a tip }
    have hfound : m.run config (timeline.whileSealing.map .event ++ [.proceed timeline]) = m₁ := by
      rw [run_append, hsealing]
      simp only [run, List.foldl_cons, List.foldl_nil, next, advance, tell, hstage, search, hseal,
        m₁]
    obtain ⟨news', hcheck⟩ := m₁.run_events config timeline.beforeCheck
    refine ⟨timeline.whileSealing.map .event ++ [.proceed timeline] ++
      (timeline.beforeCheck.map .event ++ [.proceed timeline]), ?_⟩
    rw [run_append, hfound, run_append, hcheck]
    simp only [run, List.foldl_cons, List.foldl_nil, next, advance, tell, close, m₁, and_self]

theorem exists_moves_authorFrom (timelines : Nat → Timeline) (made : Nat)
    (hstage : m.stage = .idle) :
    ∃ moves,
      (m.run config moves).node =
        (Node.authorFrom config timelines m.left made m.excluded m.node).2 ∧
      (m.run config moves).stage =
        .returned (Node.authorFrom config timelines m.left made m.excluded m.node).1.result := by
  induction hleft : m.left generalizing m made with
  | zero =>
    refine ⟨[.proceed {}], ?_⟩
    simp only [run, List.foldl_cons, List.foldl_nil, next, advance, hstage, choose, hleft,
      Node.authorFrom, and_self]
  | succ left ih =>
    set timeline := timelines made with htimeline
    rw [Node.authorFrom]
    simp only
    cases hparent : m.node.canonicalTip? with
    | none =>
      refine ⟨[.proceed timeline], ?_⟩
      simp only [run, List.foldl_cons, List.foldl_nil, next, advance, hstage, choose, hleft, hparent,
        Node.pullForBlock, and_self]
    | some parent =>
      simp only [Node.pullForBlock, hparent]
      set xs := (m.node.pool.pull config.maxExtrinsics).1
      set n₁ : Node := { m.node with pool := (m.node.pool.pull config.maxExtrinsics).2 }
      set n₂ := (n₁.handleAll timeline.afterPull).2
      set m₁ : Making :=
        { m with node := n₁, stage := .pulled parent xs, left, sinceParent := [] } with hm₁
      -- an attempt begins with the pull, what comes in meanwhile, and the candidate
      have hpulled : m.run config [.proceed timeline, .proceed timeline] = m₁ := by
        simp only [run, List.foldl_cons, List.foldl_nil, next, advance, hstage, choose, hleft,
          hparent, pull, m₁, n₁, xs]
      obtain ⟨news, hevents⟩ := m₁.run_events config timeline.afterPull
      set start : List MakingMove := [.proceed timeline, .proceed timeline] ++
        timeline.afterPull.map .event ++ [.proceed timeline]
      have hready : m.run config start = (m₁.tell n₂ news).register config parent xs := by
        rw [run_append, run_append, hpulled, hevents]
        rfl
      split
      · rename_i hnothing
        refine ⟨start, ?_⟩
        rw [hready, register]
        simp only [tell, hnothing, if_true, and_self]
      · rename_i hsome
        set m₂ := (m₁.tell n₂ news).register config parent xs with hm₂
        have hregistered : m₂.stage = .sealing (n₂.register parent (Candidate.prepare parent xs).1).1
            ∧ m₂.node = (n₂.register parent (Candidate.prepare parent xs).1).2 ∧ m₂.left = left ∧
            m₂.excluded = m.excluded ++ (Candidate.prepare parent xs).2.map fun (x, e) =>
              (x.id, e) := by
          rw [hm₂, register]
          simp only [tell, hsome, m₁]
          exact ⟨rfl, rfl, rfl, rfl⟩
        obtain ⟨hsealing, hnode, hleft₂, hexcluded⟩ := hregistered
        obtain ⟨moves, hmoved, hend, hleft₃, hexcluded₃⟩ :=
          m₂.exists_moves_runAttempt config timeline hsealing
        rw [hnode] at hmoved hend
        rcases hattempt : (n₂.register parent (Candidate.prepare parent xs).1).2.runAttempt config
          timeline (n₂.register parent (Candidate.prepare parent xs).1).1 with
          ⟨⟨ending, whileSealing, beforeCheck⟩, n₄⟩
        rw [hattempt] at hmoved hend
        cases ending with
        | startOver =>
          -- the attempts that follow are those of one fewer
          obtain ⟨rest, hrest, hresult⟩ := ih (made + 1) hend (hleft₃.trans hleft₂)
          rw [hmoved, hexcluded₃, hexcluded] at hrest hresult
          refine ⟨start ++ moves ++ rest, ?_⟩
          rw [run_append, run_append, hready]
          exact ⟨hrest, hresult⟩
        | failed e =>
          refine ⟨start ++ moves, ?_⟩
          rw [run_append, hready]
          exact ⟨hmoved, hend⟩
        | made block outcome =>
          refine ⟨start ++ moves, ?_⟩
          rw [run_append, hready, ← hexcluded]
          exact ⟨hmoved, hend⟩

end Making

/-- **What an author does in one go is a sequence of moves.** -/
theorem Node.exists_moves_author (n : Node) (config : AuthoringConfig)
    (timelines : Nat → Timeline) :
    ∃ moves, (n.making config moves).node = (n.author config timelines).2 ∧
      (n.making config moves).stage = .returned (n.author config timelines).1.result :=
  Making.exists_moves_authorFrom timelines 0 rfl

namespace Making

variable {m m' : Making} {config : AuthoringConfig}

/-! ### Returning -/

/-- The steps that the author can still take before it returns. -/
def stepsLeft (m : Making) : Nat :=
  match m.stage with
  | .returned _ => 0
  | stage => stage.stepsLeft + 5 * m.left

/-- The author has returned. -/
def Returned (m : Making) : Prop := ∃ result, m.stage = .returned result

omit [Crypto] in
theorem returned_of_stepsLeft (h : m.stepsLeft = 0) : m.Returned := by
  rw [stepsLeft] at h
  split at h
  · rename_i result heq
    exact ⟨result, heq⟩
  · rename_i hnot
    cases heq : m.stage <;> simp [heq, Stage.stepsLeft] at h hnot

omit [Crypto] in
theorem stepsLeft_close_le (m : Making) (ending : AttemptEnd × Node) :
    (m.close ending).stepsLeft ≤ 1 + 5 * m.left := by
  rcases ending with ⟨_ | _ | _, n'⟩ <;> simp [close, Stage.ofEnd, stepsLeft, Stage.stepsLeft]

theorem Advances.stepsLeft_le {timeline : Timeline} (h : m.Advances config timeline m') :
    m'.stepsLeft ≤ m.stepsLeft - 1 := by
  -- every step lowers what is left of the attempt, or of the attempts
  cases h with
  | spent _ _ => simp [stepsLeft]
  | headless _ _ => simp [stepsLeft]
  | chose hstage hleft _ =>
    simp only [stepsLeft, hstage, hleft, Stage.stepsLeft]
    omega
  | pulled hstage => simp [pull, stepsLeft, hstage, Stage.stepsLeft]
  | empty _ => simp [stepsLeft]
  | registered hstage =>
    simp only [stepsLeft, hstage, Stage.stepsLeft]
    omega
  | @unsealed a e hstage _ =>
    have hclose := m.stepsLeft_close_le (m.node.abandon a e)
    simp only [stepsLeft, hstage, Stage.stepsLeft] at hclose ⊢
    omega
  | found hstage _ =>
    simp only [stepsLeft, hstage, Stage.stepsLeft]
    omega
  | @closed a tip hstage =>
    have hclose := m.stepsLeft_close_le (m.node.submitSealed a tip)
    simp only [stepsLeft, hstage, Stage.stepsLeft] at hclose ⊢
    omega
  | done hstage => simp [stepsLeft, hstage]

/-- How often the author takes a step. -/
def proceeds (moves : List MakingMove) : Nat :=
  moves.countP fun
    | .proceed _ => true
    | _ => false

theorem stepsLeft_run (m : Making) (config : AuthoringConfig) (moves : List MakingMove) :
    (m.run config moves).stepsLeft ≤ m.stepsLeft - proceeds moves := by
  induction moves generalizing m with
  | nil => simp [run, proceeds]
  | cons move rest ih =>
    have hrest := ih (m.next config move)
    rw [run_cons, proceeds, List.countP_cons]
    cases move with
    | proceed timeline =>
      have hstep := (m.advances config timeline).stepsLeft_le
      simp only [next, proceeds] at hrest ⊢
      simp only [if_true]
      omega
    | event event =>
      simp only [next, tell, proceeds, stepsLeft] at hrest ⊢
      simpa using hrest
    | submit x =>
      simp only [next, tell, proceeds, stepsLeft] at hrest ⊢
      simpa using hrest

/-- **An author that is let go on returns**, however much comes in between its steps. -/
theorem returned_of_proceeds (n : Node) {moves : List MakingMove}
    (h : 5 * config.maxAttempts < proceeds moves) : (n.making config moves).Returned := by
  have hsteps := stepsLeft_run { node := n, left := config.maxAttempts } config moves
  refine returned_of_stepsLeft (Nat.le_zero.1 (hsteps.trans ?_))
  simp only [stepsLeft, Stage.stepsLeft]
  omega

end Making

end LedgerChain
