import LedgerChain.Node.Import

/-!
# Authoring blocks

An author takes the canonical tip as the parent, pulls extrinsics, builds a candidate from those that
apply, seals it and submits it.  Sealing can take long, and the node goes on importing blocks
meanwhile; a block whose parent is not the canonical tip any more is given up, and the author starts
over.  Whatever is given up goes back to the pool.

An attempt is a sequence of steps, and other operations of the node can come between any two of them.
A `Timeline` says which ones do, and how time passes.
-/

namespace LedgerChain

/-- An operation of the node that comes in while a block is being made. -/
inductive NodeEvent where
  | importBlock (block : Block)
  | shutdown
deriving DecidableEq

/-- The answer to an operation that came in. -/
inductive EventAnswer where
  | imported (answer : Except ChainError ImportResult)
  | shutDown (answer : Except ChainError Unit)

/-- What happens during one sealing attempt. -/
structure Timeline where
  /-- After the extrinsics were pulled. -/
  afterPull : List NodeEvent := []
  /-- While the seal is searched for. -/
  whileSealing : List NodeEvent := []
  /-- After a seal was found, before the node looks at the parent again. -/
  beforeCheck : List NodeEvent := []
  /-- The first poll of the search that sees a cancellation by one of the events. -/
  noticedBy : Nat := 1
  /-- The time that has passed at each poll of the search, in milliseconds. -/
  elapsed : Nat → Nat := id

/-- The answers to the operations that came in during one attempt. -/
structure TimelineAnswers where
  afterPull : List EventAnswer := []
  whileSealing : List EventAnswer := []
  beforeCheck : List EventAnswer := []

/-- A block being made. -/
structure Attempt where
  parent : ChainTip
  candidate : Candidate
  /-- Cancelled when the canonical tip moves. -/
  token : CancelToken

/-- How an attempt ended. -/
inductive AttemptEnd where
  /-- The parent moved, so the author starts over. -/
  | startOver
  | failed (cause : AuthoringError)
  | made (block : Block) (outcome : Outcome)

/-- What a sealing attempt sees, given whether its token is cancelled in the end. -/
def AuthoringConfig.sealContext (config : AuthoringConfig) (timeline : Timeline)
    (cancelled : Bool) : SealContext where
  cancelled poll := cancelled && timeline.noticedBy ≤ poll
  expired poll := config.sealTimeout ≠ 0 && config.sealTimeout ≤ timeline.elapsed poll
  authoringKey := config.authoringKey
  workDifficulty := config.workDifficulty
  nonceStart := 0

namespace Node

variable [Crypto]

/-- Handles an operation that came in. -/
def handle (n : Node) : NodeEvent → EventAnswer × Node
  | .importBlock block =>
    let (answer, n') := n.importBlock block
    (.imported answer, n')
  | .shutdown =>
    let (answer, n') := n.shutdown
    (.shutDown answer, n')

/-- Handles operations in order. -/
def handleAll (n : Node) : List NodeEvent → List EventAnswer × Node
  | [] => ([], n)
  | event :: rest =>
    let (answer, n₁) := n.handle event
    let (answers, n₂) := handleAll n₁ rest
    (answer :: answers, n₂)

/-- Puts extrinsics back into the pool. -/
def giveBack (n : Node) (xs : List Extrinsic) : Node := { n with pool := (n.pool.giveBack xs).2 }

/-- First step: reads the parent and pulls extrinsics. -/
def pullForBlock (n : Node) (config : AuthoringConfig) :
    Except AuthoringError (ChainTip × List Extrinsic) × Node :=
  match n.canonicalTip? with
  | none => (.error (.chain (.missingBlock n.forkChoice.best)), n)
  | some parent =>
    let (pulled, pool) := n.pool.pull config.maxExtrinsics
    (.ok (parent, pulled), { n with pool })

/-- Second step: registers an attempt to seal a candidate. -/
def register (n : Node) (parent : ChainTip) (candidate : Candidate) : Attempt × Node :=
  let (token, flags) := n.flags.fresh
  (⟨parent, candidate, token⟩, { n with flags, attempts := n.attempts ++ [token] })

/-- Takes an attempt off the register. -/
def unregister (n : Node) (token : CancelToken) : Node :=
  { n with attempts := n.attempts.filter fun t => t ≠ token }

/-- Third step: the search for a seal, seen from the node at the end of it. -/
def sealAttempt (n : Node) (config : AuthoringConfig) (timeline : Timeline) (a : Attempt) :
    Except SealError ChainTip :=
  a.candidate.complete n.engine a.parent
    (config.sealContext timeline (n.flags.isCancelled a.token))

/-- The end of an attempt that found no seal. -/
def abandon (n : Node) (a : Attempt) (e : SealError) : AttemptEnd × Node :=
  (if e = .sealCancelled then .startOver else .failed (.sealFailed e),
    (n.unregister a.token).giveBack a.candidate.extrinsics)

/-- Last step: submits a sealed block, if the parent is still the canonical tip. -/
def submitSealed (n : Node) (a : Attempt) (tip : ChainTip) : AttemptEnd × Node :=
  let cancelled := n.flags.isCancelled a.token
  let n := n.unregister a.token
  let xs := tip.block.extrinsics
  if cancelled || n.forkChoice.best ≠ a.parent.id then (.startOver, n.giveBack xs)
  else
    match n.store.put tip.block tip.state with
    | .error e => (.failed (.chain (.store e)), n.giveBack xs)
    | .ok store =>
      match decide { n with store } tip with
      | (.error e, n₁) => (.failed (.chain e), n₁.giveBack xs)
      | (.ok (outcome, update), n₁) =>
        (.made tip.block outcome, ((n₁.updatePool update).releaseOrphans tip.id).2)

/-- A sealing attempt, from the registered candidate on. -/
def runAttempt (n : Node) (config : AuthoringConfig) (timeline : Timeline) (a : Attempt) :
    (AttemptEnd × List EventAnswer × List EventAnswer) × Node :=
  let (whileSealing, n₁) := n.handleAll timeline.whileSealing
  match n₁.sealAttempt config timeline a with
  | .error e =>
    let (result, n₂) := n₁.abandon a e
    ((result, whileSealing, []), n₂)
  | .ok tip =>
    let (beforeCheck, n₂) := n₁.handleAll timeline.beforeCheck
    let (result, n₃) := n₂.submitSealed a tip
    ((result, whileSealing, beforeCheck), n₃)

/-- What an author did: the result, and the answers to what came in meanwhile, attempt by attempt. -/
structure AuthorReport where
  result : Except AuthoringError AuthoredBlock
  answers : List TimelineAnswers

/-- Makes at most `left` further attempts, after `made` others that left out the given extrinsics. -/
def authorFrom (config : AuthoringConfig) (timelines : Nat → Timeline) :
    (left made : Nat) → List (ExtrinsicId × ExtrinsicError) → Node → AuthorReport × Node
  | 0, _, _, n => (⟨.error (.tooManyAttempts config.maxAttempts), []⟩, n)
  | left + 1, made, excluded, n =>
    let timeline := timelines made
    match n.pullForBlock config with
    | (.error e, n₁) => (⟨.error e, []⟩, n₁)
    | (.ok (parent, pulled), n₁) =>
      let (afterPull, n₂) := n₁.handleAll timeline.afterPull
      let (candidate, leftOut) := Candidate.prepare parent pulled
      let excluded := excluded ++ leftOut.map fun (x, e) => (x.id, e)
      if candidate.extrinsics.isEmpty && !config.allowEmptyBlocks then
        (⟨.error .nothingToAuthor, [{ afterPull }]⟩, n₂)
      else
        let (a, n₃) := n₂.register parent candidate
        let ((result, whileSealing, beforeCheck), n₄) := n₃.runAttempt config timeline a
        let answers : TimelineAnswers := ⟨afterPull, whileSealing, beforeCheck⟩
        match result with
        | .made block outcome => (⟨.ok ⟨block, outcome, excluded⟩, [answers]⟩, n₄)
        | .failed e => (⟨.error e, [answers]⟩, n₄)
        | .startOver =>
          let (report, n₅) := authorFrom config timelines left (made + 1) excluded n₄
          ({ report with answers := answers :: report.answers }, n₅)

/-- Makes a block on top of the canonical tip. -/
def author (n : Node) (config : AuthoringConfig) (timelines : Nat → Timeline) :
    AuthorReport × Node :=
  authorFrom config timelines config.maxAttempts 0 [] n

end Node

end LedgerChain
