import LedgerChain.Proofs.Node.Orphans

/-!
# Cascades of imports

An accepted block releases the orphans that wait for it, and these release others.  The import of a
block with all that follows from it is a **cascade** (`Node.Cascade`): blocks that were released and
are still to be handed in, and blocks whose orphans are still to be released.  Every import is a
cascade, and so is what comes after a block of one's own (`Orderly.cascade_importBlock`,
`Orderly.cascade_releaseOrphans`); the bound on the number of steps of a release plays no part, since
stack and orphans together become fewer by one with each step.

The blocks that are handed in on the way are recorded, each with the node at that moment
(`Handing`).
-/

namespace LedgerChain

/-- A block that is handed to a node. -/
structure Handing where
  /-- The node before. -/
  node : Node
  block : Block

variable [Crypto]

namespace Handing

/-- What the node answers. -/
def answer (h : Handing) : ImportAnswer := (h.node.importOne h.block).1

/-- The node after it. -/
def after (h : Handing) : Node := (h.node.importOne h.block).2

/-- The pool was full, and its oldest block made room for the one that is handed in. -/
def Evicts (h : Handing) (c : Block) : Prop :=
  h.node.Full ∧ ∃ rest, h.node.waiting = c :: rest ∧ h.after.waiting = rest ++ [h.block]

end Handing

namespace Node

variable {n n' : Node} {b c : Block} {rest : List Block} {stack : List BlockId}
  {log : List Handing} {ending : Except ChainError Unit}

/-! ### The blocks that are handed in -/

/-- The blocks that are handed in when orphans are imported that were released together. -/
def releasedHandings (n : Node) : List Block → List Handing
  | [] => []
  | b :: rest =>
    ⟨n, b⟩ ::
      match n.importOne b with
      | (.error _, _) => []
      | (.ok _, n₁) => releasedHandings n₁ rest

/-- The blocks that are handed in by a release. -/
def handingsFrom (n : Node) : (steps : Nat) → List BlockId → List Handing
  | 0, _ => []
  | _ + 1, [] => []
  | steps + 1, parent :: stack =>
    let (released, n₁) := n.takeOrphans parent
    n₁.releasedHandings released ++
      match n₁.importReleased released with
      | (.error _, _) => []
      | (.ok accepted, n₂) => handingsFrom n₂ steps (accepted.reverse ++ stack)

/-- The blocks that are handed in when the orphans of a block are released. -/
def releaseHandings (n : Node) (parent : BlockId) : List Handing :=
  n.handingsFrom (n.orphanCount + 1) [parent]

/-- The blocks that are handed in by an import. -/
def importHandings (n : Node) (b : Block) : List Handing :=
  ⟨n, b⟩ ::
    match n.importOne b with
    | (.error _, _) => []
    | (.ok result, n₁) => if result.isAccepted then n₁.releaseHandings b.id else []

/-! ### Cascades -/

/-- Some blocks are handed to a node one after the other, and whatever waits for those that are
accepted, or for the blocks on the stack.  It ends with the first failure. -/
inductive Cascade : List Block → List BlockId → Node → List Handing →
    Except ChainError Unit → Node → Prop
  | done (n : Node) : Cascade [] [] n [] (.ok ()) n
  | take {n n' : Node} {parent : BlockId} {stack : List BlockId} {log : List Handing}
      {ending : Except ChainError Unit}
      (h : Cascade (n.takeOrphans parent).1 stack (n.takeOrphans parent).2 log ending n') :
      Cascade [] (parent :: stack) n log ending n'
  | hand {n n' n₁ : Node} {b : Block} {rest : List Block} {stack : List BlockId}
      {result : ImportResult} {log : List Handing} {ending : Except ChainError Unit}
      (himport : n.importOne b = (.ok result, n₁))
      (h : Cascade rest (if result.isAccepted then b.id :: stack else stack) n₁ log ending n') :
      Cascade (b :: rest) stack n (⟨n, b⟩ :: log) ending n'
  | fail {n n' : Node} {b : Block} {rest : List Block} {stack : List BlockId} {e : ChainError}
      (himport : n.importOne b = (.error e, n')) :
      Cascade (b :: rest) stack n [⟨n, b⟩] (.error e) n'

omit [Crypto] in
theorem forall_mem_pushed {P : BlockId → Prop} {result : ImportResult} {id : BlockId}
    (hstack : ∀ q ∈ stack, P q) (hid : result.isAccepted = true → P id) :
    ∀ q ∈ (if result.isAccepted then id :: stack else stack), P q := by
  split
  · rename_i haccepted
    exact List.forall_mem_cons.2 ⟨hid haccepted, hstack⟩
  · exact hstack

theorem Cascade.importReleased {accepted : List BlockId} {n₁ : Node}
    (himport : n.importReleased rest = (.ok accepted, n₁))
    (h : Cascade [] (accepted.reverse ++ stack) n₁ log ending n') :
    Cascade rest stack n (n.releasedHandings rest ++ log) ending n' := by
  induction rest generalizing n accepted stack with
  | nil =>
    cases himport
    exact h
  | cons b rest ih =>
    rw [Node.importReleased] at himport
    rcases hone : n.importOne b with ⟨e | result, m⟩ <;> rw [hone] at himport
    · cases himport
    · simp only at himport
      rcases hrest : m.importReleased rest with ⟨e | others, m'⟩ <;> rw [hrest] at himport
      · cases himport
      · cases himport
        simp only [releasedHandings, hone, List.cons_append]
        refine .hand hone (ih hrest ?_)
        -- an accepted block is the next one on the stack
        cases haccepted : result.isAccepted with
        | false =>
          rw [haccepted] at h
          exact h
        | true =>
          rw [haccepted, if_pos rfl, List.reverse_cons, List.append_assoc] at h
          exact h

theorem cascade_of_importReleased_error {e : ChainError}
    (himport : n.importReleased rest = (.error e, n')) :
    Cascade rest stack n (n.releasedHandings rest) (.error e) n' := by
  induction rest generalizing n stack with
  | nil => cases himport
  | cons b rest ih =>
    rw [Node.importReleased] at himport
    rcases hone : n.importOne b with ⟨e' | result, m⟩ <;> rw [hone] at himport
    · cases himport
      simp only [releasedHandings, hone]
      exact .fail hone
    · simp only at himport
      rcases hrest : m.importReleased rest with ⟨e' | others, m'⟩ <;> rw [hrest] at himport
      · cases himport
        simp only [releasedHandings, hone]
        exact .hand hone (ih hrest)
      · cases himport

/-! ### What is kept -/

theorem Orderly.importOne (hn : n.Orderly) (b : Block) : (n.importOne b).2.Orderly :=
  (handled_importOne n b).orderly hn

/-- An accepted block leaves the orphans alone, and any other adds one at most. -/
theorem Orderly.length_importOne (hn : n.Orderly) {result : ImportResult} {n₁ : Node}
    (himport : n.importOne b = (.ok result, n₁)) :
    (if result.isAccepted then 1 else 0) + n₁.waiting.length ≤ 1 + n.waiting.length := by
  rcases (handled_of_importOne himport).orphans_eq_or with horphans | ⟨hanswer, rfl, -, -⟩
  · rw [waiting_of_orphans_eq horphans]
    split <;> omega
  · have hnot : result.isAccepted = false := by
      cases hanswer
      exact isAccepted_holdOrphan n b
    rw [hnot, if_neg Bool.false_ne_true, Nat.zero_add]
    obtain ⟨-, -, ⟨hsame, -⟩ | ⟨-, -, hroom | ⟨-, d, rest, hbefore, hafter⟩⟩⟩ :=
      hn.holdOrphan_cases b
    · rw [hsame]
      exact Nat.le_add_left _ _
    · rw [hroom, List.length_append, List.length_singleton, Nat.add_comm]
    · rw [hafter, hbefore, List.length_append, List.length_singleton, List.length_cons]
      exact Nat.le_add_left _ _

theorem Orderly.importReleased (hn : n.Orderly) {accepted : List BlockId}
    (himport : n.importReleased rest = (.ok accepted, n')) :
    n'.Orderly ∧ accepted.length + n'.waiting.length ≤ rest.length + n.waiting.length := by
  induction rest generalizing n accepted with
  | nil =>
    cases himport
    exact ⟨hn, Nat.le_refl _⟩
  | cons b rest ih =>
    rw [Node.importReleased] at himport
    rcases hone : n.importOne b with ⟨e | result, m⟩ <;> rw [hone] at himport
    · cases himport
    · have hm : m.Orderly := by
        have hm := hn.importOne b
        rwa [hone] at hm
      have hlength := hn.length_importOne hone
      simp only at himport
      rcases hrest : m.importReleased rest with ⟨e | others, m'⟩ <;> rw [hrest] at himport
      · cases himport
      · cases himport
        obtain ⟨hn', hle⟩ := ih hm hrest
        refine ⟨hn', ?_⟩
        rw [List.length_cons]
        split
        · rename_i haccepted
          rw [haccepted, if_pos rfl] at hlength
          rw [List.length_cons]
          omega
        · omega

/-! ### Imports and releases as cascades -/

/-- **The steps of a release suffice**: stack and orphans together become fewer with each step. -/
theorem Orderly.cascade_releaseFrom (hn : n.Orderly) {steps : Nat}
    (hsteps : stack.length + n.waiting.length ≤ steps) :
    Cascade [] stack n (n.handingsFrom steps stack) (n.releaseFrom steps stack).1
      (n.releaseFrom steps stack).2 := by
  induction steps generalizing n stack with
  | zero =>
    have hstack : stack = [] := List.length_eq_zero_iff.1 (by omega)
    subst hstack
    exact .done n
  | succ steps ih =>
    cases stack with
    | nil => exact .done n
    | cons parent stack =>
      obtain ⟨htaken, hleft, hn₁, -⟩ := hn.takeOrphans parent
      have hsplit : (n.takeOrphans parent).1.length + (n.takeOrphans parent).2.waiting.length =
          n.waiting.length := by
        rw [htaken, hleft]
        simp only [ne_eq, decide_not]
        exact (List.length_eq_length_filter_add _).symm
      refine .take ?_
      simp only [releaseFrom, handingsFrom]
      rcases himport : (n.takeOrphans parent).2.importReleased (n.takeOrphans parent).1 with
        ⟨e | accepted, n₂⟩
      · simp only [List.append_nil]
        exact cascade_of_importReleased_error himport
      · obtain ⟨hn₂, hle⟩ := hn₁.importReleased himport
        refine .importReleased himport (ih hn₂ ?_)
        rw [List.length_append, List.length_reverse]
        rw [List.length_cons] at hsteps
        omega

/-- **A release is a cascade.** -/
theorem Orderly.cascade_releaseOrphans (hn : n.Orderly) (parent : BlockId) :
    Cascade [] [parent] n (n.releaseHandings parent) (n.releaseOrphans parent).1
      (n.releaseOrphans parent).2 := by
  refine hn.cascade_releaseFrom ?_
  rw [hn.orphanCount_eq, List.length_singleton, Nat.add_comm]

/-- **An import is a cascade**, which fails if the import does. -/
theorem Orderly.cascade_importBlock (hn : n.Orderly) (b : Block) :
    Cascade [b] [] n (n.importHandings b) ((n.importBlock b).1.map fun _ => ())
      (n.importBlock b).2 := by
  have hn₁ := hn.importOne b
  rw [importBlock, importHandings]
  rcases hone : n.importOne b with ⟨e | result, n₁⟩
  · exact .fail hone
  · rw [hone] at hn₁
    simp only
    cases haccepted : result.isAccepted with
    | false =>
      refine .hand hone ?_
      rw [haccepted]
      exact .done n₁
    | true =>
      refine .hand hone ?_
      rw [haccepted]
      have hrelease := hn₁.cascade_releaseOrphans b.id
      simp only [Bool.not_true, Bool.false_eq_true, if_false, if_true]
      rcases hres : n₁.releaseOrphans b.id with ⟨e | u, n₂⟩ <;> rw [hres] at hrelease <;>
        exact hrelease

namespace Cascade

variable {I : Node → Prop} {K A : Node → ChainTip → Prop} (h : Cascade rest stack n log ending n')

include h

theorem run_of (hA : Admits I K A) (hn : I n) : Run A n n' := by
  induction h with
  | done n => exact .refl
  | @take n n' parent stack log ending _ ih =>
    have htake : Run A n (n.takeOrphans parent).2 := .aside (sameChain_takeOrphans n parent)
    exact htake.trans (ih (hA.run_inv htake hn))
  | @hand n n' n₁ b rest stack result log ending himport _ ih =>
    have hone := hA.run_of_importOne hn himport
    exact hone.trans (ih (hA.run_inv hone hn))
  | @fail n n' b rest stack e himport => exact hA.run_of_importOne hn himport

theorem run (hwf : n.forkChoice.WellFormed) : Run Heavy n n' := h.run_of admits_heavy hwf

theorem orderly (hn : n.Orderly) : n'.Orderly := by
  induction h with
  | done n => exact hn
  | take _ ih => exact ih (hn.takeOrphans _).2.2.1
  | @hand n n' n₁ b rest stack result log ending himport _ ih =>
    have hone := hn.importOne b
    rw [himport] at hone
    exact ih hone
  | @fail n n' b rest stack e himport =>
    have hone := hn.importOne b
    rw [himport] at hone
    exact hone

/-- **What every single import does, a whole cascade does**, wherever it ends: two nodes and the
blocks that were handed in between them are related, if the nodes before and after each of these
blocks are. -/
theorem relate {P : List Handing → Node → Node → Prop} {F : Faults → Prop} (nil : ∀ n, P [] n n)
    (append : ∀ {n m n' log log'}, P log n m → P log' m n' → P (log ++ log') n n')
    (take : ∀ n parent, P [] n (Node.takeOrphans n parent).2)
    (hand : ∀ x : Handing, x.node.Sound → F x.node.store.faults → P [x] x.node x.after)
    (hn : n.Sound) (hF : F n.store.faults) : P log n n' := by
  induction h with
  | done n => exact nil n
  | @take n n' parent stack log ending _ ih =>
    have hsame := sameChain_takeOrphans n parent
    have hsound : (n.takeOrphans parent).2.Sound := Step.sound (.aside hsame) hn
    exact append (take n parent) (ih hsound (hsame.store ▸ hF))
  | @hand n n' n₁ b rest stack result log ending himport _ ih =>
    have hone := hand ⟨n, b⟩ hn hF
    have hrun := run_of_importOne hn.wellFormed himport
    rw [Handing.after, himport] at hone
    exact append hone (ih (hrun.sound hn) (hrun.faults_eq ▸ hF))
  | @fail n n' b rest stack e himport =>
    have hone := hand ⟨n, b⟩ hn hF
    rwa [Handing.after, himport] at hone

end Cascade

end Node

end LedgerChain
