import LedgerChain.Proofs.Lifetime.Joining
import LedgerChain.Proofs.Lifetime.StaleBlocks
import LedgerChain.Proofs.Node.Unaccepted

/-!
# Imports that do not accept, over a lifetime

**Whatever is not accepted changes nothing on the chain** (`Lifetime.unaccepted_changes_nothing`), at
every moment of a lifetime at which a block can come in, also while the author is at work.
-/

namespace LedgerChain

namespace Lifetime

open Node

variable [Crypto] {params : Params} {initial : State} {events : List LifeEvent} {n : Node}
  {m : Making}

/-- **Only acceptance touches the chain.**  Let a node be at work making a block, or about to, with
other operations coming in between.

* If a block is ignored then, the node stays as it is.
* If it is rejected, the memory of invalid blocks may note its identifier and nothing else changes;
  it does so if and only if the seal, the execution or the digest of the state is at fault.
* If it waits for its parent, it is in the pool of orphans and nothing else changes.  Its parent is in
  neither tree nor store, and it is more than one above the root.
* A string of bytes is imported as the block that it encodes.  If it encodes none, it is rejected and
  the node stays as it is. -/
theorem unaccepted_changes_nothing (hlife : run params initial events = running n)
    {config : AuthoringConfig} {moves : List MakingMove} (hm : n.making config moves = m) :
    (∀ b reason n', m.node.importBlock b = (.ok (.ignored reason), n') → n' = m.node) ∧
    (∀ b cause n', m.node.importBlock b = (.ok (.rejected cause), n') →
      m.node.Dismisses b cause n') ∧
    (∀ b n', m.node.importBlock b = (.ok .pendingParent, n') → m.node.Shelves b n') ∧
    ∀ input,
      (∃ e, Block.decode input = .error e ∧
        m.node.importEncoded input = (.ok (.rejected (.malformed (.undecodable e))), m.node)) ∨
      ∃ b, Block.decode input = .ok b ∧ m.node.importEncoded input = m.node.importBlock b := by
  obtain ⟨-, hsteady⟩ := steady (linking_follows _) hlife config moves
  subst hm
  obtain ⟨-, hsound, horder, -⟩ := hsteady
  refine ⟨fun b reason n' h => ?_, fun b cause n' h => ?_, fun b n' h => ?_, importEncoded_cases _⟩
  · exact (unaccepted_importBlock hsound rfl h).eq_of_ignored
  · exact (unaccepted_importBlock hsound rfl h).dismisses
  · exact (unaccepted_importBlock hsound rfl h).shelves horder

/-- The block with another digest of the state in its header. -/
def stateSwapped (b : Block) (d : Digest) : Block :=
  { b with header := { b.header with stateDigest := d } }

/-- The first block on genesis, which claims to lead to another state. -/
def wrongState : Block := stateSwapped (sideBlock 0).block (sideBlock 0).parent.digest

omit [Crypto] in
/-- A block waits for its parent.  Another one has a bad header, which is noted. -/
theorem unaccepted_changes_nothing_two :
    letI := Crypto.transparent
    ∃ n n₁ n₂ cause, run easyParams {} [startEvent] = running n ∧
      n.making {} [] = { node := n, left := 3 } ∧
      n.importBlock lateBlock = (.ok .pendingParent, n₁) ∧ n.Shelves lateBlock n₁ ∧
      n.importBlock wrongState = (.ok (.rejected cause), n₂) ∧ cause.BlamesHeader ∧
      n.Dismisses wrongState cause n₂ ∧ n.invalid.ids = [] ∧ n₂.invalid.ids = [wrongState.id] := by
  let _ := Crypto.transparent
  have hnode : ((run easyParams {} [startEvent]).node?.map fun n =>
      ((n.importBlock lateBlock).1.toOption, (n.importBlock wrongState).1.toOption, n.invalid.ids,
        (n.importBlock wrongState).2.invalid.ids)) =
      some (some .pendingParent, some (.rejected (.digestMismatch .state
        wrongState.header.stateDigest (sideBlock 0).block.header.stateDigest)), [],
        [wrongState.id]) := by
    decide +kernel
  obtain ⟨n, hn, hend⟩ := Option.map_eq_some_iff.1 hnode
  rw [node?_eq_some_iff] at hn
  simp only [Prod.mk.injEq, toOption_eq_some_iff] at hend
  obtain ⟨hpending, hrejected, hempty, hnoted⟩ := hend
  have hm : n.making {} [] = { node := n, left := 3 } := rfl
  obtain ⟨-, hdismisses, hshelves, -⟩ := unaccepted_changes_nothing hn hm
  exact ⟨n, _, _, _, hn, hm, Prod.ext hpending rfl, hshelves _ _ (Prod.ext hpending rfl),
    Prod.ext hrejected rfl, Or.inr (Or.inr ⟨_, _, rfl⟩), hdismisses _ _ _ (Prod.ext hrejected rfl),
    hempty, hnoted⟩

end Lifetime

end LedgerChain
