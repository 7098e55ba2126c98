import LedgerChain.Proofs.Node.Storage

/-!
# Sessions

Between its start and its end a node takes steps, and its store may begin to fail or be repaired at
any moment.  What a node becomes that way is its **session** (`Node.Session`); it includes the
moments within an operation.
-/

namespace LedgerChain

namespace Node

variable [Crypto] {n n' : Node}

/-- What happens to a node within a session. -/
inductive Move : Node → Node → Prop
  | step {n n' : Node} (h : Step Heavy n n') : Move n n'
  | setFaults (n : Node) (faults : Faults) : Move n { n with store := { n.store with faults } }

/-- The second node is what the first one has become at some moment of its session. -/
abbrev Session : Node → Node → Prop := Relation.ReflTransGen Move

theorem Session.of_run (h : Run Heavy n n') : n.Session n' :=
  Relation.ReflTransGen.mono (fun _ _ => .step) _ _ h

theorem Move.sound (h : Move n n') (hn : n.Sound) : n'.Sound := by
  cases h with
  | step h => exact h.sound hn
  | setFaults faults => exact hn.withFaults faults

theorem Session.induct {I : Node → Prop} (move : ∀ {n n'}, n.Sound → I n → Move n n' → I n')
    (h : n.Session n') (hn : n.Sound) (hI : I n) : n'.Sound ∧ I n' := by
  induction h with
  | refl => exact ⟨hn, hI⟩
  | tail _ hmove ih => exact ⟨hmove.sound ih.1, move ih.1 ih.2 hmove⟩

theorem Session.sound (h : n.Session n') (hn : n.Sound) : n'.Sound :=
  (h.induct (I := fun _ => True) (fun _ _ _ => trivial) hn trivial).1

theorem Session.params_eq (h : n.Session n') : n'.params = n.params := by
  induction h with
  | refl => rfl
  | tail _ hmove ih =>
    cases hmove with
    | step hstep => exact hstep.params_eq.trans ih
    | setFaults faults => exact ih

theorem Session.engine_eq (h : n.Session n') : n'.engine = n.engine := by
  rw [engine, engine, h.params_eq]

theorem Session.noWorse (h : n.Session n') (hn : n.Sound) : n.NoWorse n' := by
  refine (h.induct (I := fun m => n.NoWorse m) (fun hm hworse hmove => ?_) hn (Or.inl rfl)).2
  cases hmove with
  | step hstep => exact hworse.trans (hstep.noWorse hm.wellFormed)
  | setFaults faults => exact hworse

end Node

end LedgerChain
