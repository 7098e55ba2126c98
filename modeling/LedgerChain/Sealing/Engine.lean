import LedgerChain.Params
import LedgerChain.Sealing.Authority
import LedgerChain.Sealing.Work

/-!
# Sealing engines

The two sealing rules behind one interface.  A node picks its engine once, from its parameters.
-/

namespace LedgerChain

/-- A sealing rule at work. -/
inductive Engine where
  | work (rule : WorkRule)
  | authority (rule : AuthorityRule)
deriving DecidableEq

namespace Engine

/-- The engine of a sealing rule. -/
def ofRule : SealRule → Engine
  | .work minDifficulty => work (.ofMinimum minDifficulty)
  | .authority authorities roundRobin => authority ⟨authorities, roundRobin⟩

/-- The kind of the seals it makes. -/
def kind : Engine → SealKind
  | work _ => .work
  | authority _ => .authority

/-- Checks the seal of a header on its parent, for the state digest under test. -/
def validate [Crypto] (engine : Engine) (h parent : Header) (resulting : Digest) :
    Except SealError Unit :=
  match engine with
  | work rule => rule.validate h parent resulting
  | authority rule => rule.validate h parent resulting

/-- Makes a seal for a template. -/
def produce [Crypto] (engine : Engine) (t : HeaderTemplate) (parent : Header) (resulting : Digest)
    (ctx : SealContext) : Except SealError Seal :=
  match engine with
  | work rule => rule.produce t parent resulting ctx
  | authority rule => rule.produce t parent resulting ctx

/-- What a sealed header adds to the weight of its branch. -/
def weight (engine : Engine) (h : Header) : Except SealError Nat :=
  match engine with
  | work _ => WorkRule.weight h
  | authority _ => .ok 1

end Engine

end LedgerChain
