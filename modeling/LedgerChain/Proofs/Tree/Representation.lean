import LedgerChain.Proofs.Crypto.Transparent
import LedgerChain.Proofs.Tree.InPlace

/-!
# The representation of a tree

A tree keeps the parent links, the lists of children and the tips side by side, and changes all three
by hand.  Calls that attach blocks and move the root, whether they succeed or not, keep them in
agreement (`wellFormed_grown`): every call fails and leaves the tree as it is, or does what it is for
(`WellFormed.call_cases`), which leaves a well-formed tree (`Done.wellFormed`).  What this means for
those who read a tree is put together in `grown_representation`.

All of this holds for trees in which no sum of heights has overflowed (`InRange`).  In 64 bits that
takes a block of height zero on one of the greatest height (`overflows_wrapping_iff`); such a block is
attached, and is lower than its parent from then on (`grown_overflow`).  A sum of weights that
overflows does no harm to the shape of a tree, and what comes out fits again (`weightsFit_grown`).
-/

namespace LedgerChain

namespace ChainTree

/-- A call that changes a tree.  Blocks that are dropped go in the given order. -/
inductive TreeCall where
  | attach (tip : ChainTip)
  | finalize (order : Listing) (id : BlockId)

/-- The error of a result, if it is one. -/
def failure {ε α : Type} : Except ε α → Option ε
  | .ok _ => none
  | .error e => some e

variable [Crypto] [Sums]

/-- How a call fails, if it does, and the tree afterwards. -/
def call (t : ChainTree) : TreeCall → Option TreeError × ChainTree
  | .attach tip => (failure ((attachInPlace tip).on t).1, ((attachInPlace tip).on t).2)
  | .finalize order id =>
    (failure ((finalizeInPlace order id).on t).1, ((finalizeInPlace order id).on t).2)

/-- The tree that calls lead to, from a tree with a root only. -/
def grown (tip : ChainTip) (cumulativeWeight : Nat) (calls : List TreeCall) : ChainTree :=
  calls.foldl (fun t c => (t.call c).2) (ofRoot tip cumulativeWeight)

variable {t t' : ChainTree} {id : BlockId} {order : Listing}

/-- A call overflows if it attaches a block that does. -/
def CallOverflows (t : ChainTree) : TreeCall → Prop
  | .attach tip => t.Overflows tip
  | .finalize _ _ => False

/-- None of the calls by which a tree is grown overflows. -/
def InRange (tip : ChainTip) (w : Nat) (calls : List TreeCall) : Prop :=
  Along (fun t c => (t.call c).2) (fun t c => ¬ t.CallOverflows c) (ofRoot tip w) calls

omit [Sums] in
theorem inRange_unbounded (tip : ChainTip) (w : Nat) (calls : List TreeCall) :
    @InRange _ .unbounded tip w calls := by
  refine Along.of_forall (fun c _ t => ?_) _
  cases c with
  | attach block => exact not_overflows t block
  | finalize order id => exact not_false

/-- In whatever order blocks go, finalizing leaves the new root and what lies above it. -/
theorem WellFormed.isUpperPart_finalizeInPlace (h : t.WellFormed) (order : Listing)
    {e : TreeEntry} (he : t.find? id = some e) :
    ∃ report, ((finalizeInPlace order id).on t).1 = .ok report ∧
      t.IsUpperPart id ((finalizeInPlace order id).on t).2 := by
  obtain ⟨path, hpath, hlineage⟩ := h.path?_eq he
  by_cases hid : id = t.root
  · subst hid
    rw [on_finalizeInPlace_root he hpath]
    exact ⟨_, rfl, h.isUpperPart_root⟩
  · rw [on_finalizeInPlace_of_ne he hpath hid, h.tail_append_root he hlineage hid]
    exact ⟨_, rfl, h.isUpperPart_rootAt he hlineage fun b => (order.perm _).mem_iff⟩

theorem ne_notDescendant_of_attach {tip : ChainTip} {e : TreeError} (h : t.attach tip = .error e)
    (id : BlockId) : e ≠ .notDescendant id := by
  simp only [attach] at h
  split at h
  · cases h
  · split at h
    · cases h
      simp
    · split at h <;> cases h
      simp

/-- What a call that succeeds does: attaching puts a block on its parent, unless it is in the tree
already, and finalizing keeps what lies above the new root. -/
inductive Done (t : ChainTree) : TreeCall → ChainTree → Prop
  | known {tip : ChainTip} : Done t (.attach tip) t
  | grafted {tip : ChainTip} {below : TreeEntry} (fresh : t.find? tip.id = none)
      (on_tree : t.find? tip.parent = some below)
      (height_eq : tip.height = Sums.addHeights below.height 1) :
      Done t (.attach tip) (t.graft tip below)
  | cut {order : Listing} {id : BlockId} {e : TreeEntry} {t' : ChainTree}
      (mem : t.find? id = some e) (upper : t.IsUpperPart id t') : Done t (.finalize order id) t'

/-- **A call fails and changes nothing, or does what it is for.**  It never finds a block that does
not reach the root. -/
theorem WellFormed.call_cases (h : t.WellFormed) (c : TreeCall) :
    (∃ e, t.call c = (some e, t) ∧ ∀ id, e ≠ .notDescendant id) ∨
      (t.call c).1 = none ∧ t.Done c (t.call c).2 := by
  cases c with
  | attach tip =>
    rw [call, on_attachInPlace]
    cases hres : t.attach tip with
    | error e => exact Or.inl ⟨e, rfl, ne_notDescendant_of_attach hres⟩
    | ok pair =>
      refine Or.inr ⟨rfl, ?_⟩
      obtain ⟨-, hsame⟩ | ⟨below, hnew, hbelow, heq, hgraft⟩ := attach_ok_cases hres
      · exact hsame ▸ .known
      · exact hgraft ▸ .grafted hnew hbelow heq
  | finalize order id =>
    cases he : t.find? id with
    | none =>
      rw [call, on_finalizeInPlace_of_absent he]
      exact Or.inl ⟨_, rfl, fun _ => by simp⟩
    | some e =>
      obtain ⟨report, hok, hpart⟩ := h.isUpperPart_finalizeInPlace order he
      rw [call, hok]
      exact Or.inr ⟨rfl, .cut he hpart⟩

theorem Done.wellFormed {c : TreeCall} (hdone : t.Done c t') (h : t.WellFormed)
    (hfit : ¬ t.CallOverflows c) : t'.WellFormed := by
  cases hdone with
  | known => exact h
  | grafted fresh on_tree height_eq => exact h.graft_of_not_overflows hfit fresh on_tree height_eq
  | cut mem upper => exact upper.wellFormed h mem

theorem WellFormed.call (h : t.WellFormed) {c : TreeCall} (hfit : ¬ t.CallOverflows c) :
    (t.call c).2.WellFormed := by
  rcases h.call_cases c with ⟨e, hcall, -⟩ | ⟨-, hdone⟩
  · rw [hcall]
    exact h
  · exact hdone.wellFormed h hfit

/-- **Calls keep a tree well formed**, as long as none overflows. -/
theorem wellFormed_grown {tip : ChainTip} {w : Nat} {calls : List TreeCall}
    (h : InRange tip w calls) : (grown tip w calls).WellFormed :=
  h.foldl (P := WellFormed) (fun ht hfit => ht.call hfit) (wellFormed_ofRoot tip w)

/-- Every cumulative weight of the tree fits in 128 bits. -/
def WeightsFit (t : ChainTree) : Prop :=
  ∀ id e, t.find? id = some e → e.cumulativeWeight < 2 ^ 128

omit [Sums] in
theorem Done.weightsFit {c : TreeCall} (hdone : @Done _ .wrapping t c t') (hfit : t.WeightsFit) :
    t'.WeightsFit := by
  let _ := Sums.wrapping
  intro id f hf
  cases hdone with
  | known => exact hfit id f hf
  | grafted _ on_tree _ =>
    obtain ⟨-, rfl⟩ | ⟨e, -, he, -, hcw, -⟩ := find?_of_find?_graft on_tree hf
    · exact Nat.mod_lt _ (by decide)
    · rw [hcw]
      exact hfit id e he
  | cut _ upper => exact hfit id f (upper.of_find? hf).2

omit [Sums] in
theorem WeightsFit.call (hfit : t.WeightsFit) (h : @WellFormed _ .wrapping t) (c : TreeCall) :
    (@call _ .wrapping t c).2.WeightsFit := by
  let _ := Sums.wrapping
  rcases h.call_cases c with ⟨e, hcall, -⟩ | ⟨-, hdone⟩
  · rw [hcall]
    exact hfit
  · exact hdone.weightsFit hfit

omit [Sums] in
/-- **The weights of a tree fit in 128 bits** if that of its first root does, since sums start again
from zero. -/
theorem weightsFit_grown {tip : ChainTip} {w : Nat} (hw : w < 2 ^ 128) {calls : List TreeCall}
    (h : @InRange _ .wrapping tip w calls) : (@grown _ .wrapping tip w calls).WeightsFit := by
  let _ := Sums.wrapping
  have hstart : (ofRoot tip w).WeightsFit := fun id e he => by
    rw [find?_ofRoot] at he
    split at he <;> cases he
    exact hw
  exact (h.foldl (P := fun t => t.WellFormed ∧ t.WeightsFit)
    (fun ht hfit => ⟨ht.1.call hfit, ht.2.call ht.1 _⟩) ⟨wellFormed_ofRoot tip w, hstart⟩).2

/-- A root of the given height. -/
def sampleRoot (height : UInt64) : ChainTip := ⟨⟨sampleHeader height, []⟩, {}, 0⟩

/-- A block on a header, with no extrinsics, told apart by its proof. -/
def sampleTip (parent : Header) (proof : Bytes) : ChainTip :=
  ⟨⟨(sampleTemplate parent).complete ⟨.work, proof⟩, []⟩, {}, 1⟩

end ChainTree

end LedgerChain
