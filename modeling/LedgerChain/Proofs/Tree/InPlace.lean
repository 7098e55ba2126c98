import LedgerChain.Proofs.Tree.Finalize
import LedgerChain.Proofs.Tree.Walk

/-!
# Trees that are changed in place

`attach` and `finalize` give a new tree.  Here they are written out as procedures that change a tree
step by step: a block is linked to its parent, entered, and put among the tips; branches are taken
down block by block, in an order that sets of blocks happen to be listed in (`Listing`).  A procedure
that fails half-way would leave what it had done so far.

* `on_attachInPlace`, `on_finalizeInPlace` : the procedures do what the functions do.

In whatever order the blocks go, what lies above the new root is left
(`WellFormed.isUpperPart_finalizeInPlace`).
-/

namespace LedgerChain

/-! ### Procedures -/

/-- A procedure on a tree.  Where it fails, the tree stays as it is by then. -/
abbrev TreeM := ExceptT TreeError (StateM ChainTree)

namespace TreeM

variable {α β : Type} {t : ChainTree}

/-- What a procedure returns on a tree, and the tree afterwards. -/
def on (x : TreeM α) (t : ChainTree) : Except TreeError α × ChainTree := (ExceptT.run x).run t

theorem on_bind (x : TreeM α) (f : α → TreeM β) :
    (x >>= f).on t = match x.on t with
      | (.ok a, t') => (f a).on t'
      | (.error e, t') => (.error e, t') := by
  show ((ExceptT.run x >>= ExceptT.bindCont f : StateM ChainTree (Except TreeError β)).run t : _) = _
  simp only [on, StateT.run_bind]
  rcases hx : (ExceptT.run x).run t with ⟨a | e, t'⟩ <;> rfl

@[simp] theorem on_pure (a : α) : (pure a : TreeM α).on t = (.ok a, t) := rfl

@[simp] theorem on_throw (e : TreeError) : (throw e : TreeM α).on t = (.error e, t) := rfl

@[simp] theorem on_get : (get : TreeM ChainTree).on t = (.ok t, t) := rfl

@[simp] theorem on_modify (f : ChainTree → ChainTree) :
    (modify f : TreeM PUnit).on t = (.ok ⟨⟩, f t) := rfl

@[simp] theorem on_modifyGet (f : ChainTree → α × ChainTree) :
    (modifyGet f : TreeM α).on t = (.ok (f t).1, (f t).2) := rfl

theorem on_ite {p : Prop} [Decidable p] (x y : TreeM α) :
    (if p then x else y).on t = if p then x.on t else y.on t := by
  split <;> rfl

theorem on_forM (op : ChainTree → BlockId → ChainTree) (xs : List BlockId) :
    (xs.forM fun b => (modify fun t => op t b : TreeM PUnit)).on t =
      (.ok ⟨⟩, xs.foldl op t) := by
  induction xs generalizing t with
  | nil => rfl
  | cons x xs ih =>
    rw [List.forM, on_bind, on_modify]
    exact ih

end TreeM

namespace ChainTree

/-- An order in which blocks may come if they are listed from a set. -/
structure Listing where
  list : List BlockId → List BlockId
  perm : ∀ ids, (list ids).Perm ids

/-- Blocks in the order in which they are at hand. -/
def Listing.asGiven : Listing := ⟨id, fun _ => .refl _⟩

/-- Enters a block among the children of another one. -/
def addChild (t : ChainTree) (parent child : BlockId) : ChainTree :=
  { t with entries := t.entries.modify parent fun below =>
      { below with children := below.children.insert child } }

/-- Enters a block. -/
def addEntry (t : ChainTree) (id : BlockId) (e : TreeEntry) : ChainTree :=
  { t with entries := t.entries.insert id e }

/-- Takes a block from the tips, and tells whether it was one. -/
def takeTip (t : ChainTree) (id : BlockId) : Bool × ChainTree :=
  (decide (id ∈ t.tips), { t with tips := t.tips.filter fun b => b ≠ id })

/-- Adds a block to the tips. -/
def addTip (t : ChainTree) (id : BlockId) : ChainTree := { t with tips := t.tips.insert id }

/-- Puts a validated block on top of its parent, in place. -/
def attachInPlace [Crypto] [Sums] (tip : ChainTip) : TreeM Bool := do
  let t ← get
  if t.contains tip.id then pure false
  else
    match t.find? tip.parent with
    | none => throw (.missingParent tip.id tip.parent)
    | some below =>
      if tip.height ≠ Sums.addHeights below.height 1 then
        throw (.badHeight tip.id tip.height below.height)
      else do
        modify fun t => t.addChild tip.parent tip.id
        modify fun t => t.addEntry tip.id
          { tip, cumulativeWeight := Sums.addWeights below.cumulativeWeight tip.weight }
        let replaced ← modifyGet fun t => t.takeTip tip.parent
        modify fun t => t.addTip tip.id
        pure !replaced

/-- Moves the root up to a block of the tree, in place. -/
def finalizeInPlace (order : Listing) (id : BlockId) : TreeM FinalizeReport := do
  let t ← get
  if !t.contains id then throw (.missingBlock id)
  else
    match t.path? id with
    | none => throw (.notDescendant id)
    | some path =>
      if id = t.root then pure ⟨id, [], []⟩
      else do
        let below := path.tail ++ [t.root]
        let evicted := order.list (t.branchBlocks (t.branchesOff path below))
        evicted.forM fun b => modify fun t => t.remove b
        below.forM fun b => modify fun t => t.forget b
        modify fun t => { t with root := id }
        if ((← get).children id).isEmpty then modify fun t => t.addTip id
        pure ⟨t.root, path, evicted⟩

variable {t t' : ChainTree} {id : BlockId} {e : TreeEntry} {order : Listing}

theorem addChild_eq {parent child : BlockId} (h : t.find? parent = some e) :
    t.addChild parent child =
      ⟨t.root, t.entries.insert parent { e with children := e.children.insert child }, t.tips⟩ := by
  rw [addChild, Table.modify, show t.entries.find? parent = some e from h]

/-- **The procedure that attaches a block does what `attach` does.** -/
theorem on_attachInPlace [Crypto] [Sums] (t : ChainTree) (tip : ChainTip) :
    (attachInPlace tip).on t =
      match t.attach tip with
      | .ok (forked, t') => (.ok forked, t')
      | .error e => (.error e, t) := by
  rw [attachInPlace, TreeM.on_bind, TreeM.on_get, attach]
  dsimp only
  split
  · rfl
  · cases hbelow : t.find? tip.parent with
    | none => rfl
    | some below =>
      dsimp only
      split
      · rfl
      · simp only [TreeM.on_bind, TreeM.on_modify, TreeM.on_modifyGet, TreeM.on_pure,
          addChild_eq hbelow, addEntry, takeTip, addTip, decide_not]

theorem on_finalizeInPlace_of_ne {path : List BlockId} (he : t.find? id = some e)
    (hpath : t.path? id = some path) (hne : id ≠ t.root) :
    let below := path.tail ++ [t.root]
    let evicted := order.list (t.branchBlocks (t.branchesOff path below))
    (finalizeInPlace order id).on t =
      (.ok ⟨t.root, path, evicted⟩, (t.pruneTo evicted below).rootAt id) := by
  intro below evicted
  rw [finalizeInPlace, TreeM.on_bind, TreeM.on_get]
  simp only [contains_iff.2 ⟨e, he⟩, hpath, hne, Bool.not_true, Bool.false_eq_true, if_false,
    TreeM.on_bind, TreeM.on_forM, TreeM.on_modify, TreeM.on_get, TreeM.on_ite, TreeM.on_pure]
  by_cases hempty : ((t.pruneTo evicted below).children id).isEmpty = true
  · rw [rootAt, if_pos hempty]
    exact if_pos hempty
  · rw [rootAt, if_neg hempty]
    exact if_neg hempty

theorem on_finalizeInPlace_root {path : List BlockId} (he : t.find? t.root = some e)
    (hpath : t.path? t.root = some path) :
    (finalizeInPlace order t.root).on t = (.ok ⟨t.root, [], []⟩, t) := by
  rw [finalizeInPlace, TreeM.on_bind, TreeM.on_get]
  simp only [contains_iff.2 ⟨e, he⟩, hpath, Bool.not_true, Bool.false_eq_true, if_false, if_true,
    TreeM.on_pure]

theorem on_finalizeInPlace_of_absent (h : t.find? id = none) :
    (finalizeInPlace order id).on t = (.error (.missingBlock id), t) := by
  rw [finalizeInPlace, TreeM.on_bind, TreeM.on_get]
  simp only [find?_eq_none_iff.1 h, Bool.not_false, if_true, TreeM.on_throw]

theorem on_finalizeInPlace_of_path?_eq_none (he : t.find? id = some e)
    (hpath : t.path? id = none) :
    (finalizeInPlace order id).on t = (.error (.notDescendant id), t) := by
  rw [finalizeInPlace, TreeM.on_bind, TreeM.on_get]
  simp only [contains_iff.2 ⟨e, he⟩, hpath, Bool.not_true, Bool.false_eq_true, if_false,
    TreeM.on_throw]

/-- **The procedure that moves the root does what `finalize` does**, if blocks come in the order in
which they are at hand. -/
theorem on_finalizeInPlace (t : ChainTree) (id : BlockId) :
    (finalizeInPlace .asGiven id).on t =
      match t.finalize id with
      | .ok (report, t') => (.ok report, t')
      | .error e => (.error e, t) := by
  unfold finalize
  cases he : t.find? id with
  | none =>
    rw [on_finalizeInPlace_of_absent he, find?_eq_none_iff.1 he]
    rfl
  | some e =>
    rw [contains_iff.2 ⟨e, he⟩]
    cases hpath : t.path? id with
    | none =>
      rw [on_finalizeInPlace_of_path?_eq_none he hpath]
      rfl
    | some path =>
      by_cases hid : id = t.root
      · subst hid
        rw [on_finalizeInPlace_root he hpath]
        simp
      · rw [on_finalizeInPlace_of_ne he hpath hid]
        simp only [Bool.not_true, Bool.false_eq_true, if_false, if_neg hid]
        rfl

end ChainTree

end LedgerChain
