import LedgerChain.Proofs.ForkChoice.Best
import LedgerChain.Proofs.Tree.Blocks
import LedgerChain.Proofs.Tree.Reorg

/-!
# What fork choice does with a block

A fork choice is well formed if its tree is, every block above the root adds to the weight, and the
canonical tip is a block of the tree.  A move between two blocks of a well-formed tree always has a
way, so considering a block can fail only before anything changed.

* `WellFormed.follow_spec` : after following, the canonical tip is the best tip.
* `WellFormed.consider_cases` : all that considering a block can do.
* `WellFormed.consider_extended_iff` : which blocks extend the chain.
* `Rooted.rollback_eq`, `Rooted.advanceRoot_spec` : a rollback restores the canonical tip,
  and moving the root up keeps it, and keeps it the best if it was.
-/

namespace LedgerChain

/-! ### Blocks that fit a tree -/

namespace ChainTree

variable [Crypto]

/-- A block is new to the tree and lies right above one of its blocks. -/
structure Fits (t : ChainTree) (tip : ChainTip) (below : TreeEntry) : Prop where
  fresh : t.find? tip.id = none
  on_tree : t.find? tip.parent = some below
  height_eq : tip.height = below.height + 1

end ChainTree

namespace ForkChoice

variable [Crypto] {f f' : ForkChoice} {t : ChainTree} {id : BlockId} {e below : TreeEntry}
  {tip : ChainTip}

omit [Crypto] in
theorem collect_eq {ids : List BlockId} (h : ∀ id ∈ ids, ∃ e, t.find? id = some e) :
    collect t ids = .ok (t.blocks ids) := by
  induction ids with
  | nil => rfl
  | cons id rest ih =>
    obtain ⟨e, he⟩ := h id List.mem_cons_self
    have hrest := ih fun x hx => h x (List.mem_cons_of_mem _ hx)
    rw [ChainTree.blocks_cons he]
    simp only [collect, he, hrest]

/-- What is told of a move along a way of the tree. -/
def moved (t : ChainTree) (attached : BlockId) (way : Reorg) : Outcome :=
  if way.down = [] ∧ way.up = [attached] then .extended
  else .switched (t.blocks way.down) (t.blocks way.up)

omit [Crypto] in
theorem changedCanonical_moved (t : ChainTree) (attached : BlockId) (way : Reorg) :
    (moved t attached way).changedCanonical = true := by
  unfold moved
  split <;> rfl

omit [Crypto] in
@[simp] theorem tree_setBest (f : ForkChoice) (id : BlockId) : (f.setBest id).tree = f.tree := rfl

omit [Crypto] in
@[simp] theorem best_setBest (f : ForkChoice) (id : BlockId) : (f.setBest id).best = id := rfl

omit [Crypto] in
theorem tree_ofTree (depth : Nat) (t : ChainTree) : (ofTree depth t).tree = t := by
  simp only [ofTree]
  cases bestTip? t <;> rfl

omit [Crypto] in
theorem finalityDepth_ofTree (depth : Nat) (t : ChainTree) :
    (ofTree depth t).finalityDepth = depth := by
  simp only [ofTree]
  cases bestTip? t <;> rfl

theorem leads_child {way : Reorg} (hway : t.Leads way id tip.id)
    (hline : t.lineage tip.id = tip.id :: t.lineage id) :
    way.down = [] ∧ way.up = [tip.id] := by
  have hdown : way.down = [] := by
    refine List.eq_nil_iff_forall_not_mem.2 fun x hx => hway.apart x hx ?_
    rw [hline]
    exact List.mem_cons_of_mem _ (hway.mem_of_mem_down hx)
  have hdest := hway.lineage_dest
  rw [hline, hway.lineage_start, hdown, List.nil_append, ← List.singleton_append] at hdest
  have hup := congrArg List.reverse (List.append_cancel_right hdest)
  rw [List.reverse_reverse] at hup
  exact ⟨hdown, hup.symm⟩

/-! ### Fork choices over well-formed trees -/

section Rooted

variable [Sums]

theorem outcomeOf_eq_moved {a b : BlockId} {way : Reorg} (ht : t.WellFormed)
    (hway : t.Leads way a b) (attached : BlockId) :
    outcomeOf t attached way = .ok (moved t attached way) := by
  unfold outcomeOf moved
  split
  · rfl
  · rw [collect_eq fun x hx => ht.find?_of_mem_lineage_left (hway.mem_of_mem_down hx),
      collect_eq fun x hx => ht.find?_of_mem_lineage_left (hway.mem_of_mem_up hx)]

/-- A fork choice over a well-formed tree with a canonical tip in it, whatever the blocks weigh. -/
structure Rooted (f : ForkChoice) : Prop where
  tree : f.tree.WellFormed
  best : ∃ e, f.tree.find? f.best = some e ∧ e.height = f.bestHeight

theorem Rooted.setBest (h : f.Rooted) (he : f.tree.find? id = some e) :
    (f.setBest id).Rooted where
  tree := h.tree
  best := ⟨e, he, by simp only [ForkChoice.setBest, he, Option.map_some, Option.getD_some]⟩

theorem Rooted.graft (h : f.Rooted) (hfits : f.tree.Fits tip below) :
    Rooted { f with tree := f.tree.graft tip below } where
  tree := h.tree.graft hfits.fresh hfits.on_tree hfits.height_eq
  best := by
    obtain ⟨e, he, hh⟩ := h.best
    obtain ⟨e', he', htip, -⟩ := ChainTree.find?_graft_of_find? hfits.fresh hfits.on_tree he
    exact ⟨e', he', by rw [← hh, TreeEntry.height, TreeEntry.height, htip]⟩

theorem rooted_ofTree (depth : Nat) (h : t.WellFormed) :
    (ofTree depth t).Rooted ∧ bestTip? t = some (ofTree depth t).best := by
  obtain ⟨id, e, hid, -, he, -⟩ := h.bestTip?_spec
  have heq : ofTree depth t = (⟨depth, t, t.root, t.rootHeight⟩ : ForkChoice).setBest id := by
    simp only [ofTree, hid]
  rw [heq]
  refine ⟨⟨h, e, he, ?_⟩, hid⟩
  simp only [ForkChoice.setBest, he, Option.map_some, Option.getD_some]

/-- Following stays if the canonical tip is the best tip already, and otherwise moves there along a
way of the tree. -/
theorem Rooted.follow_cases (h : f.Rooted) (attached : BlockId) :
    ∃ id e, bestTip? f.tree = some id ∧ id ∈ f.tree.tips ∧ f.tree.find? id = some e ∧
      ((id = f.best ∧ f.follow attached = (.ok (.ignored .notBetter), f)) ∨
        (id ≠ f.best ∧ ∃ way, f.tree.Leads way f.best id ∧
          f.follow attached = (.ok (moved f.tree attached way), f.setBest id))) := by
  obtain ⟨id, e', hid, htip, he', -⟩ := h.tree.bestTip?_spec
  refine ⟨id, e', hid, htip, he', ?_⟩
  unfold follow
  rw [hid]
  by_cases heq : id = f.best
  · exact Or.inl ⟨heq, by simp only [if_pos heq]⟩
  · obtain ⟨e, he, -⟩ := h.best
    obtain ⟨way, hway, hleads⟩ := h.tree.exists_reorg he he'
    exact Or.inr ⟨heq, way, hleads, by
      simp only [if_neg heq, hway, outcomeOf_eq_moved h.tree hleads]⟩

theorem consider_eq_follow (hnew : f.tree.find? tip.id = none)
    (hbelow : f.tree.find? tip.parent = some below)
    (hheight : tip.height = Sums.addHeights below.height 1) :
    f.consider tip = follow { f with tree := f.tree.graft tip below } tip.id := by
  obtain ⟨forked, hattach⟩ := ChainTree.attach_eq_graft hnew hbelow hheight
  have hnot := ChainTree.find?_eq_none_iff.1 hnew
  have hin : f.tree.contains tip.parent = true := ChainTree.contains_iff.2 ⟨below, hbelow⟩
  simp [consider, hnot, hin, hattach]

theorem consider_of_contains (h : f.tree.contains tip.id = true) :
    f.consider tip = (.ok (.ignored .alreadyKnown), f) := by
  rw [consider, if_pos h]

/-- **A block is turned down, or attached and the best tip followed**, whatever it weighs. -/
theorem consider_attached_or (hfit : ¬ f.tree.Overflows tip) :
    ((∀ below, ¬ f.tree.Fits tip below) ∧ ∃ answer, f.consider tip = (answer, f) ∧
      ((f.tree.contains tip.id = true ∧ answer = .ok (.ignored .alreadyKnown)) ∨
        (f.tree.find? tip.parent = none ∧ answer = .ok (.ignored .stale)) ∨
        ∃ e, answer = .error (.tree e))) ∨
    ∃ below, f.tree.Fits tip below ∧
      f.consider tip = follow { f with tree := f.tree.graft tip below } tip.id := by
  by_cases hknown : f.tree.contains tip.id = true
  · refine Or.inl ⟨fun below hfits => ?_, _, consider_of_contains hknown, Or.inl ⟨hknown, rfl⟩⟩
    rw [ChainTree.find?_eq_none_iff.1 hfits.fresh] at hknown
    cases hknown
  have hnot := Bool.eq_false_iff.2 hknown
  have hnew := ChainTree.find?_eq_none_iff.2 hnot
  cases hbelow : f.tree.find? tip.parent with
  | none =>
    left
    have hout := ChainTree.find?_eq_none_iff.1 hbelow
    refine ⟨fun below hfits => ?_, ?_⟩
    · rw [hfits.on_tree] at hbelow
      cases hbelow
    · by_cases hlow : tip.height ≤ Sums.addHeights f.tree.rootHeight 1
      · exact ⟨_, by simp [consider, hnot, hout, hlow], Or.inr (Or.inl ⟨rfl, rfl⟩)⟩
      · exact ⟨_, by simp [consider, hnot, hout, hlow]; rfl, Or.inr (Or.inr ⟨_, rfl⟩)⟩
  | some below =>
    by_cases hheight : tip.height = below.height + 1
    -- the only case in which the tree changes
    · exact Or.inr ⟨below, ⟨hnew, hbelow, hheight⟩,
        consider_eq_follow hnew hbelow (ChainTree.eq_addHeights_one hheight)⟩
    · left
      refine ⟨fun below' hfits => ?_,
        .error (.tree (.badHeight tip.id tip.height below.height)), ?_, Or.inr (Or.inr ⟨_, rfl⟩)⟩
      · have heq := hfits.on_tree
        rw [hbelow] at heq
        cases heq
        exact hheight hfits.height_eq
      · have hin : f.tree.contains tip.parent = true := ChainTree.contains_iff.2 ⟨below, hbelow⟩
        have hsum : tip.height ≠ Sums.addHeights below.height 1 := fun heq =>
          hfit ⟨hnew, below, hbelow, heq, hheight⟩
        simp [consider, ChainTree.attach, hnot, hin, hbelow, hsum]

theorem Rooted.rollback_eq (h : f.Rooted) (id : BlockId) :
    (f.setBest id).rollback f.best = .ok f := by
  obtain ⟨e, he, hh⟩ := h.best
  have hin : (f.setBest id).tree.contains f.best = true := ChainTree.contains_iff.2 ⟨e, he⟩
  rw [rollback, if_pos hin]
  simp only [ForkChoice.setBest, he, Option.map_some, Option.getD_some, hh]

/-- Moving the root up fails, which changes nothing, or cuts the tree back to the part above a block
on the lineage of the canonical tip. -/
theorem Rooted.advanceRoot_cases (h : f.Rooted) :
    (∃ e, f.advanceRoot = .error e) ∨
      ∃ report t', f.advanceRoot = .ok (report, { f with tree := t' }) ∧
        t'.root ∈ f.tree.lineage f.best ∧ f.tree.IsUpperPart t'.root t' := by
  obtain ⟨e, he, -⟩ := h.best
  unfold advanceRoot
  split
  · exact Or.inr ⟨none, f.tree, rfl, h.tree.root_mem_lineage he, h.tree.isUpperPart_root⟩
  · cases htarget : f.tree.ancestorAt? f.best (Sums.subHeights f.bestHeight f.finalityDepth) with
    | none => exact Or.inl ⟨_, rfl⟩
    | some target =>
      have hmem : target ∈ f.tree.lineage f.best := List.mem_of_find?_eq_some htarget
      obtain ⟨g, -, hg, -⟩ := h.tree.find?_of_mem_lineage hmem
      obtain ⟨report, t', hfin, hpart⟩ := h.tree.finalize_spec hg
      refine Or.inr ⟨some report, t', by simp only [hfin], ?_, ?_⟩
      · rw [hpart.root]
        exact hmem
      · rw [hpart.root]
        exact hpart

theorem Rooted.cutBack (h : f.Rooted) (hmem : t.root ∈ f.tree.lineage f.best)
    (hpart : f.tree.IsUpperPart t.root t) : Rooted { f with tree := t } where
  tree := by
    obtain ⟨g, -, hg, -⟩ := h.tree.find?_of_mem_lineage hmem
    exact hpart.wellFormed h.tree hg
  best := by
    obtain ⟨e, he, hh⟩ := h.best
    exact ⟨e, (hpart.find?_eq hmem).trans he, hh⟩

end Rooted

/-! ### Well-formed fork choices -/

/-- A fork choice over a well-formed tree with a canonical tip. -/
structure WellFormed (f : ForkChoice) : Prop where
  tree : f.tree.WellFormed
  weighted : f.tree.Weighted
  best : ∃ e, f.tree.find? f.best = some e ∧ e.height = f.bestHeight

/-- The canonical tip with its weight, as blocks are compared. -/
def rank (f : ForkChoice) : BlockId × Nat := (f.best, f.bestWeight)

omit [Crypto] in
theorem rank_eq (h : f.tree.find? f.best = some e) : f.rank = (f.best, e.cumulativeWeight) := by
  rw [rank, bestWeight, h, Option.map_some, Option.getD_some]

theorem WellFormed.rooted (h : f.WellFormed) : f.Rooted := ⟨h.tree, h.best⟩

theorem WellFormed.setBest (h : f.WellFormed) (he : f.tree.find? id = some e) :
    (f.setBest id).WellFormed :=
  ⟨h.tree, h.weighted, (h.rooted.setBest he).best⟩

theorem WellFormed.graft (h : f.WellFormed) (hfits : f.tree.Fits tip below)
    (hpos : 1 ≤ tip.weight) : WellFormed { f with tree := f.tree.graft tip below } :=
  ⟨(h.rooted.graft hfits).tree, h.weighted.graft hfits.on_tree hpos, (h.rooted.graft hfits).best⟩

theorem WellFormed.rank_graft (h : f.WellFormed) (hfits : f.tree.Fits tip below) :
    rank { f with tree := f.tree.graft tip below } = f.rank := by
  obtain ⟨e, he, -⟩ := h.best
  obtain ⟨e', he', -, hcw, -⟩ := ChainTree.find?_graft_of_find? hfits.fresh hfits.on_tree he
  rw [rank_eq he, rank_eq (f := { f with tree := f.tree.graft tip below }) he', hcw]

theorem wellFormed_ofTree (depth : Nat) (h : t.WellFormed) (hw : t.Weighted) :
    (ofTree depth t).WellFormed ∧ t.IsBest (ofTree depth t).best := by
  obtain ⟨hroot, hid⟩ := rooted_ofTree depth h
  refine ⟨⟨hroot.tree, ?_, hroot.best⟩, (h.bestTip?_eq_some_iff hw).1 hid⟩
  rw [tree_ofTree]
  exact hw

/-! ### Considering a block -/

/-- **Following moves the canonical tip to the best tip**, unless it is there already. -/
theorem WellFormed.follow_spec (h : f.WellFormed) (attached : BlockId) :
    ∃ id, f.tree.IsBest id ∧
      ((id = f.best ∧ f.follow attached = (.ok (.ignored .notBetter), f)) ∨
        (id ≠ f.best ∧ ∃ outcome, outcome.changedCanonical = true ∧
          f.follow attached = (.ok outcome, f.setBest id))) := by
  obtain ⟨id, e, hid, -, -, hfollow⟩ := h.rooted.follow_cases attached
  refine ⟨id, (h.tree.bestTip?_eq_some_iff h.weighted).1 hid, hfollow.imp_right ?_⟩
  rintro ⟨hne, way, -, heq⟩
  exact ⟨hne, _, changedCanonical_moved _ _ _, heq⟩

/-- **All that considering a block can do**: nothing, with a block that is known or does not fit the
tree; attach the block and stay, as the canonical tip is still the best; or attach the block and
move to the best tip, which is another one. -/
theorem WellFormed.consider_cases (h : f.WellFormed) (hpos : 1 ≤ tip.weight) :
    ((∀ below, ¬ f.tree.Fits tip below) ∧ ∃ answer, f.consider tip = (answer, f) ∧
      ((f.tree.contains tip.id = true ∧ answer = .ok (.ignored .alreadyKnown)) ∨
        (f.tree.find? tip.parent = none ∧ answer = .ok (.ignored .stale)) ∨
        ∃ e, answer = .error e)) ∨
    ∃ below id, f.tree.Fits tip below ∧ (f.tree.graft tip below).IsBest id ∧
      ((id = f.best ∧
          f.consider tip = (.ok (.ignored .notBetter), { f with tree := f.tree.graft tip below })) ∨
        (id ≠ f.best ∧ ∃ outcome, outcome.changedCanonical = true ∧
          f.consider tip =
            (.ok outcome, ForkChoice.setBest { f with tree := f.tree.graft tip below } id))) := by
  rcases consider_attached_or (ChainTree.not_overflows f.tree tip) with
    ⟨hnot, answer, hcons, hanswer⟩ | ⟨below, hfits, hcons⟩
  · refine Or.inl ⟨hnot, answer, hcons, hanswer.imp_right (Or.imp_right ?_)⟩
    rintro ⟨e, he⟩
    exact ⟨_, he⟩
  · obtain ⟨id, hbest, hfollow⟩ := (h.graft hfits hpos).follow_spec tip.id
    rw [← hcons] at hfollow
    exact Or.inr ⟨below, id, hfits, hbest, hfollow⟩

/-- **A block extends the chain** if and only if it lies on the canonical tip and is the best tip
itself. -/
theorem WellFormed.consider_extended_iff (h : f.WellFormed) (hpos : 1 ≤ tip.weight) :
    (f.consider tip).1 = .ok .extended ↔
      ∃ below, f.tree.Fits tip below ∧ tip.parent = f.best ∧
        (f.tree.graft tip below).IsBest tip.id := by
  obtain ⟨b, hb, -⟩ := h.best
  constructor
  · intro hextended
    rcases consider_attached_or (ChainTree.not_overflows f.tree tip) with
      ⟨-, answer, hcons, hanswer⟩ | ⟨below, hfits, hcons⟩ <;> rw [hcons] at hextended
    · rcases hanswer with ⟨-, rfl⟩ | ⟨-, rfl⟩ | ⟨e, rfl⟩ <;> cases hextended
    have hg := h.graft hfits hpos
    have hline : (f.tree.graft tip below).lineage tip.id = tip.id :: f.tree.lineage tip.parent :=
      h.tree.lineage_graft_self hfits.fresh hfits.on_tree hfits.height_eq
    have hkeep : (f.tree.graft tip below).lineage f.best = f.tree.lineage f.best :=
      h.tree.lineage_graft hfits.fresh hfits.on_tree hb
    obtain ⟨id, e, hid, -, he, ⟨-, hfollow⟩ | ⟨-, way, hway, hfollow⟩⟩ :=
      hg.rooted.follow_cases tip.id <;> rw [hfollow] at hextended
    · cases hextended
    have hmoved := Except.ok.inj hextended
    unfold moved at hmoved
    split at hmoved
    · rename_i hone
      -- the way goes from the canonical tip up to the new block
      have hdest := hway.lineage_dest
      have hstart := hway.lineage_start
      rw [hone.2, List.reverse_singleton, List.singleton_append, hg.tree.lineage_eq_cons he] at hdest
      obtain ⟨rfl, -⟩ := List.cons.inj hdest
      rw [← hg.tree.lineage_eq_cons he, hline] at hdest
      rw [hone.1, List.nil_append, hkeep, ← (List.cons.inj hdest).2, h.tree.lineage_eq_cons hb,
        h.tree.lineage_eq_cons hfits.on_tree] at hstart
      exact ⟨below, hfits, (List.cons.inj hstart).1.symm,
        (hg.tree.bestTip?_eq_some_iff hg.weighted).1 hid⟩
    · cases hmoved
  · rintro ⟨below, hfits, hparent, hbest⟩
    have hg := h.graft hfits hpos
    obtain ⟨id, e, hid, -, he, hfollow⟩ := hg.rooted.follow_cases tip.id
    have heq : id = tip.id :=
      ((hg.tree.bestTip?_eq_some_iff hg.weighted).1 hid).unique hg.tree hbest
    subst heq
    have hline : (f.tree.graft tip below).lineage tip.id =
        tip.id :: (f.tree.graft tip below).lineage f.best := by
      rw [h.tree.lineage_graft_self hfits.fresh hfits.on_tree hfits.height_eq, hparent,
        h.tree.lineage_graft hfits.fresh hfits.on_tree hb]
    rw [consider_eq_follow hfits.fresh hfits.on_tree hfits.height_eq]
    rcases hfollow with ⟨hsame, -⟩ | ⟨-, way, hway, hfollow⟩
    · have hfresh := hfits.fresh
      rw [hsame, hb] at hfresh
      cases hfresh
    · rw [hfollow]
      exact congrArg Except.ok (if_pos (leads_child hway hline))

theorem WellFormed.consider_child (h : f.WellFormed) (hpos : 1 ≤ tip.weight)
    (hbest : f.tree.IsBest f.best) (hfits : f.tree.Fits tip below) (hparent : tip.parent = f.best) :
    (f.consider tip).1 = .ok .extended := by
  have hbelow := hfits.on_tree
  rw [hparent] at hbelow
  have hg := h.graft hfits hpos
  refine (h.consider_extended_iff hpos).2 ⟨below, hfits, hparent,
    hg.tree.isBest_of_beats hg.weighted (ChainTree.find?_graft_self _ _ below) fun b g hb hne => ?_⟩
  obtain ⟨hsame, -⟩ | ⟨e, -, he, -, hweight, -⟩ :=
    ChainTree.find?_of_find?_graft hfits.on_tree hb
  · exact absurd hsame hne
  -- the old tip is at least as heavy as any other block
  have hle : g.cumulativeWeight ≤ below.cumulativeWeight := by
    rw [hweight]
    by_cases hb : b = f.best
    · rw [hb, hbelow] at he
      cases he
      exact Nat.le_refl _
    · rcases beats_iff.1 (hbest.beats hbelow he hb) with hlt | ⟨heq, -⟩
      · exact Nat.le_of_lt hlt
      · exact Nat.le_of_eq heq.symm
  exact beats_iff.2 (Or.inl (Nat.lt_of_le_of_lt hle (Nat.lt_add_of_pos_right hpos)))

/-! ### Finalizing -/

omit [Crypto] in
theorem advanceRoot_of_le (h : f.bestHeight ≤ f.tree.rootHeight + f.finalityDepth) :
    f.advanceRoot = .ok (none, f) := by
  exact if_pos h

/-- **Moving the root up succeeds**: the tree is cut back to the part above a block on the lineage
of the canonical tip, and nothing else changes.  The new root is as far below the canonical tip as
blocks become final there, unless the old root is higher; then the tree stays whole. -/
theorem Rooted.advanceRoot_spec (h : f.Rooted) :
    ∃ report t', f.advanceRoot = .ok (report, { f with tree := t' }) ∧
      t'.root ∈ f.tree.lineage f.best ∧ f.tree.IsUpperPart t'.root t' ∧
      (f.bestHeight ≤ f.tree.rootHeight + f.finalityDepth → t' = f.tree) ∧
      t'.rootHeight = max f.tree.rootHeight (f.bestHeight - f.finalityDepth) := by
  obtain ⟨e, he, hh⟩ := h.best
  by_cases hlow : f.bestHeight ≤ f.tree.rootHeight + f.finalityDepth
  · exact ⟨none, f.tree, advanceRoot_of_le hlow, h.tree.root_mem_lineage he,
      h.tree.isUpperPart_root, fun _ => rfl, by omega⟩
  · obtain ⟨r, hr⟩ := h.tree.root_mem
    have hroot := ChainTree.rootHeight_eq hr
    have hlow' : r.height ≤ f.bestHeight - f.finalityDepth := by omega
    -- the new root is on the lineage of the canonical tip, so finalizing it keeps the tip
    obtain ⟨target, g, htarget, hmem, hg, hheight⟩ :=
      h.tree.ancestorAt?_spec hr he hlow' (by omega)
    obtain ⟨report, t', hfin, hpart⟩ := h.tree.finalize_spec hg
    refine ⟨some report, t', ?_, by rw [hpart.root]; exact hmem, by rw [hpart.root]; exact hpart,
      fun hle => absurd hle hlow, ?_⟩
    · have hlow' : ¬ f.bestHeight ≤ Sums.addHeights f.tree.rootHeight f.finalityDepth := hlow
      simp only [advanceRoot, if_neg hlow', Sums.subHeights_unbounded, htarget, hfin]
    · have hroot' : t'.find? t'.root = some g := by
        rw [hpart.root]
        exact (hpart.find?_eq (h.tree.self_mem_lineage hg)).trans hg
      rw [ChainTree.rootHeight_eq hroot', hheight]
      omega

theorem WellFormed.cutBack (h : f.WellFormed) (hmem : t.root ∈ f.tree.lineage f.best)
    (hpart : f.tree.IsUpperPart t.root t) : WellFormed { f with tree := t } :=
  ⟨(h.rooted.cutBack hmem hpart).tree, hpart.weighted h.tree h.weighted,
    (h.rooted.cutBack hmem hpart).best⟩

omit [Crypto] in
theorem rank_cutBack (hmem : t.root ∈ f.tree.lineage f.best)
    (hpart : f.tree.IsUpperPart t.root t) : rank { f with tree := t } = f.rank := by
  simp only [rank, bestWeight, hpart.find?_eq hmem]

end ForkChoice

end LedgerChain
