import LedgerChain.Proofs.Tree.InPlace

/-!
# Collecting what lies above a block

The blocks above a block are collected layer by layer (`descendants`).  No block comes twice: blocks
none of which lies above another one (`Apart`) have their children apart again, so the layers do not
meet (`Apart.nodup_layersAbove`), nor do the branches off a lineage (`Apart.nodup_branchBlocks`).

A search that keeps a stack of blocks to look at, and takes the children of each as a set, finds the
same blocks, and looks at each of them once (`WellFormed.search_spec`).
-/

namespace LedgerChain

namespace ChainTree

variable [Crypto] [Sums] {t : ChainTree} {id a b : BlockId} {ids path : List BlockId} {e : TreeEntry}

/-! ### Blocks side by side -/

/-- Different blocks of the tree, none of which lies above another one. -/
structure Apart (t : ChainTree) (ids : List BlockId) : Prop where
  mem : ∀ a ∈ ids, ∃ e, t.find? a = some e
  nodup : ids.Nodup
  eq_of_above : ∀ a ∈ ids, ∀ b ∈ ids, a ∈ t.lineage b → a = b

omit [Crypto] [Sums] in
theorem apart_singleton (ha : t.find? a = some e) : t.Apart [a] where
  mem _ hb := ⟨e, List.mem_singleton.1 hb ▸ ha⟩
  nodup := List.nodup_singleton a
  eq_of_above _ hb _ hc _ := (List.mem_singleton.1 hb).trans (List.mem_singleton.1 hc).symm

theorem WellFormed.nodup_children (h : t.WellFormed) (a : BlockId) : (t.children a).Nodup := by
  unfold children
  cases ha : t.find? a with
  | none => exact List.nodup_nil
  | some e => exact h.children_nodup ha

theorem WellFormed.lineage_of_mem_children (h : t.WellFormed) (ha : t.find? a = some e)
    (hb : b ∈ t.children a) : t.lineage b = b :: t.lineage a := by
  obtain ⟨f, hf, hroot, rfl⟩ := (h.mem_children_iff ha).1 hb
  exact h.lineage_of_ne_root hf hroot

theorem WellFormed.eq_of_mem_children (h : t.WellFormed) {x : BlockId} {f : TreeEntry}
    (ha : t.find? a = some e) (hb : t.find? b = some f) (hxa : x ∈ t.children a)
    (hxb : x ∈ t.children b) : a = b := by
  obtain ⟨g, hg, -, rfl⟩ := (h.mem_children_iff ha).1 hxa
  obtain ⟨g', hg', -, rfl⟩ := (h.mem_children_iff hb).1 hxb
  rw [hg] at hg'
  cases hg'
  rfl

theorem WellFormed.nodup_flatMap_children (h : t.WellFormed) (keep : BlockId → Bool)
    (hids : ids.Nodup) (hmem : ∀ a ∈ ids, ∃ e, t.find? a = some e) :
    (ids.flatMap fun a => (t.children a).filter keep).Nodup := by
  refine List.nodup_flatMap.2 ⟨fun a _ => (h.nodup_children a).filter _,
    hids.imp_of_mem fun {a b} ha hb hne x hxa hxb => ?_⟩
  obtain ⟨e, he⟩ := hmem a ha
  obtain ⟨f, hf⟩ := hmem b hb
  exact hne (h.eq_of_mem_children he hf (List.mem_of_mem_filter hxa) (List.mem_of_mem_filter hxb))

theorem Apart.flatMap_children (hids : t.Apart ids) (h : t.WellFormed) :
    t.Apart (ids.flatMap t.children) where
  mem c hc := by
    obtain ⟨a, ha, hca⟩ := List.mem_flatMap.1 hc
    obtain ⟨e, he⟩ := hids.mem a ha
    obtain ⟨f, hf, -⟩ := (h.mem_children_iff he).1 hca
    exact ⟨f, hf⟩
  nodup := by
    simpa only [List.filter_true] using h.nodup_flatMap_children (fun _ => true) hids.nodup hids.mem
  eq_of_above c hc d hd hcd := by
    obtain ⟨a, ha, hca⟩ := List.mem_flatMap.1 hc
    obtain ⟨b, hb, hdb⟩ := List.mem_flatMap.1 hd
    obtain ⟨e, he⟩ := hids.mem a ha
    obtain ⟨f, hf⟩ := hids.mem b hb
    rw [h.lineage_of_mem_children hf hdb] at hcd
    refine (List.mem_cons.1 hcd).resolve_right fun hcb => ?_
    -- otherwise the parent of the one is the parent of the other, and above its own child
    obtain ⟨hac, hne⟩ := h.mem_lineage_of_mem_children he hca
    have hab := hids.eq_of_above a ha b hb (h.mem_lineage_trans hac hcb)
    exact hne (h.mem_lineage_antisymm hac (hab ▸ hcb))

theorem WellFormed.apart_branchesOff (h : t.WellFormed) (hpath : t.lineage id = path ++ [t.root]) :
    t.Apart (t.branchesOff path (t.lineage id).tail) where
  mem c hc := by
    obtain ⟨f, hf, -⟩ := (h.mem_branchesOff_iff hpath).1 hc
    exact ⟨f, hf⟩
  nodup := h.nodup_flatMap_children _ (h.nodup_lineage id).tail fun b hb => by
    obtain ⟨e, -, he, -⟩ := h.find?_of_mem_lineage (List.mem_of_mem_tail hb)
    exact ⟨e, he⟩
  eq_of_above c hc d hd hcd := by
    obtain ⟨-, -, -, hoff, -⟩ := (h.mem_branchesOff_iff hpath).1 hc
    obtain ⟨g, hg, hroot, -, hbelow⟩ := (h.mem_branchesOff_iff hpath).1 hd
    rw [h.lineage_of_ne_root hg hroot] at hcd
    refine (List.mem_cons.1 hcd).resolve_right fun hcp => hoff ?_
    exact h.mem_lineage_trans hcp (List.mem_of_mem_tail hbelow)

/-! ### Every block once -/

theorem Apart.nodup_layersAbove (hids : t.Apart ids) (h : t.WellFormed) (layers : Nat) :
    (t.layersAbove layers ids).Nodup := by
  induction layers generalizing ids with
  | zero => exact List.nodup_nil
  | succ layers ih =>
    have habove := hids.flatMap_children h
    rw [layersAbove]
    refine List.nodup_append.2 ⟨habove.nodup, ih habove, ?_⟩
    rintro x hx _ hy rfl
    obtain ⟨c, hc, hcx, hne⟩ := h.mem_lineage_of_mem_layersAbove habove.mem hy
    exact hne (habove.eq_of_above c hc x hx hcx)

theorem WellFormed.nodup_descendants (h : t.WellFormed) (ha : t.find? a = some e) :
    (t.descendants a).Nodup :=
  (apart_singleton ha).nodup_layersAbove h _

/-- **No block is on two branches**, and none comes twice on one. -/
theorem Apart.nodup_branchBlocks (hids : t.Apart ids) (h : t.WellFormed) :
    (t.branchBlocks ids).Nodup := by
  have habove : ∀ a ∈ ids, ∀ x ∈ t.descendants a, a ∈ t.lineage x ∧ a ≠ x := by
    intro a ha x hx
    obtain ⟨e, he⟩ := hids.mem a ha
    exact (h.mem_descendants_iff he).1 hx
  refine List.nodup_append.2 ⟨hids.nodup, List.nodup_flatMap.2 ⟨fun a ha => ?_, ?_⟩, ?_⟩
  · obtain ⟨e, he⟩ := hids.mem a ha
    exact h.nodup_descendants he
  · refine hids.nodup.imp_of_mem fun {a b} ha hb hne x hxa hxb => hne ?_
    rcases h.mem_lineage_total (habove a ha x hxa).1 (habove b hb x hxb).1 with hab | hba
    · exact hids.eq_of_above a ha b hb hab
    · exact (hids.eq_of_above b hb a ha hba).symm
  · rintro x hx _ hy rfl
    obtain ⟨a, ha, hxa⟩ := List.mem_flatMap.1 hy
    obtain ⟨hax, hne⟩ := habove a ha x hxa
    exact hne (hids.eq_of_above a ha x hx hax)

/-- What lies above a block is its children and what lies above them. -/
theorem WellFormed.descendants_perm (h : t.WellFormed) (ha : t.find? a = some e) :
    (t.descendants a).Perm (t.branchBlocks (t.children a)) := by
  have hchildren : t.Apart (t.children a) := by
    simpa using (apart_singleton ha).flatMap_children h
  rw [List.perm_ext_iff_of_nodup (h.nodup_descendants ha) (hchildren.nodup_branchBlocks h)]
  intro x
  rw [h.mem_descendants_iff ha, h.mem_branchBlocks_iff hchildren.mem]
  constructor
  · rintro ⟨hax, hne⟩
    exact h.exists_child_on_lineage hax hne
  · rintro ⟨c, hc, hcx⟩
    obtain ⟨hac, hne⟩ := h.mem_lineage_of_mem_children ha hc
    refine ⟨h.mem_lineage_trans hac hcx, ?_⟩
    rintro rfl
    exact hne (h.mem_lineage_antisymm hac hcx)

/-! ### Searching with a stack -/

/-- A search on its way: the blocks to look at, the next one first, and the blocks found. -/
structure Search where
  pending : List BlockId
  found : List BlockId

/-- A round of the search: the next block is looked at, and its children are found. -/
def searchRound (t : ChainTree) (order : Listing) (s : Search) : Search ⊕ List BlockId :=
  match s.pending with
  | [] => .inr s.found
  | id :: rest =>
    let above := order.list (t.children id)
    .inl ⟨above.reverse ++ rest, above.foldl (fun found c => found.insert c) s.found⟩

omit [Crypto] [Sums] in
theorem length_branchBlocks_cons (t : ChainTree) (a : BlockId) (rest : List BlockId) :
    (t.branchBlocks (a :: rest)).length =
      (t.descendants a).length + 1 + (t.branchBlocks rest).length := by
  simp only [branchBlocks, List.flatMap_cons, List.length_append, List.length_cons]
  omega

omit [Crypto] [Sums] in
theorem length_branchBlocks_append (t : ChainTree) (xs ys : List BlockId) :
    (t.branchBlocks (xs ++ ys)).length =
      (t.branchBlocks xs).length + (t.branchBlocks ys).length := by
  simp only [branchBlocks, List.flatMap_append, List.length_append]
  omega

omit [Crypto] [Sums] in
theorem branchBlocks_perm {xs ys : List BlockId} (h : xs.Perm ys) :
    (t.branchBlocks xs).Perm (t.branchBlocks ys) :=
  h.append (h.flatMap_right _)

omit [Crypto] [Sums] in
theorem mem_foldl_insert {x : BlockId} (found new : List BlockId) :
    x ∈ new.foldl (fun found c => found.insert c) found ↔ x ∈ found ∨ x ∈ new := by
  induction new generalizing found with
  | nil => simp
  | cons c new ih => rw [List.foldl_cons, ih, List.mem_insert_iff, List.mem_cons]; tauto

omit [Crypto] [Sums] in
theorem nodup_foldl_insert {found : List BlockId} (hfound : found.Nodup) (new : List BlockId) :
    (new.foldl (fun found c => found.insert c) found).Nodup := by
  induction new generalizing found with
  | nil => exact hfound
  | cons c new ih => exact ih hfound.insert

/-- A round looks at one block, and leaves its children and what is above them to look at. -/
theorem WellFormed.length_branchBlocks_round (h : t.WellFormed) (order : Listing)
    (ha : t.find? a = some e) (rest : List BlockId) :
    (t.branchBlocks ((order.list (t.children a)).reverse ++ rest)).length + 1 =
      (t.branchBlocks (a :: rest)).length := by
  have hperm := branchBlocks_perm (t := t)
    ((List.reverse_perm _).trans (order.perm (t.children a)))
  rw [length_branchBlocks_append, hperm.length_eq, ← (h.descendants_perm ha).length_eq,
    length_branchBlocks_cons]
  omega

/-- **A search ends when it has looked at all blocks above**, in whatever order children come. -/
theorem WellFormed.search_ends (h : t.WellFormed) (order : Listing) {s : Search}
    (hpending : ∀ a ∈ s.pending, ∃ e, t.find? a = some e) (hfound : s.found.Nodup) :
    ∃ found, EndsIn (t.searchRound order) (t.branchBlocks s.pending).length s found ∧
      found.Nodup ∧ ∀ x, x ∈ found ↔ x ∈ s.found ∨ ∃ a ∈ s.pending, x ∈ t.descendants a := by
  induction hn : (t.branchBlocks s.pending).length generalizing s with
  | zero =>
    obtain ⟨pending, found⟩ := s
    cases pending with
    | nil => exact ⟨found, .done rfl, hfound, fun x => by simp⟩
    | cons a rest => simp [branchBlocks] at hn
  | succ n ih =>
    obtain ⟨pending, found⟩ := s
    cases pending with
    | nil => simp [branchBlocks] at hn
    | cons a rest =>
      obtain ⟨e, ha⟩ := hpending a List.mem_cons_self
      have hround := h.length_branchBlocks_round order ha rest
      have habove : ∀ c, c ∈ order.list (t.children a) ↔ c ∈ t.children a :=
        fun c => (order.perm _).mem_iff
      have hnext : ∀ c ∈ (order.list (t.children a)).reverse ++ rest, ∃ f, t.find? c = some f := by
        intro c hc
        rcases List.mem_append.1 hc with hc | hc
        · obtain ⟨f, hf, -⟩ := (h.mem_children_iff ha).1 ((habove c).1 (List.mem_reverse.1 hc))
          exact ⟨f, hf⟩
        · exact hpending c (List.mem_cons_of_mem _ hc)
      obtain ⟨result, hends, hnodup, hresult⟩ :=
        ih (s := ⟨_, (order.list (t.children a)).foldl (fun found c => found.insert c) found⟩)
          hnext (nodup_foldl_insert hfound _) (by dsimp only at hn ⊢; omega)
      refine ⟨result, .next rfl hends, hnodup, fun x => ?_⟩
      -- what is above the block is its children and what is above them
      have hsplit : x ∈ t.descendants a ↔
          x ∈ t.children a ∨ ∃ c ∈ t.children a, x ∈ t.descendants c := by
        rw [(h.descendants_perm ha).mem_iff, branchBlocks, List.mem_append, List.mem_flatMap]
      rw [hresult, mem_foldl_insert, habove]
      simp only [List.mem_append, List.mem_reverse, habove, List.mem_cons, or_and_right, exists_or,
        exists_eq_left, hsplit, or_assoc]

/-- **A search from a block finds exactly what lies above it, and looks at each block once.** -/
theorem WellFormed.search_spec (h : t.WellFormed) (order : Listing) (ha : t.find? a = some e) :
    ∃ found, EndsIn (t.searchRound order) ((t.descendants a).length + 1) ⟨[a], []⟩ found ∧
      found.Perm (t.descendants a) := by
  have hpending : ∀ b ∈ [a], ∃ e, t.find? b = some e := (apart_singleton ha).mem
  obtain ⟨found, hends, hnodup, hfound⟩ :=
    h.search_ends order (s := ⟨[a], []⟩) hpending List.nodup_nil
  refine ⟨found, by simpa [branchBlocks, Nat.add_comm] using hends, ?_⟩
  rw [List.perm_ext_iff_of_nodup hnodup (h.nodup_descendants ha)]
  intro x
  rw [hfound]
  simp

end ChainTree

end LedgerChain
