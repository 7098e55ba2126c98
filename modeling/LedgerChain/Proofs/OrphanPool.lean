import LedgerChain.OrphanPool
import Mathlib.Data.List.Nodup

/-!
# The pool of orphans as a queue

The three tables of a pool of orphans always describe one list of blocks, oldest first, in which
every identifier occurs once (`OrphanPool.Holds`).  The operations of a pool are described by what
they do to this list: a new block goes to its end, as long as there is room, and the blocks that
wait for a parent are taken out in order.

Whether or not it does so, a pool holds and lets go only blocks that were handed to it
(`OrphanPool.Within`).

* `Holds.insert_eq`, `Holds.insert_of_not` : a new block goes to the end if there is room; a known
  one is not taken, nor is any if none can be kept.
* `Holds.makeRoom` : room is made by dropping as many of the oldest as have to go.
* `Holds.takeChildren` : the blocks that wait for a parent are taken out in order.
-/

namespace LedgerChain

namespace OrphanPool

variable [Crypto] {p p' : OrphanPool} {l : List Block} {b : Block} {id parent : BlockId}

/-- The pool keeps the blocks of a list, which is in the order in which they came. -/
structure Holds (p : OrphanPool) (l : List Block) : Prop where
  nodup : (l.map Block.id).Nodup
  order_eq : p.order = l.map Block.id
  parents : ∀ id parent, p.parents.find? id = some parent ↔ ∃ b ∈ l, b.id = id ∧ b.parent = parent
  files : ∀ parent, (p.byParent.find? parent).getD [] = l.filter fun b => b.parent = parent
  file_ne_nil : ∀ parent, p.byParent.find? parent ≠ some []

/-- The pool with a block filed under its parent, as the youngest one. -/
def append (p : OrphanPool) (b : Block) : OrphanPool :=
  { p with
    byParent := p.byParent.insert b.parent ((p.byParent.find? b.parent).getD [] ++ [b])
    parents := p.parents.insert b.id b.parent
    order := p.order ++ [b.id] }

theorem holds_new (capacity : Nat) : Holds { capacity } [] where
  nodup := List.nodup_nil
  order_eq := rfl
  parents _ _ := ⟨fun h => (by cases h), fun h => by obtain ⟨b, h, -⟩ := h; cases h⟩
  files _ := rfl
  file_ne_nil _ h := by cases h

namespace Holds

theorem contains_iff (h : p.Holds l) : p.contains id = true ↔ id ∈ l.map Block.id := by
  rw [OrphanPool.contains, Table.contains_iff, List.mem_map]
  constructor
  · rintro ⟨parent, hparent⟩
    obtain ⟨b, hb, hid, -⟩ := (h.parents id parent).1 hparent
    exact ⟨b, hb, hid⟩
  · rintro ⟨b, hb, hid⟩
    exact ⟨b.parent, (h.parents id b.parent).2 ⟨b, hb, hid, rfl⟩⟩

theorem size_eq (h : p.Holds l) : p.size = l.length := by
  have hperm : p.parents.keys.Perm (l.map Block.id) := by
    refine (List.perm_ext_iff_of_nodup p.parents.nodup h.nodup).2 fun id => ?_
    rw [← Table.keys, Table.mem_keys_iff]
    exact h.contains_iff
  have hlen := hperm.length_eq
  rw [Table.keys, List.length_map, List.length_map] at hlen
  exact hlen

theorem makeRoom_of_lt (h : p.size < p.capacity) : p.makeRoom p.order = p := by
  obtain ⟨capacity, byParent, parents, order⟩ := p
  cases order with
  | nil => rfl
  | cons id rest => rw [makeRoom, if_pos h]

theorem insert_eq (h : p.Holds l) (hnew : b.id ∉ l.map Block.id) (hroom : l.length < p.capacity) :
    p.insert b = (true, p.append b) := by
  have hcontains : p.contains b.id = false := by
    rw [← Bool.not_eq_true, h.contains_iff]
    exact hnew
  have hcapacity : p.capacity ≠ 0 := by omega
  have hmake := makeRoom_of_lt (p := p) (h.size_eq ▸ hroom)
  simp only [OrphanPool.insert, hcontains, hcapacity, decide_false, Bool.or_self,
    Bool.false_eq_true, if_false, hmake]
  rfl

theorem append (h : p.Holds l) (hnew : b.id ∉ l.map Block.id) : (p.append b).Holds (l ++ [b]) where
  nodup := by
    rw [List.map_append, List.map_cons, List.map_nil, List.nodup_append]
    refine ⟨h.nodup, List.nodup_singleton _, ?_⟩
    rintro id hid _ hb rfl
    rw [List.mem_singleton] at hb
    exact hnew (hb ▸ hid)
  order_eq := by
    rw [OrphanPool.append, h.order_eq, List.map_append]
    rfl
  parents id parent := by
    rw [OrphanPool.append, Table.find?_insert]
    split
    · rename_i hid
      subst hid
      constructor
      · intro hparent
        cases hparent
        exact ⟨b, List.mem_append_right _ List.mem_cons_self, rfl, rfl⟩
      · rintro ⟨c, hc, hid, rfl⟩
        rcases List.mem_append.1 hc with hc | hc
        · exact absurd (List.mem_map.2 ⟨c, hc, hid⟩) hnew
        · rw [List.mem_singleton.1 hc]
    · rename_i hid
      rw [h.parents]
      constructor
      · rintro ⟨c, hc, hcid, hparent⟩
        exact ⟨c, List.mem_append_left _ hc, hcid, hparent⟩
      · rintro ⟨c, hc, hcid, hparent⟩
        rcases List.mem_append.1 hc with hc | hc
        · exact ⟨c, hc, hcid, hparent⟩
        · rw [List.mem_singleton.1 hc] at hcid
          exact absurd hcid.symm hid
  files parent := by
    rw [OrphanPool.append, Table.find?_insert, List.filter_append]
    split
    · rename_i hparent
      subst hparent
      rw [Option.getD_some, h.files]
      simp
    · rename_i hparent
      rw [h.files]
      simp [Ne.symm hparent]
  file_ne_nil parent := by
    rw [OrphanPool.append, Table.find?_insert]
    split
    · simp
    · exact h.file_ne_nil parent

theorem find?_foldl_erase (t : Table BlockId BlockId) (bs : List Block) (id : BlockId) :
    (bs.foldl (fun t b => t.erase b.id) t).find? id =
      if id ∈ bs.map Block.id then none else t.find? id := by
  induction bs generalizing t with
  | nil => simp
  | cons b rest ih =>
    rw [List.foldl_cons, ih, Table.find?_erase]
    by_cases hrest : id ∈ rest.map Block.id
    · simp [hrest]
    · by_cases hid : id = b.id <;> simp [hrest, hid]

theorem mem_waiting_iff (h : p.Holds l) (hb : b ∈ l) :
    b.id ∈ (l.filter fun c => c.parent = parent).map Block.id ↔ b.parent = parent := by
  rw [List.mem_map]
  constructor
  · rintro ⟨c, hc, hid⟩
    obtain ⟨hc, hparent⟩ := List.mem_filter.1 hc
    rw [← List.inj_on_of_nodup_map h.nodup hc hb hid]
    exact of_decide_eq_true hparent
  · intro hparent
    exact ⟨b, List.mem_filter.2 ⟨hb, decide_eq_true hparent⟩, rfl⟩

/-- The parents that are on record when the blocks that wait for one of them are struck off. -/
theorem find?_parents_erase (h : p.Holds l) (parent id a : BlockId) :
    ((l.filter fun b => b.parent = parent).foldl (fun t b => t.erase b.id) p.parents).find? id =
        some a ↔
      ∃ b ∈ l.filter (fun b => b.parent ≠ parent), b.id = id ∧ b.parent = a := by
  rw [find?_foldl_erase]
  constructor
  · intro ha
    split at ha
    · cases ha
    · rename_i hid
      obtain ⟨c, hc, rfl, hca⟩ := (h.parents id a).1 ha
      refine ⟨c, List.mem_filter.2 ⟨hc, decide_eq_true fun hparent => ?_⟩, rfl, hca⟩
      exact hid ((h.mem_waiting_iff hc).2 hparent)
  · rintro ⟨c, hc, rfl, hca⟩
    obtain ⟨hc, hparent⟩ := List.mem_filter.1 hc
    rw [if_neg fun hid => of_decide_eq_true hparent ((h.mem_waiting_iff hc).1 hid)]
    exact (h.parents c.id a).2 ⟨c, hc, rfl, hca⟩

theorem holds_takeChildren (h : p.Holds l) (parent : BlockId) :
    (p.takeChildren parent).2.Holds (l.filter fun b => b.parent ≠ parent) where
  nodup := h.nodup.sublist (List.filter_sublist.map _)
  order_eq := by
    show p.order.filter _ = _
    rw [h.order_eq, List.filter_map]
    refine congrArg _ (List.filter_congr fun c hc => ?_)
    rw [h.files, Bool.eq_iff_iff, Function.comp_apply, Table.contains_iff]
    simp only [h.find?_parents_erase, decide_eq_true_eq, List.mem_filter]
    constructor
    · rintro ⟨a, d, ⟨hd, hparent⟩, hid, -⟩
      rw [← List.inj_on_of_nodup_map h.nodup hd hc hid]
      exact hparent
    · intro hparent
      exact ⟨c.parent, c, ⟨hc, hparent⟩, rfl, rfl⟩
  parents id a := by
    show (List.foldl _ p.parents _).find? id = _ ↔ _
    rw [h.files]
    exact h.find?_parents_erase parent id a
  files a := by
    show ((p.byParent.erase parent).find? a).getD [] = _
    rw [Table.find?_erase, List.filter_filter]
    split
    · rename_i ha
      subst ha
      rw [Option.getD_none, eq_comm, List.filter_eq_nil_iff]
      intro c _
      simp
    · rename_i ha
      rw [h.files]
      refine List.filter_congr fun c _ => ?_
      by_cases hca : c.parent = a <;> simp [hca, ha]
  file_ne_nil a := by
    show (p.byParent.erase parent).find? a ≠ some []
    rw [Table.find?_erase]
    split
    · intro hnone
      cases hnone
    · exact h.file_ne_nil a

theorem takeChildren (h : p.Holds l) (parent : BlockId) :
    (p.takeChildren parent).1 = l.filter (fun b => b.parent = parent) ∧
      (p.takeChildren parent).2.capacity = p.capacity ∧
      (p.takeChildren parent).2.Holds (l.filter fun b => b.parent ≠ parent) :=
  ⟨h.files parent, rfl, h.holds_takeChildren parent⟩

end Holds

/-! ### Dropping the oldest blocks -/

/-- The blocks of a pool, oldest first. -/
def blocks (p : OrphanPool) : List Block :=
  p.order.filterMap fun id =>
    (p.parents.find? id).bind fun parent =>
      ((p.byParent.find? parent).getD []).find? fun b => b.id = id

theorem getD_find?_unfile (t : Table BlockId (List Block)) (parent id q : BlockId) :
    ((unfile t parent id).find? q).getD [] =
      if q = parent then ((t.find? parent).getD []).filter (fun b => b.id ≠ id)
      else (t.find? q).getD [] := by
  rw [unfile]
  cases hfile : t.find? parent with
  | none =>
    simp only
    split
    · rename_i hq
      rw [hq, hfile]
      rfl
    · rfl
  | some file =>
    simp only [Option.getD_some]
    split
    · rename_i hempty
      rw [Table.find?_erase, List.isEmpty_iff.1 hempty]
      split <;> rfl
    · rw [Table.find?_insert]
      split <;> rfl

theorem find?_unfile_ne_nil {t : Table BlockId (List Block)} (parent id : BlockId)
    (h : ∀ q, t.find? q ≠ some []) (q : BlockId) : (unfile t parent id).find? q ≠ some [] := by
  rw [unfile]
  cases hfile : t.find? parent with
  | none => exact h q
  | some file =>
    simp only
    -- an emptied file is taken out, any other is written back
    split
    · rw [Table.find?_erase]
      split
      · intro hnone
        cases hnone
      · exact h q
    · rename_i hkept
      rw [Table.find?_insert]
      split
      · intro heq
        rw [Option.some.inj heq] at hkept
        exact hkept rfl
      · exact h q

namespace Holds

theorem blocks_eq (h : p.Holds l) : p.blocks = l := by
  have hfind : ∀ b ∈ l, ((p.parents.find? b.id).bind fun parent =>
      ((p.byParent.find? parent).getD []).find? fun c => c.id = b.id) = some b := by
    intro b hb
    rw [(h.parents b.id b.parent).2 ⟨b, hb, rfl, rfl⟩, Option.bind_some, h.files]
    cases hfound : (l.filter fun c => c.parent = b.parent).find? fun c => c.id = b.id with
    | none =>
      refine absurd (List.find?_eq_none.1 hfound b ?_) (by simp)
      exact List.mem_filter.2 ⟨hb, decide_eq_true rfl⟩
    | some c =>
      have hid : c.id = b.id := by simpa using List.find?_some hfound
      have hc := (List.mem_filter.1 (List.mem_of_find?_eq_some hfound)).1
      rw [List.inj_on_of_nodup_map h.nodup hc hb hid]
  rw [blocks, h.order_eq, List.filterMap_map]
  refine (List.filterMap_congr fun b hb => ?_).trans List.filterMap_some
  exact hfind b hb

theorem tail (h : p.Holds (b :: l)) :
    Holds { p with
      parents := p.parents.erase b.id
      byParent := unfile p.byParent b.parent b.id
      order := l.map Block.id } l where
  nodup := (List.nodup_cons.1 h.nodup).2
  order_eq := rfl
  parents id a := by
    have hnot : b.id ∉ l.map Block.id := (List.nodup_cons.1 h.nodup).1
    simp only [Table.find?_erase]
    split
    · rename_i hid
      subst hid
      refine ⟨fun hnone => (by cases hnone), ?_⟩
      rintro ⟨c, hc, hid, -⟩
      exact absurd (hid ▸ List.mem_map_of_mem hc) hnot
    · rename_i hid
      rw [h.parents]
      constructor
      · rintro ⟨c, hc, hcid, hca⟩
        rcases List.mem_cons.1 hc with rfl | hc
        · exact absurd hcid.symm hid
        · exact ⟨c, hc, hcid, hca⟩
      · rintro ⟨c, hc, hcid, hca⟩
        exact ⟨c, List.mem_cons_of_mem _ hc, hcid, hca⟩
  files a := by
    have hnot : b.id ∉ l.map Block.id := (List.nodup_cons.1 h.nodup).1
    have hrest : ∀ c ∈ l, c.id ≠ b.id := fun c hc hid => hnot (hid ▸ List.mem_map_of_mem hc)
    simp only [getD_find?_unfile, h.files]
    split
    · rename_i ha
      subst ha
      rw [List.filter_cons_of_pos (by simp), List.filter_cons_of_neg (by simp),
        List.filter_eq_self]
      intro c hc
      exact decide_eq_true (hrest c (List.mem_filter.1 hc).1)
    · rename_i ha
      rw [List.filter_cons_of_neg (by simpa using Ne.symm ha)]
  file_ne_nil a := find?_unfile_ne_nil b.parent b.id h.file_ne_nil a

/-- Room for one more is made by dropping as many of the oldest as have to go. -/
theorem makeRoom {queue : List BlockId} (h : Holds { p with order := queue } l) :
    (p.makeRoom queue).Holds (l.drop (l.length + 1 - p.capacity)) ∧
      (p.makeRoom queue).capacity = p.capacity := by
  induction queue generalizing p l with
  | nil =>
    have hl : l = [] := List.map_eq_nil_iff.1 h.order_eq.symm
    subst hl
    rw [List.drop_nil]
    exact ⟨h, rfl⟩
  | cons id rest ih =>
    have hsize : p.size = l.length := h.size_eq
    rw [OrphanPool.makeRoom]
    split
    · rename_i hroom
      have hzero : l.length + 1 - p.capacity = 0 := by omega
      rw [hzero]
      exact ⟨h, rfl⟩
    · rename_i hfull
      cases l with
      | nil => cases h.order_eq
      | cons b l =>
        obtain ⟨rfl, rfl⟩ := List.cons.inj h.order_eq
        have hfound : p.parents.find? b.id = some b.parent :=
          (h.parents b.id b.parent).2 ⟨b, List.mem_cons_self, rfl, rfl⟩
        have hcount : (b :: l).length + 1 - p.capacity = l.length + 1 - p.capacity + 1 := by
          rw [List.length_cons] at hsize ⊢
          omega
        rw [hcount, List.drop_succ_cons]
        simp only [hfound]
        exact ih h.tail

/-- **A new block goes to the end, and as many of the oldest blocks go as there is no room for.** -/
theorem insert (h : p.Holds l) (hcapacity : p.capacity ≠ 0) (hnew : b.id ∉ l.map Block.id) :
    (p.insert b).1 = true ∧ (p.insert b).2.capacity = p.capacity ∧
      (p.insert b).2.Holds (l.drop (l.length + 1 - p.capacity) ++ [b]) := by
  have hcontains : p.contains b.id = false := by
    rw [← Bool.not_eq_true, h.contains_iff]
    exact hnew
  have hinsert : p.insert b = (true, (p.makeRoom p.order).append b) := by
    simp only [OrphanPool.insert, hcontains, hcapacity, decide_false, Bool.or_self,
      Bool.false_eq_true, if_false]
    rfl
  obtain ⟨hroom, hsame⟩ := makeRoom (p := p) h
  rw [hinsert]
  refine ⟨rfl, hsame, hroom.append fun hmem => hnew ?_⟩
  exact (List.drop_sublist _ _).map _ |>.subset hmem

/-- A block under a known identifier is not taken, nor is any block if none can be kept. -/
theorem insert_of_not (h : p.Holds l) (hnot : p.capacity = 0 ∨ b.id ∈ l.map Block.id) :
    p.insert b = (false, p) := by
  have hcond : (decide (p.capacity = 0) || p.contains b.id) = true := by
    rw [Bool.or_eq_true, decide_eq_true_iff, h.contains_iff]
    exact hnot
  simp only [OrphanPool.insert, hcond, if_true]

end Holds

/-! ### Where the blocks come from -/

/-- All blocks of a pool are among the given ones. -/
def Within (p : OrphanPool) (bs : List Block) : Prop :=
  ∀ parent file, p.byParent.find? parent = some file → file ⊆ bs

variable {bs : List Block}

omit [Crypto] in
theorem within_new (capacity : Nat) (bs : List Block) : Within { capacity } bs := by
  intro parent file hfile
  cases hfile

theorem find?_unfile {byParent : Table BlockId (List Block)} {q : BlockId} {file : List Block}
    (h : (unfile byParent parent id).find? q = some file) :
    ∃ old, byParent.find? q = some old ∧ file ⊆ old := by
  rw [unfile] at h
  split at h
  · exact ⟨file, h, List.Subset.refl _⟩
  · rename_i old hold
    simp only at h
    split at h
    · rw [Table.find?_erase] at h
      split at h
      · cases h
      · exact ⟨file, h, List.Subset.refl _⟩
    · rw [Table.find?_insert] at h
      split at h
      · rename_i hq
        cases h
        exact ⟨old, hq ▸ hold, List.filter_subset_self _⟩
      · exact ⟨file, h, List.Subset.refl _⟩

theorem Within.makeRoom (h : p.Within bs) (queue : List BlockId) :
    (p.makeRoom queue).Within bs := by
  induction queue generalizing p with
  | nil => exact h
  | cons id rest ih =>
    rw [OrphanPool.makeRoom]
    split
    · exact h
    · split
      · exact ih h
      · refine ih fun q file hfile => ?_
        obtain ⟨old, hold, hsub⟩ := find?_unfile hfile
        exact List.Subset.trans hsub (h q old hold)

theorem Within.insert (h : p.Within bs) (hb : b ∈ bs) : (p.insert b).2.Within bs := by
  simp only [OrphanPool.insert]
  split
  · exact h
  · intro q file hfile
    have hroom := h.makeRoom p.order
    rw [Table.find?_insert] at hfile
    split at hfile
    · cases hfile
      refine List.append_subset.2 ⟨?_, List.cons_subset.2 ⟨hb, List.nil_subset _⟩⟩
      cases hold : (p.makeRoom p.order).byParent.find? b.parent with
      | none => exact List.nil_subset _
      | some old => exact hroom _ old hold
    · exact hroom q file hfile

theorem Within.takeChildren (h : p.Within bs) (parent : BlockId) :
    (p.takeChildren parent).1 ⊆ bs ∧ (p.takeChildren parent).2.Within bs := by
  refine ⟨?_, fun q file hfile => ?_⟩
  · show (p.byParent.find? parent).getD [] ⊆ bs
    cases hold : p.byParent.find? parent with
    | none => exact List.nil_subset _
    | some old => exact h _ old hold
  · rw [show (p.takeChildren parent).2.byParent = p.byParent.erase parent from rfl,
      Table.find?_erase] at hfile
    split at hfile
    · cases hfile
    · exact h q file hfile

end OrphanPool

end LedgerChain
