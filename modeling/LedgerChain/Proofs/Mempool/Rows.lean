import LedgerChain.Proofs.Mempool
import Mathlib.Data.List.Nodup
import Mathlib.Data.List.Perm.Basic

/-!
# The rows of a pool

The table and the queue of a pool always describe one list of **rows**, each of them an extrinsic at
its slot, in the order of the slots (`Mempool.Lists`).  No slot is given out twice: fresh extrinsics
are numbered upwards and returned ones downwards, so that the numbers in use lie between the two
counters.

* `Lists.takeIn` : a new row goes to the place of its slot.
* `Lists.prune`, `Lists.pull_eq` : rows are taken out by their identifiers, or from the front.
* `Lists.fresh_split`, `Lists.returned_split` : where the next fresh and the next returned slot are,
  told by priorities alone.
-/

namespace LedgerChain

/-! ### The order of slots -/

namespace Slot

variable {a b c : Slot}

theorem before_iff : a.before b = true ↔
    b.priority.toNat < a.priority.toNat ∨
      a.priority.toNat = b.priority.toNat ∧ a.number < b.number := by
  simp [before, UInt64.lt_iff_toNat_lt, UInt64.toNat_inj]

theorem before_irrefl (a : Slot) : a.before a = false := by
  rw [← Bool.not_eq_true, before_iff]
  omega

theorem before_trans (h : a.before b = true) (h' : b.before c = true) : a.before c = true := by
  rw [before_iff] at *
  omega

theorem before_asymm (h : a.before b = true) : b.before a = false := by
  rw [← Bool.not_eq_true]
  intro h'
  have hself := before_trans h h'
  rw [before_irrefl] at hself
  exact Bool.false_ne_true hself

theorem ne_of_before (h : a.before b = true) : a ≠ b := by
  rintro rfl
  rw [before_irrefl] at h
  exact Bool.false_ne_true h

theorem before_or_before (hne : a ≠ b) : a.before b = true ∨ b.before a = true := by
  have hparts : a.priority.toNat = b.priority.toNat → a.number ≠ b.number := by
    intro hpriority hnumber
    cases a
    cases b
    simp_all [UInt64.toNat_inj]
  simp only [before_iff]
  omega

theorem before_iff_of_lt (h : a.number < b.number) :
    (a.before b = true ↔ b.priority ≤ a.priority) ∧ (b.before a = true ↔ a.priority < b.priority) := by
  simp only [before_iff, UInt64.le_iff_toNat_le, UInt64.lt_iff_toNat_lt]
  omega

end Slot

namespace Mempool

variable {p p' : Mempool} {id : ExtrinsicId} {x : Extrinsic} {slot : Slot}

/-- A pending extrinsic at its slot. -/
abbrev Row := Slot × Extrinsic

variable {r : Row} {rows early late : List Row}

/-- Rows in the order of their slots. -/
def Ordered (rows : List Row) : Prop := rows.Pairwise fun a b => a.1.before b.1 = true

theorem Ordered.nodup_slots (h : Ordered rows) : (rows.map Prod.fst).Nodup :=
  List.pairwise_map.2 (h.imp Slot.ne_of_before)

theorem Ordered.exists_split (h : Ordered rows) (hslot : ∀ r ∈ rows, r.1 ≠ slot) :
    ∃ early late, rows = early ++ late ∧ (∀ r ∈ early, r.1.before slot = true) ∧
      ∀ r ∈ late, slot.before r.1 = true := by
  induction rows with
  | nil => exact ⟨[], [], rfl, by simp, by simp⟩
  | cons r rest ih =>
    obtain ⟨hall, hrest⟩ := List.pairwise_cons.1 h
    obtain ⟨hr, hslot⟩ := List.forall_mem_cons.1 hslot
    rcases Slot.before_or_before hr with hbefore | hafter
    · obtain ⟨early, late, rfl, hearly, hlate⟩ := ih hrest hslot
      exact ⟨r :: early, late, rfl, List.forall_mem_cons.2 ⟨hbefore, hearly⟩, hlate⟩
    · refine ⟨[], r :: rest, rfl, by simp, List.forall_mem_cons.2 ⟨hafter, ?_⟩⟩
      intro q hq
      exact Slot.before_trans hafter (hall q hq)

theorem Ordered.insert (h : Ordered (early ++ late)) (hearly : ∀ q ∈ early, q.1.before r.1 = true)
    (hlate : ∀ q ∈ late, r.1.before q.1 = true) : Ordered (early ++ r :: late) := by
  obtain ⟨h₁, h₂, h₃⟩ := List.pairwise_append.1 h
  refine List.pairwise_append.2 ⟨h₁, List.pairwise_cons.2 ⟨hlate, h₂⟩, ?_⟩
  intro a ha b hb
  rcases List.mem_cons.1 hb with rfl | hb
  · exact hearly a ha
  · exact h₃ a ha b hb

theorem enqueue_append {early late : List (Slot × ExtrinsicId)}
    (hearly : ∀ q ∈ early, q.1.before slot = true) (hlate : ∀ q ∈ late, slot.before q.1 = true) :
    enqueue slot id (early ++ late) = early ++ (slot, id) :: late := by
  induction early with
  | nil =>
    cases late with
    | nil => rfl
    | cons q rest =>
      rw [List.nil_append, enqueue, if_pos (hlate q List.mem_cons_self)]
      rfl
  | cons q rest ih =>
    obtain ⟨hq, hrest⟩ := List.forall_mem_cons.1 hearly
    rw [List.cons_append, enqueue, Slot.before_asymm hq, if_neg Bool.false_ne_true,
      if_neg (Ne.symm (Slot.ne_of_before hq)), ih hrest]
    rfl

/-! ### What a pool lists -/

variable [Crypto]

/-- The table's row for a row. -/
def keyed (r : Row) : ExtrinsicId × Row := (r.2.id, r)

/-- The queue's row for a row. -/
def queued (r : Row) : Slot × ExtrinsicId := (r.1, r.2.id)

/-- The pool keeps the rows of a list, which is in the order of their slots. -/
structure Lists (p : Mempool) (rows : List Row) : Prop where
  queue_eq : p.queue = rows.map queued
  entries : p.entries.toList.Perm (rows.map keyed)
  ordered : Ordered rows
  priority_eq : ∀ r ∈ rows, r.1.priority = r.2.priority
  numbered : ∀ r ∈ rows, p.nextReturned < r.1.number ∧ r.1.number < p.nextNumber
  counters : p.nextReturned < p.nextNumber

theorem lists_empty (config : MempoolConfig) : Lists { config } [] where
  queue_eq := rfl
  entries := .refl _
  ordered := .nil
  priority_eq := by simp
  numbered := by simp
  counters := by
    show (-1 : Int) < 0
    decide

namespace Lists

theorem pending_eq (h : p.Lists rows) : p.pending = rows.map fun r => r.2.id := by
  simp only [pending, h.queue_eq, List.map_map]
  rfl

theorem size_eq (h : p.Lists rows) : p.size = rows.length := by
  simpa [size, Table.size] using h.entries.length_eq

theorem nodup (h : p.Lists rows) : (rows.map fun r => r.2.id).Nodup := by
  have hkeys := (h.entries.map Prod.fst).nodup_iff.1 p.entries.nodup
  simpa [keyed, Function.comp_def] using hkeys

theorem eq_of_id (h : p.Lists rows) {q : Row} (hr : r ∈ rows) (hq : q ∈ rows)
    (hid : r.2.id = q.2.id) : r = q :=
  List.inj_on_of_nodup_map h.nodup hr hq hid

theorem find?_eq_some_iff (h : p.Lists rows) :
    p.entries.find? id = some r ↔ r ∈ rows ∧ r.2.id = id := by
  rw [Table.find?_eq_some_iff, h.entries.mem_iff, List.mem_map]
  constructor
  · rintro ⟨q, hq, heq⟩
    obtain ⟨rfl, rfl⟩ := Prod.mk.inj heq
    exact ⟨hq, rfl⟩
  · rintro ⟨hr, rfl⟩
    exact ⟨r, hr, rfl⟩

theorem contains_iff (h : p.Lists rows) :
    p.contains id = true ↔ id ∈ rows.map fun r => r.2.id := by
  rw [contains, Table.contains_iff, List.mem_map]
  exact exists_congr fun r => h.find?_eq_some_iff

/-! ### Taking in -/

/-- **A new row goes to the place of its slot.**  The counters move on so that they still enclose all
numbers. -/
theorem takeIn (h : p.Lists (early ++ late)) (hnew : p.contains x.id = false)
    (hearly : ∀ r ∈ early, r.1.before slot = true) (hlate : ∀ r ∈ late, slot.before r.1 = true)
    (hqueue : p'.queue = enqueue slot x.id p.queue)
    (hentries : p'.entries = p.entries.insert x.id (slot, x))
    (hpriority : slot.priority = x.priority) (hlow : p'.nextReturned ≤ p.nextReturned)
    (hhigh : p.nextNumber ≤ p'.nextNumber)
    (hnumber : p'.nextReturned < slot.number ∧ slot.number < p'.nextNumber) :
    p'.Lists (early ++ (slot, x) :: late) where
  queue_eq := by
    rw [hqueue, h.queue_eq, List.map_append, enqueue_append, List.map_append, List.map_cons]
    · rfl
    · exact List.forall_mem_map.2 hearly
    · exact List.forall_mem_map.2 hlate
  entries := by
    have hnone : p.entries.find? x.id = none := by
      simpa [contains, Table.contains] using hnew
    rw [hentries, Table.toList_insert_of_not_mem hnone]
    refine (List.perm_append_singleton _ _).trans ((h.entries.cons _).trans ?_)
    rw [List.map_append, List.map_append, List.map_cons]
    exact List.perm_middle.symm
  ordered := h.ordered.insert hearly hlate
  priority_eq r hr := by
    rcases List.mem_append.1 hr with hr | hr
    · exact h.priority_eq r (List.mem_append_left _ hr)
    · rcases List.mem_cons.1 hr with rfl | hr
      · exact hpriority
      · exact h.priority_eq r (List.mem_append_right _ hr)
  numbered r hr := by
    have hold : ∀ q ∈ early ++ late,
        p'.nextReturned < q.1.number ∧ q.1.number < p'.nextNumber := by
      intro q hq
      have := h.numbered q hq
      omega
    rcases List.mem_append.1 hr with hr | hr
    · exact hold r (List.mem_append_left _ hr)
    · rcases List.mem_cons.1 hr with rfl | hr
      · exact hnumber
      · exact hold r (List.mem_append_right _ hr)
  counters := by
    have := h.counters
    omega

theorem exists_split (h : p.Lists rows) {high low : Row → Prop}
    (hplace : ∀ r ∈ rows, r.1 ≠ slot ∧ (r.1.before slot = true → high r) ∧
      (slot.before r.1 = true → low r)) :
    ∃ early late, rows = early ++ late ∧ (∀ r ∈ early, r.1.before slot = true ∧ high r) ∧
      ∀ r ∈ late, slot.before r.1 = true ∧ low r := by
  obtain ⟨early, late, rfl, hearly, hlate⟩ :=
    h.ordered.exists_split fun r hr => (hplace r hr).1
  refine ⟨early, late, rfl, fun r hr => ⟨hearly r hr, ?_⟩, fun r hr => ⟨hlate r hr, ?_⟩⟩
  · exact (hplace r (List.mem_append_left late hr)).2.1 (hearly r hr)
  · exact (hplace r (List.mem_append_right early hr)).2.2 (hlate r hr)

/-- The next fresh slot of a priority comes after all rows of at least that priority. -/
theorem fresh_split (h : p.Lists rows) (priority : UInt64) :
    ∃ early late, rows = early ++ late ∧
      (∀ r ∈ early, r.1.before ⟨priority, p.nextNumber⟩ = true ∧ priority ≤ r.2.priority) ∧
      ∀ r ∈ late, Slot.before ⟨priority, p.nextNumber⟩ r.1 = true ∧ r.2.priority < priority := by
  refine h.exists_split fun r hr => ?_
  have hlt := (h.numbered r hr).2
  rw [← h.priority_eq r hr]
  obtain ⟨hbefore, hafter⟩ := Slot.before_iff_of_lt (b := ⟨priority, p.nextNumber⟩) hlt
  exact ⟨fun heq => Int.ne_of_lt hlt (congrArg Slot.number heq), hbefore.1, hafter.1⟩

/-- The next returned slot of a priority comes before all rows of at most that priority. -/
theorem returned_split (h : p.Lists rows) (priority : UInt64) :
    ∃ early late, rows = early ++ late ∧
      (∀ r ∈ early, r.1.before ⟨priority, p.nextReturned⟩ = true ∧ priority < r.2.priority) ∧
      ∀ r ∈ late, Slot.before ⟨priority, p.nextReturned⟩ r.1 = true ∧ r.2.priority ≤ priority := by
  refine h.exists_split fun r hr => ?_
  have hlt := (h.numbered r hr).1
  rw [← h.priority_eq r hr]
  obtain ⟨hbefore, hafter⟩ := Slot.before_iff_of_lt (a := ⟨priority, p.nextReturned⟩) hlt
  exact ⟨fun heq => Int.ne_of_gt hlt (congrArg Slot.number heq), hafter.1, hbefore.1⟩

/-! ### Taking out -/

theorem erase (h : p.Lists rows) (id : ExtrinsicId) :
    (p.erase id).Lists (rows.filter fun r => r.2.id ≠ id) := by
  rw [Mempool.erase]
  split
  · rename_i hnone
    have hself : rows.filter (fun r => r.2.id ≠ id) = rows := by
      refine List.filter_eq_self.2 fun r hr => decide_eq_true fun hid => ?_
      rw [h.find?_eq_some_iff.2 ⟨hr, hid⟩] at hnone
      exact Option.some_ne_none r hnone
    rwa [hself]
  · rename_i slot y hfind
    obtain ⟨hr, hid⟩ := h.find?_eq_some_iff.1 hfind
    refine ⟨?_, ?_, h.ordered.sublist List.filter_sublist, fun r hr => ?_, fun r hr => ?_,
      h.counters⟩
    · -- slots are as distinct as identifiers
      have hslot : ∀ q ∈ rows, decide (q.1 ≠ slot) = decide (q.2.id ≠ id) := by
        intro q hq
        refine decide_eq_decide.2 (not_congr ⟨fun heq => ?_, fun heq => ?_⟩)
        · rw [List.inj_on_of_nodup_map h.ordered.nodup_slots hq hr heq]
          exact hid
        · rw [h.eq_of_id hq hr (heq.trans hid.symm)]
      simp only [h.queue_eq, List.filter_map]
      exact congrArg _ (List.filter_congr hslot)
    · have hkeys := h.entries.filter fun q => decide (q.1 ≠ id)
      rw [List.filter_map] at hkeys
      exact hkeys
    · exact h.priority_eq r (List.mem_of_mem_filter hr)
    · exact h.numbered r (List.mem_of_mem_filter hr)

/-- **Pruning takes out the rows with the given identifiers**, and no others. -/
theorem prune (h : p.Lists rows) (ids : List ExtrinsicId) :
    (p.prune ids).Lists (rows.filter fun r => r.2.id ∉ ids) := by
  induction ids generalizing p rows with
  | nil => simpa [Mempool.prune] using h
  | cons id ids ih =>
    have hrest := ih (h.erase id)
    rw [List.filter_filter] at hrest
    simpa [Mempool.prune, Bool.and_comm] using hrest

theorem prune_front (h : p.Lists (early ++ late)) :
    (p.prune (early.map fun r => r.2.id)).Lists late := by
  have hprune := h.prune (early.map fun r => r.2.id)
  have hnodup := h.nodup
  rw [List.map_append, List.nodup_append] at hnodup
  have hearly : early.filter (fun r => r.2.id ∉ early.map fun r => r.2.id) = [] := by
    refine List.filter_eq_nil_iff.2 fun r hr => ?_
    simp only [decide_eq_true_eq, not_not]
    exact List.mem_map.2 ⟨r, hr, rfl⟩
  have hlate : late.filter (fun r => r.2.id ∉ early.map fun r => r.2.id) = late := by
    refine List.filter_eq_self.2 fun r hr => decide_eq_true fun hmem => ?_
    exact hnodup.2.2 _ hmem _ (List.mem_map.2 ⟨r, hr, rfl⟩) rfl
  rwa [List.filter_append, hearly, hlate, List.nil_append] at hprune

/-- **The first rows are handed out**, and the others stay. -/
theorem pull_eq (h : p.Lists rows) (max : Nat) :
    (p.pull max).1 = (rows.take max).map Prod.snd ∧ (p.pull max).2.Lists (rows.drop max) := by
  have hids : p.pending.take max = (rows.take max).map fun r => r.2.id := by
    rw [h.pending_eq, List.map_take]
  constructor
  · show (p.pending.take max).filterMap _ = _
    rw [hids, List.filterMap_map, ← List.filterMap_eq_map]
    refine List.filterMap_congr fun r hr => ?_
    rw [Function.comp_apply, h.find?_eq_some_iff.2 ⟨List.mem_of_mem_take hr, rfl⟩]
    rfl
  · show (p.prune (p.pending.take max)).Lists _
    rw [hids]
    rw [← List.take_append_drop max rows] at h
    exact h.prune_front

end Lists

end Mempool

end LedgerChain
