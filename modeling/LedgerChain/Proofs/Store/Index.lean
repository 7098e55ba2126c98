import LedgerChain.Store
import Mathlib.Data.List.Nodup

/-!
# The tables of a store

Stored blocks stay stored, with their states, whatever else is written (`find?_record`).  The index
by height lists exactly the stored blocks of each height, each of them once, and has no empty rows
(`Store.Indexed`); every write keeps it so.
-/

namespace LedgerChain

namespace Store

variable [Crypto] {s s' : Store} {block : Block} {state : State} {sb : StoredBlock} {id : BlockId}
  {p : Pointer} {height : Nat}

/-! ### Single writes -/

omit [Crypto] in
theorem read_eq_ok_iff {α : Type} {a b : α} :
    s.read a = .ok b ↔ s.faults.reads = false ∧ a = b := by
  rw [read]
  cases s.faults.reads <;> simp

theorem put_eq_ok_iff :
    s.put block state = .ok s' ↔ s.faults.blockWrites = false ∧ s' = s.addBlock block state := by
  unfold put
  split
  · rename_i h
    exact ⟨fun h' => (by cases h'), fun h' => absurd h (by simp [h'.1])⟩
  · rename_i h
    exact ⟨fun h' => ⟨by simpa using h, (Except.ok.inj h').symm⟩, fun h' => by rw [h'.2]⟩

omit [Crypto] in
theorem setPointer_eq_ok_iff :
    s.setPointer p id = .ok s' ↔
      s.pointerFault p = false ∧ s.blocks.contains id = true ∧ s' = s.point p id := by
  unfold setPointer
  cases hfault : s.pointerFault p <;> cases hin : s.blocks.contains id <;> simp [eq_comm]

omit [Crypto] in
@[simp] theorem blocks_point (s : Store) (p : Pointer) (id : BlockId) :
    (s.point p id).blocks = s.blocks := by
  cases p <;> rfl

omit [Crypto] in
@[simp] theorem levels_point (s : Store) (p : Pointer) (id : BlockId) :
    (s.point p id).levels = s.levels := by
  cases p <;> rfl

omit [Crypto] in
@[simp] theorem faults_point (s : Store) (p : Pointer) (id : BlockId) :
    (s.point p id).faults = s.faults := by
  cases p <;> rfl

omit [Crypto] in
@[simp] theorem journal_point (s : Store) (p : Pointer) (id : BlockId) :
    (s.point p id).journal = .pointer p id :: s.journal := by
  cases p <;> rfl

theorem addBlock_of_contains (h : s.blocks.contains block.id = true) :
    s.addBlock block state = { s with journal := .block block state :: s.journal } := by
  rw [addBlock, if_pos h]

theorem addBlock_of_not_contains (h : s.blocks.contains block.id = false) :
    s.addBlock block state =
      { s with
        blocks := s.blocks.insert block.id ⟨block, state⟩
        levels := s.levels.insert block.height (s.level block.height ++ [block.id])
        journal := .block block state :: s.journal } := by
  rw [addBlock, if_neg (by simp [h])]

@[simp] theorem finalized_addBlock (s : Store) (block : Block) (state : State) :
    (s.addBlock block state).finalized = s.finalized := by
  cases h : s.blocks.contains block.id
  · rw [addBlock_of_not_contains h]
  · rw [addBlock_of_contains h]

@[simp] theorem canonical_addBlock (s : Store) (block : Block) (state : State) :
    (s.addBlock block state).canonical = s.canonical := by
  cases h : s.blocks.contains block.id
  · rw [addBlock_of_not_contains h]
  · rw [addBlock_of_contains h]

@[simp] theorem journal_addBlock (s : Store) (block : Block) (state : State) :
    (s.addBlock block state).journal = .block block state :: s.journal := by
  cases h : s.blocks.contains block.id
  · rw [addBlock_of_not_contains h]
  · rw [addBlock_of_contains h]

@[simp] theorem faults_addBlock (s : Store) (block : Block) (state : State) :
    (s.addBlock block state).faults = s.faults := by
  cases h : s.blocks.contains block.id
  · rw [addBlock_of_not_contains h]
  · rw [addBlock_of_contains h]

theorem faults_put (h : s.put block state = .ok s') : s'.faults = s.faults := by
  rw [(put_eq_ok_iff.1 h).2, faults_addBlock]

theorem find?_addBlock (s : Store) (block : Block) (state : State) (id : BlockId) :
    (s.addBlock block state).blocks.find? id =
      if s.blocks.find? block.id = none ∧ id = block.id then some ⟨block, state⟩
      else s.blocks.find? id := by
  cases h : s.blocks.contains block.id with
  | false =>
    have hnone : s.blocks.find? block.id = none := by
      rw [Table.contains, Option.isSome_eq_false_iff, Option.isNone_iff_eq_none] at h
      exact h
    rw [addBlock_of_not_contains h, Table.find?_insert]
    simp only [hnone, true_and]
  | true =>
    obtain ⟨sb, hsb⟩ := Table.contains_iff.1 h
    rw [addBlock_of_contains h, if_neg (by simp [hsb])]

theorem find?_addBlock_self (s : Store) (block : Block) (state : State) :
    ∃ sb, (s.addBlock block state).blocks.find? block.id = some sb := by
  rw [find?_addBlock]
  cases h : s.blocks.find? block.id with
  | none => exact ⟨_, if_pos ⟨rfl, rfl⟩⟩
  | some sb => exact ⟨sb, if_neg (by simp)⟩

theorem find?_record (h : s.blocks.find? id = some sb) (write : StoreWrite) :
    (s.record write).blocks.find? id = some sb := by
  cases write with
  | pointer p a => rw [record, blocks_point, h]
  | block block state =>
    rw [record, find?_addBlock, if_neg, h]
    rintro ⟨hnone, rfl⟩
    rw [hnone] at h
    cases h

/-! ### The index -/

/-- A store whose index agrees with its blocks. -/
structure Indexed (s : Store) : Prop where
  /-- Every block is kept under its own identifier. -/
  id_eq : ∀ {id sb}, s.blocks.find? id = some sb → sb.block.id = id
  mem_level : ∀ {height id},
    id ∈ s.level height ↔ ∃ sb, s.blocks.find? id = some sb ∧ sb.block.height = height
  nodup_level : ∀ height, (s.level height).Nodup
  row_ne_nil : ∀ height, s.levels.find? height ≠ some []

theorem indexed_empty : Indexed {} where
  id_eq h := by cases h
  mem_level := ⟨fun h => (by cases h), fun h => by obtain ⟨sb, h, -⟩ := h; cases h⟩
  nodup_level _ := List.nodup_nil
  row_ne_nil _ h := by cases h

theorem level_addBlock (h : s.blocks.contains block.id = false) (height : Nat) :
    (s.addBlock block state).level height =
      if height = block.height then s.level height ++ [block.id] else s.level height := by
  rw [addBlock_of_not_contains h, level, Table.find?_insert]
  split
  · rename_i heq
    rw [heq, Option.getD_some]
  · rfl

theorem Indexed.addBlock (h : s.Indexed) (block : Block) (state : State) :
    (s.addBlock block state).Indexed := by
  cases hin : s.blocks.contains block.id with
  | true =>
    rw [addBlock_of_contains hin]
    exact ⟨h.id_eq, h.mem_level, h.nodup_level, h.row_ne_nil⟩
  | false =>
    have hnone : s.blocks.find? block.id = none := by
      rw [Table.contains, Option.isSome_eq_false_iff, Option.isNone_iff_eq_none] at hin
      exact hin
    refine ⟨fun {id sb} hsb => ?_, fun {height id} => ?_, fun height => ?_, fun height => ?_⟩
    · rw [find?_addBlock] at hsb
      split at hsb
      · rename_i heq
        cases hsb
        exact heq.2.symm
      · exact h.id_eq hsb
    · rw [level_addBlock hin, find?_addBlock]
      by_cases hid : id = block.id
      -- the new block is the last one of its level, and of no other
      · subst hid
        rw [if_pos (And.intro hnone rfl)]
        by_cases hheight : height = block.height
        · subst hheight
          rw [if_pos rfl, List.mem_append]
          exact ⟨fun _ => ⟨_, rfl, rfl⟩, fun _ => Or.inr (List.mem_singleton_self _)⟩
        · rw [if_neg hheight]
          constructor
          · intro hmem
            obtain ⟨sb, hsb, -⟩ := h.mem_level.1 hmem
            rw [hnone] at hsb
            cases hsb
          · rintro ⟨sb, hsb, hh⟩
            cases hsb
            exact absurd hh.symm hheight
      -- other blocks are where they were
      · rw [if_neg (fun hc : _ ∧ id = block.id => hid hc.2), ← h.mem_level]
        by_cases hheight : height = block.height
        · rw [if_pos hheight, List.mem_append, List.mem_singleton, or_iff_left hid]
        · rw [if_neg hheight]
    · rw [level_addBlock hin]
      split
      · rw [← List.concat_eq_append]
        refine List.Nodup.concat ?_ (h.nodup_level height)
        intro hmem
        obtain ⟨sb, hsb, -⟩ := h.mem_level.1 hmem
        rw [hnone] at hsb
        cases hsb
      · exact h.nodup_level height
    · rw [addBlock_of_not_contains hin, Table.find?_insert]
      split
      · simp
      · exact h.row_ne_nil height

theorem Indexed.record (h : s.Indexed) (write : StoreWrite) : (s.record write).Indexed := by
  cases write with
  | block block state => exact h.addBlock block state
  | pointer p id =>
    refine ⟨fun {id sb} hsb => ?_, fun {height id} => ?_, fun height => ?_, fun height => ?_⟩
    · rw [Store.record, blocks_point] at hsb
      exact h.id_eq hsb
    · rw [Store.record, blocks_point, level, levels_point]
      exact h.mem_level
    · rw [Store.record, level, levels_point]
      exact h.nodup_level height
    · rw [Store.record, levels_point]
      exact h.row_ne_nil height

end Store

end LedgerChain
