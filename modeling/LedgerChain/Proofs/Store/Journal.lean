import LedgerChain.Proofs.Store.Index
import Mathlib.Logic.Relation

/-!
# The journal of a store

Up to its faults, a store is what the writes in its journal make of the empty store
(`Store.Journaled`).  So whatever holds of the stores that lists of writes make, for every list with
some property, holds of the store at any moment of its life, and of what a crash leaves of it.

A **later** store comes from an earlier one by further writes (`Store.Later`); it still has all that
was stored.
-/

namespace LedgerChain

namespace Store

variable [Crypto] {s s' : Store} {write : StoreWrite} {w w' : List StoreWrite} {id : BlockId}
  {sb : StoredBlock}

/-- The store comes from the writes in its journal. -/
def Journaled (s : Store) : Prop := s = { ofJournal s.journal with faults := s.faults }

theorem Journaled.blocks_eq (h : s.Journaled) : s.blocks = (ofJournal s.journal).blocks :=
  (congrArg Store.blocks h :)

theorem Journaled.finalized_eq (h : s.Journaled) :
    s.finalized = (ofJournal s.journal).finalized :=
  (congrArg Store.finalized h :)

@[simp] theorem journal_record (s : Store) (write : StoreWrite) :
    (s.record write).journal = write :: s.journal := by
  cases write with
  | block block state => exact journal_addBlock s block state
  | pointer p id => exact journal_point s p id

theorem record_withFaults (s : Store) (write : StoreWrite) (faults : Faults) :
    ({ s with faults } : Store).record write = { s.record write with faults } := by
  cases write with
  | block block state =>
    cases h : s.blocks.contains block.id
    · rw [record, record, addBlock_of_not_contains h, addBlock_of_not_contains (by exact h)]
      rfl
    · rw [record, record, addBlock_of_contains h, addBlock_of_contains (by exact h)]
  | pointer p id => cases p <;> rfl

theorem journal_ofJournal (w : List StoreWrite) : (ofJournal w).journal = w := by
  induction w with
  | nil => rfl
  | cons write w ih => rw [ofJournal, journal_record, ih]

theorem faults_ofJournal (w : List StoreWrite) : (ofJournal w).faults = {} := by
  induction w with
  | nil => rfl
  | cons write w ih =>
    rw [ofJournal]
    cases write with
    | block block state => rw [record, faults_addBlock, ih]
    | pointer p id => rw [record, faults_point, ih]

theorem journaled_ofJournal (w : List StoreWrite) (faults : Faults) :
    Journaled { ofJournal w with faults } := by
  simp only [Journaled, journal_ofJournal]

theorem Journaled.withFaults (h : s.Journaled) (faults : Faults) :
    Journaled { s with faults } := by
  rw [Journaled] at h
  rw [h]
  exact journaled_ofJournal _ _

theorem Journaled.record (h : s.Journaled) (write : StoreWrite) : (s.record write).Journaled := by
  rw [Journaled] at h
  rw [h, record_withFaults]
  exact journaled_ofJournal (write :: s.journal) s.faults

theorem indexed_ofJournal (w : List StoreWrite) : (ofJournal w).Indexed := by
  induction w with
  | nil => exact indexed_empty
  | cons write w ih => exact ih.record write

theorem Journaled.indexed (h : s.Journaled) : s.Indexed := by
  rw [Journaled] at h
  have hi := indexed_ofJournal s.journal
  rw [h]
  exact ⟨hi.id_eq, hi.mem_level, hi.nodup_level, hi.row_ne_nil⟩

theorem find?_of_suffix (hw : w <:+ w') (h : (ofJournal w).blocks.find? id = some sb) :
    (ofJournal w').blocks.find? id = some sb := by
  obtain ⟨l, rfl⟩ := hw
  induction l with
  | nil => exact h
  | cons write l ih => exact find?_record ih write

theorem mem_of_find?_ofJournal (h : (ofJournal w).blocks.find? id = some sb) :
    .block sb.block sb.state ∈ w := by
  induction w with
  | nil => cases h
  | cons write w ih =>
    rw [ofJournal] at h
    cases write with
    | pointer p a =>
      rw [record, blocks_point] at h
      exact List.mem_cons_of_mem _ (ih h)
    | block block state =>
      rw [record, find?_addBlock] at h
      split at h
      · cases h
        exact List.mem_cons_self
      · exact List.mem_cons_of_mem _ (ih h)

theorem Journaled.mem_journal (h : s.Journaled) (hsb : s.blocks.find? id = some sb) :
    .block sb.block sb.state ∈ s.journal := by
  rw [Journaled] at h
  rw [h] at hsb
  exact mem_of_find?_ofJournal hsb

theorem Journaled.journal_ne_nil (h : s.Journaled) (hin : s.blocks.contains id = true) :
    s.journal ≠ [] := by
  intro hnil
  rw [h.blocks_eq, hnil] at hin
  cases hin

theorem contains_of_mem_journal {w : List StoreWrite} {block : Block} {state : State}
    (h : .block block state ∈ w) : (ofJournal w).blocks.contains block.id = true := by
  induction w with
  | nil => cases h
  | cons write w ih =>
    rcases List.mem_cons.1 h with rfl | h
    · obtain ⟨sb, hsb⟩ := find?_addBlock_self (ofJournal w) block state
      exact Table.contains_iff.2 ⟨sb, hsb⟩
    · obtain ⟨sb, hsb⟩ := Table.contains_iff.1 (ih h)
      exact Table.contains_iff.2 ⟨sb, find?_record hsb write⟩

/-! ### Later stores -/

/-- The second store comes from the first by further writes. -/
abbrev Later : Store → Store → Prop :=
  Relation.ReflTransGen fun s s' => ∃ write, s' = s.record write

theorem Later.find? (h : s.Later s') (hsb : s.blocks.find? id = some sb) :
    s'.blocks.find? id = some sb := by
  induction h with
  | refl => exact hsb
  | tail _ hstep ih =>
    obtain ⟨write, rfl⟩ := hstep
    exact find?_record ih write

theorem Later.journaled (h : s.Later s') (hs : s.Journaled) : s'.Journaled := by
  induction h with
  | refl => exact hs
  | tail _ hstep ih =>
    obtain ⟨write, rfl⟩ := hstep
    exact ih.record write

theorem Later.suffix (h : s.Later s') : s.journal <:+ s'.journal := by
  induction h with
  | refl => exact List.suffix_refl _
  | tail _ hstep ih =>
    obtain ⟨write, rfl⟩ := hstep
    rw [journal_record]
    exact ih.trans (List.suffix_cons _ _)

theorem later_put {block : Block} {state : State} (h : s.put block state = .ok s') :
    s.Later s' :=
  .single ⟨.block block state, (put_eq_ok_iff.1 h).2⟩

/-! ### Distinct identifiers -/

/-- Blocks that were written under one identifier have one header. -/
def DistinctIds (w : List StoreWrite) : Prop :=
  ∀ b state b' state', .block b state ∈ w → .block b' state' ∈ w → b.id = b'.id →
    b.header = b'.header

/-- The blocks that were written. -/
def writtenBlocks (w : List StoreWrite) : List Block :=
  w.filterMap fun
    | .block b _ => some b
    | .pointer _ _ => none

omit [Crypto] in
theorem mem_writtenBlocks {b : Block} : b ∈ writtenBlocks w ↔ ∃ state, .block b state ∈ w := by
  rw [writtenBlocks, List.mem_filterMap]
  constructor
  · rintro ⟨write, hmem, hb⟩
    cases write with
    | block b' state =>
      cases hb
      exact ⟨state, hmem⟩
    | pointer p id => cases hb
  · rintro ⟨state, hmem⟩
    exact ⟨_, hmem, rfl⟩

instance : DecidablePred DistinctIds := fun w =>
  decidable_of_iff (∀ b ∈ writtenBlocks w, ∀ b' ∈ writtenBlocks w, b.id = b'.id →
    b.header = b'.header) (by
      simp only [mem_writtenBlocks]
      exact ⟨fun h b state b' state' hb hb' => h b ⟨state, hb⟩ b' ⟨state', hb'⟩,
        fun h b ⟨state, hb⟩ b' ⟨state', hb'⟩ => h b state b' state' hb hb'⟩)

theorem DistinctIds.empty : DistinctIds [] := by
  intro b state b' state' hb
  cases hb

theorem DistinctIds.pointer (h : DistinctIds w) (p : Pointer) (id : BlockId) :
    DistinctIds (.pointer p id :: w) := by
  intro b state b' state' hb hb'
  have hold : ∀ {b state}, .block b state ∈ StoreWrite.pointer p id :: w → .block b state ∈ w :=
    fun hb => (List.mem_cons.1 hb).resolve_left StoreWrite.noConfusion
  exact h b state b' state' (hold hb) (hold hb')

/-- Writing a block again brings in no new identifier. -/
theorem DistinctIds.again (h : DistinctIds w) {block : Block} {state : State}
    (hmem : .block block state ∈ w) : DistinctIds (.block block state :: w) := by
  intro b st b' st' hb hb'
  have hold : ∀ {b st}, .block b st ∈ StoreWrite.block block state :: w → .block b st ∈ w := by
    intro b st hb
    rcases List.mem_cons.1 hb with heq | hb
    · rw [heq]
      exact hmem
    · exact hb
  exact h b st b' st' (hold hb) (hold hb')

theorem DistinctIds.of_subset (h : DistinctIds w') (hw : w ⊆ w') : DistinctIds w :=
  fun b state b' state' hb hb' => h b state b' state' (hw hb) (hw hb')

theorem DistinctIds.of_suffix (h : DistinctIds w') (hw : w <:+ w') : DistinctIds w :=
  h.of_subset hw.subset

end Store

end LedgerChain
