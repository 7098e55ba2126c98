import LedgerChain.Bytes

/-!
# Entries of a state

A finite map from byte strings to byte strings, kept as the list of its pairs in increasing order
of the keys.  Two maps with the same look-ups are the same list.

* `find?_insert`, `find?_erase` : what each operation does to a look-up.
-/

namespace LedgerChain

/-- A finite map from byte strings to byte strings. -/
structure Entries where
  /-- The pairs, in increasing order of their keys. -/
  toList : List (Bytes × Bytes)
  sorted : toList.Pairwise fun a b => a.1 < b.1
deriving DecidableEq

namespace Entries

/-- The map without entries. -/
def empty : Entries := ⟨[], .nil⟩

instance : Inhabited Entries := ⟨empty⟩

/-- The value of the first pair with key `k`. -/
def findPair (k : Bytes) : List (Bytes × Bytes) → Option Bytes
  | [] => none
  | (a, v) :: rest => if a = k then some v else findPair k rest

/-- The value at `k`. -/
def find? (m : Entries) (k : Bytes) : Option Bytes := findPair k m.toList

/-- Whether there is a value at `k`. -/
def contains (m : Entries) (k : Bytes) : Bool := (m.find? k).isSome

/-- The number of entries. -/
def size (m : Entries) : Nat := m.toList.length

/-- Sets the value at `k` in a sorted list of pairs. -/
def insertPair (k v : Bytes) : List (Bytes × Bytes) → List (Bytes × Bytes)
  | [] => [(k, v)]
  | (a, w) :: rest =>
    if k < a then (k, v) :: (a, w) :: rest
    else if k = a then (k, v) :: rest
    else (a, w) :: insertPair k v rest

theorem lt_of_not_lt_of_ne {a b : Bytes} (h : ¬ a < b) (hne : a ≠ b) : b < a := by
  rcases List.le_iff_lt_or_eq.1 (List.not_lt.1 h) with hlt | heq
  · exact hlt
  · exact absurd heq.symm hne

theorem mem_insertPair {k v : Bytes} {p : Bytes × Bytes} {rows : List (Bytes × Bytes)}
    (h : p ∈ insertPair k v rows) : p = (k, v) ∨ p ∈ rows := by
  induction rows with
  | nil => simpa [insertPair] using h
  | cons r rest ih =>
    obtain ⟨a, w⟩ := r
    unfold insertPair at h
    split at h
    · simpa using h
    · split at h
      · rcases List.mem_cons.1 h with h | h
        · exact Or.inl h
        · exact Or.inr (List.mem_cons_of_mem _ h)
      · rcases List.mem_cons.1 h with h | h
        · exact Or.inr (h ▸ List.mem_cons_self)
        · exact (ih h).imp id (List.mem_cons_of_mem _)

theorem sorted_insertPair {k v : Bytes} {rows : List (Bytes × Bytes)}
    (h : rows.Pairwise fun a b => a.1 < b.1) :
    (insertPair k v rows).Pairwise fun a b => a.1 < b.1 := by
  induction rows with
  | nil => simp [insertPair]
  | cons r rest ih =>
    obtain ⟨a, w⟩ := r
    rw [List.pairwise_cons] at h
    unfold insertPair
    split
    · rename_i hlt
      refine List.pairwise_cons.2 ⟨fun p hp => ?_, List.pairwise_cons.2 h⟩
      rcases List.mem_cons.1 hp with rfl | hp
      · exact hlt
      · exact List.lt_trans hlt (h.1 p hp)
    · rename_i hlt
      split
      · rename_i heq
        subst heq
        exact List.pairwise_cons.2 h
      · rename_i hne
        refine List.pairwise_cons.2 ⟨fun p hp => ?_, ih h.2⟩
        rcases mem_insertPair hp with rfl | hp
        · exact lt_of_not_lt_of_ne hlt hne
        · exact h.1 p hp

/-- Sets the value at `k`. -/
def insert (m : Entries) (k v : Bytes) : Entries :=
  ⟨insertPair k v m.toList, sorted_insertPair m.sorted⟩

/-- Removes the value at `k`. -/
def erase (m : Entries) (k : Bytes) : Entries :=
  ⟨m.toList.filter fun p => p.1 ≠ k, m.sorted.sublist List.filter_sublist⟩

/-- The map of a list of pairs, of which the last one for a key counts. -/
def ofList (pairs : List (Bytes × Bytes)) : Entries :=
  pairs.foldl (fun m p => m.insert p.1 p.2) empty

/-! ### Look-ups -/

theorem findPair_insertPair (k a v : Bytes) (rows : List (Bytes × Bytes)) :
    findPair a (insertPair k v rows) = if a = k then some v else findPair a rows := by
  induction rows with
  | nil => simp [insertPair, findPair, eq_comm]
  | cons r rest ih =>
    obtain ⟨b, w⟩ := r
    unfold insertPair
    split
    · simp [findPair, eq_comm]
    · split
      · rename_i heq
        subst heq
        by_cases ha : a = k
        · simp [findPair, ha]
        · simp [findPair, ha, Ne.symm ha]
      · rename_i hne
        by_cases ha : b = a
        · subst ha; simp [findPair, Ne.symm hne]
        · simp [findPair, ha, ih]

theorem find?_insert (m : Entries) (k a v : Bytes) :
    (m.insert k v).find? a = if a = k then some v else m.find? a :=
  findPair_insertPair k a v m.toList

theorem findPair_filter (k a : Bytes) (rows : List (Bytes × Bytes)) :
    findPair a (rows.filter fun p => p.1 ≠ k) = if a = k then none else findPair a rows := by
  induction rows with
  | nil => simp [findPair]
  | cons r rest ih =>
    obtain ⟨b, w⟩ := r
    by_cases hb : b = k
    · subst hb
      by_cases ha : a = b
      · subst ha; simpa using ih
      · simp only [findPair, Ne.symm ha, if_false]
        simpa [ha] using ih
    · by_cases ha : b = a
      · subst ha; simp [hb, findPair]
      · simp only [ne_eq, hb, not_false_eq_true, decide_true, List.filter_cons_of_pos, findPair, ha,
          if_false]
        simpa using ih

theorem find?_erase (m : Entries) (k a : Bytes) :
    (m.erase k).find? a = if a = k then none else m.find? a :=
  findPair_filter k a m.toList

end Entries

end LedgerChain
