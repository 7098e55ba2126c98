/-!
# Finite tables

A table is a finite map that keeps its rows in the order in which their keys were first added.

* `find?_insert`, `find?_erase`, `find?_modify` : what each operation does to a look-up.
* `toList_insert_of_not_mem` : a new key is added at the end.
-/

namespace LedgerChain

/-- A finite map from `κ` to `ν`, as a list of rows with distinct keys. -/
structure Table (κ ν : Type) where
  /-- The rows, in the order in which their keys were added. -/
  toList : List (κ × ν)
  nodup : (toList.map Prod.fst).Nodup

namespace Table

variable {κ ν : Type}

/-- The table without rows. -/
def empty : Table κ ν := ⟨[], List.nodup_nil⟩

instance : Inhabited (Table κ ν) := ⟨empty⟩

/-- The keys, in the order in which they were added. -/
def keys (t : Table κ ν) : List κ := t.toList.map Prod.fst

/-- The number of rows. -/
def size (t : Table κ ν) : Nat := t.toList.length

/-- The table with a single row. -/
def single (k : κ) (v : ν) : Table κ ν := ⟨[(k, v)], by simp⟩

theorem ext {t u : Table κ ν} (h : t.toList = u.toList) : t = u := by
  cases t; cases u; simp_all

variable [DecidableEq κ]

/-- The value of the first row with key `k`. -/
def findRow (k : κ) : List (κ × ν) → Option ν
  | [] => none
  | (a, v) :: rest => if a = k then some v else findRow k rest

/-- The value at key `k`. -/
def find? (t : Table κ ν) (k : κ) : Option ν := findRow k t.toList

/-- Whether there is a row with key `k`. -/
def contains (t : Table κ ν) (k : κ) : Bool := (t.find? k).isSome

/-- The rows, with the value at `k` replaced, or with a new last row if there is none. -/
def insertRow (k : κ) (v : ν) : List (κ × ν) → List (κ × ν)
  | [] => [(k, v)]
  | (a, w) :: rest => if a = k then (a, v) :: rest else (a, w) :: insertRow k v rest

theorem mem_keys_insertRow {k a : κ} {v : ν} {rows : List (κ × ν)} :
    a ∈ (insertRow k v rows).map Prod.fst ↔ a = k ∨ a ∈ rows.map Prod.fst := by
  induction rows with
  | nil => simp [insertRow]
  | cons r rest ih =>
    obtain ⟨b, w⟩ := r
    by_cases hb : b = k
    · subst hb; simp [insertRow]
    · simp only [insertRow, hb, if_false, List.map_cons, List.mem_cons, ih]
      constructor <;> (intro h; rcases h with h | h | h <;> simp [h])

theorem nodup_insertRow {k : κ} {v : ν} {rows : List (κ × ν)}
    (h : (rows.map Prod.fst).Nodup) : ((insertRow k v rows).map Prod.fst).Nodup := by
  induction rows with
  | nil => simp [insertRow]
  | cons r rest ih =>
    obtain ⟨b, w⟩ := r
    rw [List.map_cons, List.nodup_cons] at h
    by_cases hb : b = k
    · simp only [insertRow, hb, if_true, List.map_cons, List.nodup_cons]
      exact ⟨hb ▸ h.1, h.2⟩
    · rw [insertRow, if_neg hb, List.map_cons, List.nodup_cons, mem_keys_insertRow]
      exact ⟨fun hmem => hmem.elim hb h.1, ih h.2⟩

/-- Sets the value at `k`. -/
def insert (t : Table κ ν) (k : κ) (v : ν) : Table κ ν :=
  ⟨insertRow k v t.toList, nodup_insertRow t.nodup⟩

/-- Removes the row at `k`. -/
def erase (t : Table κ ν) (k : κ) : Table κ ν :=
  ⟨t.toList.filter (fun r => r.1 ≠ k), t.nodup.sublist (List.filter_sublist.map _)⟩

/-- Applies `f` to the value at `k`. -/
def modify (t : Table κ ν) (k : κ) (f : ν → ν) : Table κ ν :=
  match t.find? k with
  | none => t
  | some v => t.insert k (f v)

/-! ### Look-ups -/

theorem findRow_insertRow (k a : κ) (v : ν) (rows : List (κ × ν)) :
    findRow a (insertRow k v rows) = if a = k then some v else findRow a rows := by
  induction rows with
  | nil => simp [insertRow, findRow, eq_comm]
  | cons r rest ih =>
    obtain ⟨b, w⟩ := r
    by_cases hb : b = k
    · subst hb
      by_cases ha : a = b
      · subst ha; simp [insertRow, findRow]
      · simp [insertRow, findRow, ha, Ne.symm ha]
    · by_cases ha : b = a
      · subst ha; simp [insertRow, findRow, hb]
      · simp [insertRow, findRow, hb, ha, ih]

@[simp] theorem find?_empty (a : κ) : (empty : Table κ ν).find? a = none := rfl

theorem find?_insert (t : Table κ ν) (k a : κ) (v : ν) :
    (t.insert k v).find? a = if a = k then some v else t.find? a :=
  findRow_insertRow k a v t.toList

theorem findRow_filter (k a : κ) (rows : List (κ × ν)) :
    findRow a (rows.filter fun r => r.1 ≠ k) = if a = k then none else findRow a rows := by
  induction rows with
  | nil => simp [findRow]
  | cons r rest ih =>
    obtain ⟨b, w⟩ := r
    by_cases hb : b = k
    · subst hb
      by_cases ha : a = b
      · subst ha; simpa using ih
      · simp only [findRow, Ne.symm ha, if_false]
        simpa [ha] using ih
    · by_cases ha : b = a
      · subst ha; simp [hb, findRow]
      · simp only [ne_eq, hb, not_false_eq_true, decide_true, List.filter_cons_of_pos, findRow, ha,
          if_false]
        simpa using ih

theorem find?_erase (t : Table κ ν) (k a : κ) :
    (t.erase k).find? a = if a = k then none else t.find? a :=
  findRow_filter k a t.toList

theorem find?_modify (t : Table κ ν) (k a : κ) (f : ν → ν) :
    (t.modify k f).find? a = if a = k then (t.find? a).map f else t.find? a := by
  unfold modify
  split
  · rename_i h
    by_cases ha : a = k
    · subst ha; simp [h]
    · simp [ha]
  · rename_i v h
    rw [find?_insert]
    by_cases ha : a = k
    · subst ha; simp [h]
    · simp [ha]

theorem contains_iff {t : Table κ ν} {k : κ} : t.contains k = true ↔ ∃ v, t.find? k = some v := by
  simp [contains, Option.isSome_iff_exists]

theorem findRow_eq_none_iff {k : κ} {rows : List (κ × ν)} :
    findRow k rows = none ↔ k ∉ rows.map Prod.fst := by
  induction rows with
  | nil => simp [findRow]
  | cons r rest ih =>
    obtain ⟨b, w⟩ := r
    by_cases hb : b = k
    · simp [findRow, hb]
    · simp [findRow, hb, ih, Ne.symm hb]

theorem find?_eq_some_iff {t : Table κ ν} {k : κ} {v : ν} :
    t.find? k = some v ↔ (k, v) ∈ t.toList := by
  obtain ⟨rows, hnodup⟩ := t
  simp only [find?]
  induction rows with
  | nil => simp [findRow]
  | cons r rest ih =>
    obtain ⟨b, w⟩ := r
    rw [List.map_cons, List.nodup_cons] at hnodup
    by_cases hb : b = k
    · subst hb
      simp only [findRow, if_true, Option.some.injEq, List.mem_cons, Prod.mk.injEq, true_and]
      refine ⟨fun h => Or.inl h.symm, fun h => h.elim Eq.symm fun h => ?_⟩
      exact absurd (List.mem_map_of_mem h) hnodup.1
    · simp only [findRow, hb, if_false, List.mem_cons, Prod.mk.injEq, Ne.symm hb, false_and,
        false_or]
      exact ih hnodup.2

theorem mem_keys_iff {t : Table κ ν} {k : κ} : k ∈ t.keys ↔ t.contains k = true := by
  have := @findRow_eq_none_iff κ ν _ k t.toList
  unfold contains find? keys
  cases h : findRow k t.toList <;> simp_all

theorem insertRow_of_not_mem {k : κ} {v : ν} {rows : List (κ × ν)}
    (h : k ∉ rows.map Prod.fst) : insertRow k v rows = rows ++ [(k, v)] := by
  induction rows with
  | nil => rfl
  | cons r rest ih =>
    obtain ⟨b, w⟩ := r
    rw [List.map_cons, List.mem_cons, not_or] at h
    simp [insertRow, Ne.symm h.1, ih h.2]

theorem toList_insert_of_not_mem {t : Table κ ν} {k : κ} {v : ν} (h : t.find? k = none) :
    (t.insert k v).toList = t.toList ++ [(k, v)] :=
  insertRow_of_not_mem (findRow_eq_none_iff.1 h)

end Table

end LedgerChain
