import LedgerChain.Mempool

/-!
# What a pool holds

The pool is a table, and each operation says what is in the table afterwards: pruned extrinsics are
gone (`Mempool.find?_prune`), given back ones are there unless they are refused
(`Mempool.contains_giveBack`), and whatever is there was there before or was added.

A pool that has **grown** from an empty one by its operations (`Mempool.Grown`) keeps every extrinsic
under its own identifier, and within its limits (`Mempool.Grown.tidy`).

* `find?_of_mem_pull` : what is handed out was pending.
* `submit_ok_cases`, `giveBackOne_cases` : an extrinsic that is taken, or taken back, is added
  under its identifier at some slot.
-/

namespace LedgerChain

/-- The extrinsic is within the limits of a pool. -/
def MempoolConfig.Allows (config : MempoolConfig) (x : Extrinsic) : Prop :=
  config.minPriority ≤ x.priority ∧ x.size ≤ config.maxExtrinsicSize

namespace Mempool

variable {p p' : Mempool} {config : MempoolConfig} {id a : ExtrinsicId} {x y : Extrinsic}
  {xs : List Extrinsic} {ids : List ExtrinsicId} {slot : Slot}

/-! ### Removing -/

theorem config_erase (p : Mempool) (a : ExtrinsicId) : (p.erase a).config = p.config := by
  rw [erase]
  split <;> rfl

theorem find?_erase (p : Mempool) (a id : ExtrinsicId) :
    (p.erase a).entries.find? id = if id = a then none else p.entries.find? id := by
  rw [erase]
  split
  · rename_i hnone
    split
    · rename_i heq
      rw [heq, hnone]
    · rfl
  · exact Table.find?_erase p.entries a id

theorem config_prune (p : Mempool) (ids : List ExtrinsicId) : (p.prune ids).config = p.config := by
  induction ids generalizing p with
  | nil => rfl
  | cons a rest ih => exact (ih (p.erase a)).trans (config_erase p a)

theorem find?_prune (p : Mempool) (ids : List ExtrinsicId) (id : ExtrinsicId) :
    (p.prune ids).entries.find? id = if id ∈ ids then none else p.entries.find? id := by
  induction ids generalizing p with
  | nil => rfl
  | cons a rest ih =>
    refine (ih (p.erase a)).trans ?_
    rw [find?_erase]
    by_cases hrest : id ∈ rest
    · rw [if_pos hrest, if_pos (List.mem_cons_of_mem a hrest)]
    · by_cases ha : id = a <;> simp [ha, hrest]

theorem contains_prune : (p.prune ids).contains id = true ↔ p.contains id = true ∧ id ∉ ids := by
  rw [contains, contains, Table.contains, Table.contains, find?_prune]
  by_cases hmem : id ∈ ids <;> simp [hmem]

theorem length_pull_le (p : Mempool) (max : Nat) : (p.pull max).1.length ≤ max :=
  Nat.le_trans (List.length_filterMap_le _ _) (List.length_take_le max p.pending)

theorem find?_of_mem_pull {max : Nat} (hx : x ∈ (p.pull max).1) :
    ∃ id slot, p.entries.find? id = some (slot, x) := by
  obtain ⟨id, -, hfind⟩ := List.mem_filterMap.1 hx
  obtain ⟨⟨slot, y⟩, hy, rfl⟩ := Option.map_eq_some_iff.1 hfind
  exact ⟨id, slot, hy⟩

/-! ### Adding -/

theorem refusal?_eq_none_iff : p.refusal? id x = none ↔
    p.contains id = false ∧ p.config.Allows x ∧ p.size < p.config.capacity := by
  simp only [refusal?, MempoolConfig.Allows]
  cases p.contains id with
  | true => simp
  | false =>
    simp only [Bool.false_eq_true, if_false, true_and]
    by_cases hlow : x.priority < p.config.minPriority
    · simp [hlow, UInt64.not_le.2 hlow]
    · by_cases hlarge : p.config.maxExtrinsicSize < x.size
      · simp [hlow, hlarge, Nat.not_le.2 hlarge]
      · by_cases hfull : p.config.capacity ≤ p.size
        · simp [hlow, hlarge, hfull, Nat.not_lt.2 hfull]
        · simp [hlow, hlarge, hfull, UInt64.not_lt.1 hlow, Nat.not_lt.1 hlarge, Nat.not_le.1 hfull]

variable [Crypto]

theorem submit_ok_cases (h : p.submit x = .ok p') :
    p.refusal? x.id x = none ∧ ∃ slot, p'.entries = p.entries.insert x.id (slot, x) ∧
      p'.config = p.config := by
  rw [submit] at h
  split at h
  · cases h
  · rename_i hnone
    cases h
    exact ⟨hnone, _, rfl, rfl⟩

theorem giveBackOne_cases (p : Mempool) (x : Extrinsic) :
    (p.refusal? x.id x ≠ none ∧ (p.giveBackOne x).2 = p) ∨
      (p.refusal? x.id x = none ∧ ∃ slot,
        (p.giveBackOne x).2.entries = p.entries.insert x.id (slot, x) ∧
        (p.giveBackOne x).2.config = p.config) := by
  rw [giveBackOne]
  split
  · rename_i e he
    exact Or.inl ⟨by rw [he]; exact Option.some_ne_none e, rfl⟩
  · rename_i hnone
    exact Or.inr ⟨hnone, _, rfl, rfl⟩

@[simp] theorem giveBack_nil (p : Mempool) : (p.giveBack []).2 = p := rfl

/-- The first extrinsic is taken back last. -/
@[simp] theorem giveBack_cons (p : Mempool) (x : Extrinsic) (xs : List Extrinsic) :
    (p.giveBack (x :: xs)).2 = ((p.giveBack xs).2.giveBackOne x).2 := by
  simp only [giveBack, List.reverse_cons, List.foldl_append, List.foldl_cons, List.foldl_nil]

theorem contains_or_of_contains_giveBack (h : (p.giveBack xs).2.contains id = true) :
    p.contains id = true ∨ ∃ x ∈ xs, x.id = id := by
  induction xs with
  | nil => exact Or.inl h
  | cons x rest ih =>
    have hrest : (p.giveBack rest).2.contains id = true →
        p.contains id = true ∨ ∃ y ∈ x :: rest, y.id = id := fun hin =>
      (ih hin).imp_right fun ⟨y, hy, hid⟩ => ⟨y, List.mem_cons_of_mem x hy, hid⟩
    rw [giveBack_cons] at h
    rcases (p.giveBack rest).2.giveBackOne_cases x with ⟨-, heq⟩ | ⟨-, slot, hentries, -⟩
    · rw [heq] at h
      exact hrest h
    · rw [contains, hentries, Table.contains, Table.find?_insert] at h
      split at h
      · rename_i heq
        exact Or.inr ⟨x, List.mem_cons_self, heq.symm⟩
      · exact hrest h

theorem config_giveBack (p : Mempool) (xs : List Extrinsic) :
    (p.giveBack xs).2.config = p.config := by
  induction xs with
  | nil => rfl
  | cons x rest ih =>
    rw [giveBack_cons]
    rcases (p.giveBack rest).2.giveBackOne_cases x with ⟨-, heq⟩ | ⟨-, slot, -, hconfig⟩
    · rw [heq, ih]
    · rw [hconfig, ih]

theorem size_le_giveBackOne (p : Mempool) (x : Extrinsic) : p.size ≤ (p.giveBackOne x).2.size := by
  rcases p.giveBackOne_cases x with ⟨-, heq⟩ | ⟨hnone, slot, hentries, -⟩
  · simp [heq]
  · have hnew : p.entries.find? x.id = none := by
      simpa [contains, Table.contains] using (refusal?_eq_none_iff.1 hnone).1
    simp [size, hentries, Table.size, Table.toList_insert_of_not_mem hnew]

theorem contains_giveBackOne_of_contains (h : p.contains id = true) (x : Extrinsic) :
    (p.giveBackOne x).2.contains id = true := by
  rcases p.giveBackOne_cases x with ⟨-, heq⟩ | ⟨-, slot, hentries, -⟩
  · rw [heq, h]
  · rw [contains, hentries, Table.contains, Table.find?_insert]
    split
    · rfl
    · exact h

/-- **An extrinsic that is given back is pending again**, if it is within the limits and the pool
is not full. -/
theorem contains_giveBack (hx : x ∈ xs) (hallowed : p.config.Allows x) :
    (p.giveBack xs).2.contains x.id = true ∨
      p.config.capacity ≤ (p.giveBack xs).2.size := by
  induction xs with
  | nil => cases hx
  | cons y rest ih =>
    rw [giveBack_cons]
    rcases List.mem_cons.1 hx with rfl | hmem
    · rcases (p.giveBack rest).2.giveBackOne_cases x with ⟨hrefused, heq⟩ | ⟨-, slot, hentries, -⟩
      · rw [heq]
        cases hin : (p.giveBack rest).2.contains x.id with
        | true => exact Or.inl rfl
        | false =>
          -- it was refused, and for none of the other reasons
          refine Or.inr (Nat.not_lt.1 fun hroom => hrefused (refusal?_eq_none_iff.2 ⟨hin, ?_, ?_⟩))
          · rw [config_giveBack]
            exact hallowed
          · rw [config_giveBack]
            exact hroom
      · left
        simp [contains, hentries, Table.contains, Table.find?_insert]
    · rcases ih hmem with hin | hfull
      · exact Or.inl (contains_giveBackOne_of_contains hin y)
      · exact Or.inr (Nat.le_trans hfull (size_le_giveBackOne _ y))

/-! ### Pools that have grown -/

/-- A pool that came from an empty one with the given limits by operations of the pool. -/
inductive Grown (config : MempoolConfig) : Mempool → Prop
  | empty : Grown config { config }
  | submit {p p' : Mempool} {x : Extrinsic} (hp : Grown config p) (h : p.submit x = .ok p') :
      Grown config p'
  | giveBack {p : Mempool} (hp : Grown config p) (xs : List Extrinsic) :
      Grown config (p.giveBack xs).2
  | prune {p : Mempool} (hp : Grown config p) (ids : List ExtrinsicId) : Grown config (p.prune ids)

omit [Crypto] in
theorem Grown.pull [Crypto] (h : Grown config p) (max : Nat) : Grown config (p.pull max).2 :=
  h.prune _

/-- The pool has the given limits, and each extrinsic is pending under its identifier and within the
limits. -/
structure Tidy (config : MempoolConfig) (p : Mempool) : Prop where
  config_eq : p.config = config
  entry : ∀ {id slot x}, p.entries.find? id = some (slot, x) → x.id = id ∧ config.Allows x

theorem Tidy.insert (h : Tidy config p) (hnone : p.refusal? x.id x = none)
    (hentries : p'.entries = p.entries.insert x.id (slot, x)) (hconfig : p'.config = p.config) :
    Tidy config p' where
  config_eq := hconfig.trans h.config_eq
  entry {id s y} hy := by
    rw [hentries, Table.find?_insert] at hy
    split at hy
    · rename_i heq
      cases hy
      exact ⟨heq.symm, h.config_eq ▸ (refusal?_eq_none_iff.1 hnone).2.1⟩
    · exact h.entry hy

/-- **Pools that have grown are tidy**, by induction over their operations. -/
theorem Grown.tidy (h : Grown config p) : Tidy config p := by
  induction h with
  | empty => exact ⟨rfl, fun hx => by cases hx⟩
  | submit _ h ih =>
    obtain ⟨hnone, slot, hentries, hconfig⟩ := submit_ok_cases h
    exact ih.insert hnone hentries hconfig
  | @giveBack p _ xs ih =>
    induction xs with
    | nil => exact ih
    | cons x rest ihxs =>
      rw [giveBack_cons]
      rcases (p.giveBack rest).2.giveBackOne_cases x with ⟨-, heq⟩ | ⟨hnone, slot, hentries, hconfig⟩
      · rw [heq]
        exact ihxs
      · exact ihxs.insert hnone hentries hconfig
  | @prune p _ ids ih =>
    refine ⟨(config_prune p ids).trans ih.config_eq, fun hx => ?_⟩
    rw [find?_prune] at hx
    split at hx
    · cases hx
    · exact ih.entry hx

theorem Tidy.of_mem_pull (h : Tidy config p) {max : Nat} (hx : x ∈ (p.pull max).1) :
    p.contains x.id = true ∧ config.Allows x := by
  obtain ⟨id, slot, hfind⟩ := find?_of_mem_pull hx
  obtain ⟨rfl, hallowed⟩ := h.entry hfind
  exact ⟨Table.contains_iff.2 ⟨_, hfind⟩, hallowed⟩

end Mempool

end LedgerChain
