import LedgerChain.Proofs.State.Lookups
import Mathlib.Algebra.BigOperators.Finprod

/-!
# Sums over the entries of a state

A measure gives every entry a number.  Its **total** over a map is the sum over all entries, to which
every key has a **share**.  A write changes the total by what its key had for a share before, and has
now (`total_apply`), and changes the share of no other key (`share_apply`).
-/

namespace LedgerChain

namespace Entries

variable {f : Bytes → Bytes → Nat} {m : Entries} {k a v : Bytes} {rows : List (Bytes × Bytes)}

/-- What a value counts for, if there is one. -/
def count (f : Bytes → Bytes → Nat) (k : Bytes) (v : Option Bytes) : Nat := (v.map (f k)).getD 0

/-- What the entry at a key counts for, if there is one. -/
def share (f : Bytes → Bytes → Nat) (m : Entries) (k : Bytes) : Nat := count f k (m.find? k)

/-- The sum of a measure over all entries. -/
def total (f : Bytes → Bytes → Nat) (m : Entries) : Nat := (m.toList.map fun p => f p.1 p.2).sum

/-- **A write changes the share of its key only.** -/
theorem share_apply (f : Bytes → Bytes → Nat) (w : Write) (m : Entries) (a : Bytes) :
    (w.apply m).share f a = if a = w.key then count f w.key w.value? else m.share f a := by
  rw [share, Write.find?_apply]
  by_cases ha : a = w.key
  · rw [if_pos ha, if_pos ha, ha]
  · rw [if_neg ha, if_neg ha, share]

/-! ### Sorted pairs -/

theorem findPair_eq_none_of_lt (h : ∀ p ∈ rows, k < p.1) : findPair k rows = none := by
  induction rows with
  | nil => rfl
  | cons r rest ih =>
    have hne : r.1 ≠ k := fun heq => List.lt_irrefl k (heq ▸ h r List.mem_cons_self)
    rw [findPair, if_neg hne]
    exact ih fun p hp => h p (List.mem_cons_of_mem _ hp)

theorem count_of_lt (h : ∀ p ∈ rows, k < p.1) : count f k (findPair k rows) = 0 := by
  rw [findPair_eq_none_of_lt h]
  rfl

theorem count_cons_self (f : Bytes → Bytes → Nat) (k v : Bytes) (rows : List (Bytes × Bytes)) :
    count f k (findPair k ((k, v) :: rows)) = f k v := by
  rw [findPair, if_pos rfl]
  rfl

theorem count_cons_of_ne (hne : a ≠ k) :
    count f k (findPair k ((a, v) :: rows)) = count f k (findPair k rows) := by
  rw [findPair, if_neg hne]

theorem sum_insertPair (h : rows.Pairwise fun p q => p.1 < q.1) (k v : Bytes) :
    ((insertPair k v rows).map fun p => f p.1 p.2).sum + count f k (findPair k rows) =
      (rows.map fun p => f p.1 p.2).sum + f k v := by
  induction rows with
  | nil => simp [insertPair, count, findPair]
  | cons r rest ih =>
    obtain ⟨a, w⟩ := r
    obtain ⟨hall, hrest⟩ := List.pairwise_cons.1 h
    unfold insertPair
    split
    · -- the key is below all others
      rename_i hlt
      have habove : ∀ p ∈ (a, w) :: rest, k < p.1 :=
        List.forall_mem_cons.2 ⟨hlt, fun p hp => List.lt_trans hlt (hall p hp)⟩
      rw [count_of_lt habove, List.map_cons, List.sum_cons, Nat.add_zero]
      exact Nat.add_comm _ _
    · split
      · rename_i heq
        subst heq
        simp only [count_cons_self, List.map_cons, List.sum_cons]
        omega
      · rename_i hne
        have := ih hrest
        rw [count_cons_of_ne (Ne.symm hne), List.map_cons, List.map_cons, List.sum_cons,
          List.sum_cons]
        omega

theorem sum_filter_ne (h : rows.Pairwise fun p q => p.1 < q.1) (k : Bytes) :
    ((rows.filter fun p => p.1 ≠ k).map fun p => f p.1 p.2).sum + count f k (findPair k rows) =
      (rows.map fun p => f p.1 p.2).sum := by
  induction rows with
  | nil => simp [count, findPair]
  | cons r rest ih =>
    obtain ⟨a, w⟩ := r
    obtain ⟨hall, hrest⟩ := List.pairwise_cons.1 h
    by_cases hak : a = k
    · -- the keys of the other pairs are above this one
      subst hak
      have hself : rest.filter (fun p => p.1 ≠ a) = rest := by
        refine List.filter_eq_self.2 fun p hp => decide_eq_true fun heq => ?_
        exact List.lt_irrefl a (heq ▸ hall p hp)
      rw [count_cons_self, List.filter_cons_of_neg (by simp), hself, List.map_cons, List.sum_cons]
      exact Nat.add_comm _ _
    · rw [count_cons_of_ne hak, List.filter_cons_of_pos (by simpa using hak), List.map_cons,
        List.map_cons, List.sum_cons, List.sum_cons, Nat.add_assoc, ih hrest]

/-- **A write changes a total** by what its key counted for before, and counts for now. -/
theorem total_apply (f : Bytes → Bytes → Nat) (w : Write) (m : Entries) :
    (w.apply m).total f + m.share f w.key = m.total f + count f w.key w.value? := by
  cases w with
  | put k v => exact sum_insertPair m.sorted k v
  | delete k => exact sum_filter_ne m.sorted k

end Entries

end LedgerChain
