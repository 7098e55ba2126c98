import LedgerChain.State
import Mathlib.Data.List.Induction
import Mathlib.Data.List.Perm.Basic
import Mathlib.Data.List.Perm.Subperm

/-!
# Look-ups in the entries of a state

A map of entries is determined by its look-ups (`Entries.ext_find?`).  In a map that is made from a
list of pairs, the last one of each key is found (`Entries.find?_ofList`).

A write changes the look-up of its key only (`Write.find?_apply`), so a batch changes no look-up but
those of the keys it writes to (`WriteBatch.find?_apply`), and what holds of all entries and of all
values that are written holds of all entries afterwards (`Entries.All.batch`).
-/

namespace LedgerChain

/-! ### Look-ups determine a map -/

namespace Entries

variable {m m' : Entries} {k v : Bytes} {rows : List (Bytes × Bytes)}

theorem findPair_of_mem (h : rows.Pairwise fun p q => p.1 ≠ q.1) (hp : (k, v) ∈ rows) :
    findPair k rows = some v := by
  induction rows with
  | nil => cases hp
  | cons r rest ih =>
    obtain ⟨hall, hrest⟩ := List.pairwise_cons.1 h
    rcases List.mem_cons.1 hp with rfl | hp
    · rw [findPair, if_pos rfl]
    · rw [findPair, if_neg (hall (k, v) hp)]
      exact ih hrest hp

theorem distinct (m : Entries) : m.toList.Pairwise fun p q => p.1 ≠ q.1 :=
  m.sorted.imp fun {p q} (hlt : p.1 < q.1) (heq : p.1 = q.1) => List.lt_irrefl q.1 (heq ▸ hlt)

theorem ext (h : m.toList = m'.toList) : m = m' := by
  cases m
  cases m'
  cases h
  rfl

theorem mem_of_findPair (h : findPair k rows = some v) : (k, v) ∈ rows := by
  induction rows with
  | nil => cases h
  | cons r rest ih =>
    obtain ⟨a, w⟩ := r
    rw [findPair] at h
    split at h
    · rename_i hkey
      cases h
      rw [hkey]
      exact List.mem_cons_self
    · exact List.mem_cons_of_mem _ (ih h)

theorem find?_eq_some_iff : m.find? k = some v ↔ (k, v) ∈ m.toList :=
  ⟨mem_of_findPair, findPair_of_mem m.distinct⟩

theorem nodup_toList (m : Entries) : m.toList.Nodup :=
  m.distinct.imp fun {p q} (hne : p.1 ≠ q.1) heq => hne (congrArg Prod.fst heq)

/-- **Maps with the same look-ups are the same.** -/
theorem ext_find? (h : ∀ k, m.find? k = m'.find? k) : m = m' := by
  have hperm : m.toList.Perm m'.toList :=
    (List.perm_ext_iff_of_nodup m.nodup_toList m'.nodup_toList).2 fun p => by
      rw [← find?_eq_some_iff, ← find?_eq_some_iff, h]
  have hlist := hperm.eq_of_pairwise (fun p q _ _ hlt hgt =>
    absurd (List.lt_trans hlt hgt) (List.lt_irrefl p.1)) m.sorted m'.sorted
  exact ext hlist

/-- **The last pair of a key counts**, which is the first one from behind. -/
theorem find?_ofList (pairs : List (Bytes × Bytes)) (k : Bytes) :
    (ofList pairs).find? k = findPair k pairs.reverse := by
  induction pairs using List.reverseRecOn with
  | nil => rfl
  | append_singleton pairs p ih =>
    obtain ⟨a, v⟩ := p
    rw [ofList, List.foldl_append, ← ofList, List.reverse_append]
    show ((ofList pairs).insert a v).find? k = findPair k ((a, v) :: pairs.reverse)
    rw [find?_insert, ih, findPair]
    by_cases hk : k = a
    · rw [if_pos hk, if_pos hk.symm]
    · rw [if_neg hk, if_neg (Ne.symm hk)]

theorem ofList_toList (m : Entries) : ofList m.toList = m := by
  refine ext_find? fun k => Option.ext fun v => ?_
  have hback : m.toList.reverse.Pairwise fun p q => p.1 ≠ q.1 :=
    List.pairwise_reverse.2 (m.distinct.imp Ne.symm)
  rw [find?_ofList, find?_eq_some_iff]
  exact ⟨fun h => List.mem_reverse.1 (mem_of_findPair h),
    fun h => findPair_of_mem hback (List.mem_reverse.2 h)⟩

end Entries

/-! ### Writes -/

namespace Write

/-- The key that is written to. -/
def key : Write → Bytes
  | put k _ => k
  | delete k => k

/-- The value that is there afterwards, if there is one. -/
def value? : Write → Option Bytes
  | put _ v => some v
  | delete _ => none

theorem find?_apply (w : Write) (m : Entries) (a : Bytes) :
    (w.apply m).find? a = if a = w.key then w.value? else m.find? a := by
  cases w with
  | put k v => exact m.find?_insert k a v
  | delete k => exact m.find?_erase k a

end Write

/-- A property of all entries. -/
def Entries.All (P : Bytes → Bytes → Prop) (m : Entries) : Prop :=
  ∀ k raw, m.find? k = some raw → P k raw

/-- A write leaves an entry with a property, or none. -/
def Write.Leaves (P : Bytes → Bytes → Prop) (w : Write) : Prop :=
  ∀ raw, w.value? = some raw → P w.key raw

section

variable {P : Bytes → Bytes → Prop} {m : Entries} {w : Write} {ws : List Write} {k : Bytes}

theorem Entries.All.apply (h : m.All P) (hw : w.Leaves P) : (w.apply m).All P := by
  intro k raw hk
  rw [Write.find?_apply] at hk
  by_cases heq : k = w.key
  · rw [if_pos heq] at hk
    rw [heq]
    exact hw raw hk
  · rw [if_neg heq] at hk
    exact h k raw hk

theorem Entries.All.foldl (h : m.All P) (hws : ∀ w ∈ ws, w.Leaves P) :
    (ws.foldl Write.apply m).All P := by
  induction ws generalizing m with
  | nil => exact h
  | cons w ws ih =>
    obtain ⟨hw, hws⟩ := List.forall_mem_cons.1 hws
    exact ih (h.apply hw) hws

/-- **A batch keeps what its writes keep.** -/
theorem Entries.All.batch {s : State} {b : WriteBatch} (h : s.entries.All P)
    (hb : ∀ w ∈ b.writes, w.Leaves P) : (b.apply s).entries.All P :=
  h.foldl hb

theorem Write.find?_foldl (h : ∀ w ∈ ws, w.key ≠ k) :
    (ws.foldl Write.apply m).find? k = m.find? k := by
  induction ws generalizing m with
  | nil => rfl
  | cons w ws ih =>
    obtain ⟨hw, hws⟩ := List.forall_mem_cons.1 h
    rw [List.foldl_cons, ih hws, find?_apply, if_neg (Ne.symm hw)]

/-- **A batch changes only what it writes to.** -/
theorem WriteBatch.find?_apply {s : State} {b : WriteBatch} (h : ∀ w ∈ b.writes, w.key ≠ k) :
    (b.apply s).find? k = s.find? k :=
  Write.find?_foldl h

end

end LedgerChain
