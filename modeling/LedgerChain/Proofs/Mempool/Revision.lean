import LedgerChain.Proofs.Mempool.Refinement
import Mathlib.Data.List.Pairwise

/-!
# Extrinsics that leave and come back

When blocks leave the canonical chain and others join it, the extrinsics of the latter go out of the
pool and those of the former come back.  What is pending afterwards is said of the list of pending
extrinsics (`Revised`), by the priorities that the extrinsics have: at each priority, those that come
back are ahead, in the order that they had on the chain, and those that were pending follow in the
order that they were pending in.

* `PriorityList.giveBack_taken` : which extrinsics are taken back.
* `PriorityList.ofPriority_giveBack` : where they go.
* `Mempool.Grown.revised` : pools do so.
* `Mempool.Grown.extrinsics_giveBack_pulled` : what was handed out goes back to where it was.
-/

namespace LedgerChain

instance {config : MempoolConfig} {x : Extrinsic} : Decidable (config.Allows x) :=
  inferInstanceAs (Decidable (_ ∧ _))

/-- The extrinsics of a given priority. -/
def ofPriority (priority : UInt64) (xs : List Extrinsic) : List Extrinsic :=
  xs.filter fun x => x.priority = priority

/-! ### What is taken back, and where it goes -/

namespace PriorityList

theorem takeWhile_append_dropWhile (x : Extrinsic) (xs : List Extrinsic) :
    xs.takeWhile (fun y => decide (x.priority < y.priority)) ++
      xs.dropWhile (fun y => decide (x.priority < y.priority)) = xs :=
  List.takeWhile_append_dropWhile

theorem ofPriority_insertReturned (x : Extrinsic) (xs : List Extrinsic) (priority : UInt64) :
    ofPriority priority (insertReturned x xs) = ofPriority priority (x :: xs) := by
  have hxs := congrArg (ofPriority priority) (takeWhile_append_dropWhile x xs)
  simp only [ofPriority, insertReturned, List.filter_append, List.filter_cons] at hxs ⊢
  by_cases heq : x.priority = priority
  · -- whatever it goes behind is of a higher priority
    have hhigh : (xs.takeWhile fun y => x.priority < y.priority).filter
        (fun y => y.priority = priority) = [] := by
      refine List.filter_eq_nil_iff.2 fun y hy hsame => ?_
      have hlt := List.mem_takeWhile_imp (p := fun y : Extrinsic => decide (x.priority < y.priority)) hy
      rw [decide_eq_true_eq] at hlt hsame
      rw [heq, hsame] at hlt
      exact UInt64.lt_irrefl _ hlt
    rw [hhigh, List.nil_append] at hxs
    rw [hhigh, hxs, List.nil_append]
  · rw [if_neg (by simpa using heq), if_neg (by simpa using heq), hxs]

theorem sublist_insertReturned (x : Extrinsic) (xs : List Extrinsic) :
    xs.Sublist (insertReturned x xs) := by
  conv_lhs => rw [← takeWhile_append_dropWhile x xs]
  exact (List.Sublist.refl _).append (List.sublist_cons_self x _)

variable [Crypto] {l : PriorityList} {x : Extrinsic}

/-- **What is taken back goes ahead at its priority**, in the order that it is given back in. -/
theorem ofPriority_giveBack (l : PriorityList) (xs : List Extrinsic) (priority : UInt64) :
    ofPriority priority (l.giveBack xs).2.items =
      ofPriority priority (l.giveBack xs).1 ++ ofPriority priority l.items := by
  induction xs with
  | nil => rfl
  | cons x xs ih =>
    simp only [giveBack, giveBackOne]
    split
    · exact ih
    · rw [ofPriority_insertReturned]
      simp only [ofPriority, List.filter_cons, List.cons_append, List.nil_append] at ih ⊢
      rw [ih]
      split <;> rfl

theorem sublist_giveBack (l : PriorityList) (xs : List Extrinsic) :
    l.items.Sublist (l.giveBack xs).2.items := by
  induction xs with
  | nil => exact .refl _
  | cons x xs ih =>
    simp only [giveBack, giveBackOne]
    split
    · exact ih
    · exact ih.trans (sublist_insertReturned x _)

/-- The extrinsics that a list would take back if it had room: those that it allows and does not have,
and of several with one identifier the last one. -/
def acceptable (l : PriorityList) (xs : List Extrinsic) : List Extrinsic :=
  (xs.filter fun x => x.id ∉ l.ids ∧ l.config.Allows x).pwFilter fun x y => x.id ≠ y.id

theorem acceptable_cons (l : PriorityList) (x : Extrinsic) (xs : List Extrinsic) :
    l.acceptable (x :: xs) =
      if x.id ∉ (l.acceptable xs).map Extrinsic.id ∧ x.id ∉ l.ids ∧ l.config.Allows x
      then x :: l.acceptable xs else l.acceptable xs := by
  have hfresh : (∀ y ∈ l.acceptable xs, x.id ≠ y.id) ↔
      x.id ∉ (l.acceptable xs).map Extrinsic.id := by
    simp [eq_comm]
  by_cases hgood : x.id ∉ l.ids ∧ l.config.Allows x
  · rw [acceptable, List.filter_cons_of_pos (by simpa using hgood)]
    by_cases hnew : ∀ y ∈ l.acceptable xs, x.id ≠ y.id
    · exact (List.pwFilter_cons_of_pos hnew).trans (if_pos ⟨hfresh.1 hnew, hgood⟩).symm
    · exact (List.pwFilter_cons_of_neg hnew).trans (if_neg fun h => hnew (hfresh.2 h.1)).symm
  · rw [if_neg fun h => hgood h.2, acceptable, List.filter_cons_of_neg (by simpa using hgood)]
    rfl

/-- The next extrinsic is taken back unless it is there, not allowed, or there is no room. -/
theorem giveBack_cons_taken (l : PriorityList) (x : Extrinsic) (xs : List Extrinsic) :
    (l.giveBack (x :: xs)).1 =
      if x.id ∉ (l.giveBack xs).2.ids ∧ l.config.Allows x ∧
        (l.giveBack xs).2.items.length < l.config.capacity
      then x :: (l.giveBack xs).1 else (l.giveBack xs).1 := by
  have hnone := refusal?_eq_none_iff (l := (l.giveBack xs).2) (x := x)
  rw [config_giveBack] at hnone
  simp only [giveBack, giveBackOne]
  split
  · rename_i hrefused
    rw [if_neg fun h => by rw [hnone.2 h] at hrefused; cases hrefused]
    rfl
  · rename_i hfree
    rw [if_pos (hnone.1 hfree)]
    rfl

theorem mem_ids_giveBack (l : PriorityList) (xs : List Extrinsic) (id : ExtrinsicId) :
    id ∈ (l.giveBack xs).2.ids ↔ id ∈ (l.giveBack xs).1.map Extrinsic.id ∨ id ∈ l.ids := by
  rw [ids, ← ((perm_giveBack l xs).map Extrinsic.id).mem_iff, List.map_append, List.mem_append, ids]

omit [Crypto] in
theorem rtake_of_le {xs : List Extrinsic} {room : Nat} (h : xs.length ≤ room) :
    xs.rtake room = xs := by
  rw [List.rtake, Nat.sub_eq_zero_of_le h, List.drop_zero]

omit [Crypto] in
theorem rtake_cons_of_le {xs : List Extrinsic} {room : Nat} (x : Extrinsic)
    (h : room ≤ xs.length) : (x :: xs).rtake room = xs.rtake room := by
  rw [List.rtake, List.rtake, List.length_cons, Nat.succ_sub h, List.drop_succ_cons]

/-- **The last of the acceptable extrinsics are taken back, as many as there is room for.** -/
theorem giveBack_taken (l : PriorityList) (xs : List Extrinsic) :
    (l.giveBack xs).1 = (l.acceptable xs).rtake (l.config.capacity - l.items.length) := by
  induction xs with
  | nil => exact (List.rtake_nil _).symm
  | cons x xs ih =>
    have hlength := (perm_giveBack l xs).length_eq
    have hids := mem_ids_giveBack l xs x.id
    rw [giveBack_cons_taken, acceptable_cons]
    simp only [hids]
    rw [List.length_append, ih, List.rtake, List.length_drop] at hlength
    by_cases hroom : (l.acceptable xs).length < l.config.capacity - l.items.length
    · -- all acceptable ones were taken so far, and one more is if it is acceptable
      rw [ih, rtake_of_le (Nat.le_of_lt hroom)]
      by_cases hgood : x.id ∉ (l.acceptable xs).map Extrinsic.id ∧ x.id ∉ l.ids ∧
          l.config.Allows x
      · rw [if_pos hgood, if_pos ⟨not_or.2 ⟨hgood.1, hgood.2.1⟩, hgood.2.2, by omega⟩,
          rtake_of_le (by rw [List.length_cons]; omega)]
      · rw [if_neg hgood, if_neg, rtake_of_le (Nat.le_of_lt hroom)]
        rintro ⟨hnew, hallowed, -⟩
        exact hgood ⟨(not_or.1 hnew).1, (not_or.1 hnew).2, hallowed⟩
    · -- there is no room for more
      rw [if_neg fun h => by omega, ih]
      split
      · rw [rtake_cons_of_le x (Nat.le_of_not_lt hroom)]
      · rfl

/-- **An allowed extrinsic that is given back is there afterwards, or the list is full.** -/
theorem mem_ids_giveBack_or {xs : List Extrinsic} (hx : x ∈ xs) (hallowed : l.config.Allows x) :
    x.id ∈ (l.giveBack xs).2.ids ∨ l.config.capacity ≤ (l.giveBack xs).2.items.length := by
  by_cases hroom : (l.acceptable xs).length ≤ l.config.capacity - l.items.length
  · left
    rw [mem_ids_giveBack, giveBack_taken, rtake_of_le hroom]
    by_contra hout
    obtain ⟨hnew, hold⟩ := not_or.1 hout
    have hapart : ∀ y ∈ l.acceptable xs, x.id ≠ y.id := by simpa [eq_comm] using hnew
    -- if it differs from those that are kept then from all
    rw [acceptable, List.forall_mem_pwFilter] at hapart
    · refine hapart x (List.mem_filter.2 ⟨hx, ?_⟩) rfl
      simpa using ⟨hold, hallowed⟩
    · intro y z w hne
      by_contra hsame
      simp only [not_or, not_not] at hsame
      exact hne (hsame.1.trans hsame.2)
  · right
    have hlength := (perm_giveBack l xs).length_eq
    rw [List.length_append, giveBack_taken, List.rtake, List.length_drop] at hlength
    omega

end PriorityList

/-! ### Revising what is pending -/

variable [Crypto] {config : MempoolConfig} {p : Mempool} {l : PriorityList}
  {before retracted applied after : List Extrinsic}

/-- The pending extrinsics that did not go on the chain. -/
def staying (before applied : List Extrinsic) : List Extrinsic :=
  before.filter fun x => x.id ∉ applied.map Extrinsic.id

/-- The extrinsics that come back to a pool: of those that came off the chain, did not go on it again,
and are allowed and not pending, the last ones that there is room for.  Of several with one identifier
the last one counts. -/
def MempoolConfig.returned (config : MempoolConfig) (before retracted applied : List Extrinsic) :
    List Extrinsic :=
  ((retracted.filter fun x => x.id ∉ applied.map Extrinsic.id ∧ x.id ∉ before.map Extrinsic.id ∧
      config.Allows x).pwFilter fun x y => x.id ≠ y.id).rtake
    (config.capacity - (staying before applied).length)

theorem MempoolConfig.returned_sublist (config : MempoolConfig)
    (before retracted applied : List Extrinsic) :
    (config.returned before retracted applied).Sublist retracted :=
  (List.drop_sublist _ _).trans ((List.pwFilter_sublist _).trans List.filter_sublist)

/-- What is pending after some extrinsics came off the chain, oldest first, and others went on it. -/
structure Revised (config : MempoolConfig) (before retracted applied after : List Extrinsic) :
    Prop where
  nodup : (after.map Extrinsic.id).Nodup
  length_le : after.length ≤ config.capacity
  /-- Higher priorities come first. -/
  descending : after.Pairwise fun x y => y.priority ≤ x.priority
  /-- Only what came off the chain comes back, in the order that it had there. -/
  in_order : (config.returned before retracted applied).Sublist retracted
  /-- At each priority the returned ones are ahead, and both keep their order. -/
  at_priority : ∀ priority, ofPriority priority after =
    ofPriority priority (config.returned before retracted applied) ++
      ofPriority priority (staying before applied)
  /-- What was pending keeps its order. -/
  stays : (staying before applied).Sublist after
  /-- What is pending was pending or came off the chain, and did not go on it. -/
  mem_ids : ∀ id, id ∈ after.map Extrinsic.id ↔
    (id ∈ before.map Extrinsic.id ∨
      id ∈ (config.returned before retracted applied).map Extrinsic.id) ∧
    id ∉ applied.map Extrinsic.id
  /-- Only the limits keep out what came off the chain and did not go on it again. -/
  left_out : ∀ x ∈ retracted, x.id ∉ applied.map Extrinsic.id →
    x.id ∉ after.map Extrinsic.id → ¬ config.Allows x ∨ after.length = config.capacity

theorem mem_map_id_staying (id : ExtrinsicId) : id ∈ (staying before applied).map Extrinsic.id ↔
    id ∈ before.map Extrinsic.id ∧ id ∉ applied.map Extrinsic.id := by
  simp only [staying, List.mem_map, List.mem_filter, decide_eq_true_eq]
  constructor
  · rintro ⟨x, ⟨hx, hout⟩, rfl⟩
    exact ⟨⟨x, hx, rfl⟩, hout⟩
  · rintro ⟨⟨x, hx, rfl⟩, hout⟩
    exact ⟨x, ⟨hx, hout⟩, rfl⟩

theorem MempoolConfig.of_mem_returned {x : Extrinsic}
    (hx : x ∈ config.returned before retracted applied) : x.id ∉ applied.map Extrinsic.id := by
  have hkept := List.mem_filter.1 ((List.pwFilter_sublist _).subset (List.mem_of_mem_drop hx))
  exact (of_decide_eq_true hkept.2).1

namespace PriorityList

theorem giveBack_prune_taken (l : PriorityList) (retracted applied : List Extrinsic) :
    ((l.prune (applied.map Extrinsic.id)).giveBack
        (retracted.filter fun x => x.id ∉ applied.map Extrinsic.id)).1 =
      l.config.returned l.items retracted applied := by
  rw [giveBack_taken, acceptable, List.filter_filter]
  refine congrArg (fun xs => List.rtake (List.pwFilter _ xs) _) (List.filter_congr fun x _ => ?_)
  have hids : x.id ∈ (l.prune (applied.map Extrinsic.id)).ids ↔
      x.id ∈ l.items.map Extrinsic.id ∧ x.id ∉ applied.map Extrinsic.id :=
    mem_map_id_staying x.id
  rw [← Bool.decide_and, decide_eq_decide, hids]
  tauto

/-- **A proper list is revised** when extrinsics go out of it and others are given back. -/
theorem Proper.revised (h : l.Proper) (retracted applied : List Extrinsic) :
    Revised l.config l.items retracted applied
      ((l.prune (applied.map Extrinsic.id)).giveBack
        (retracted.filter fun x => x.id ∉ applied.map Extrinsic.id)).2.items := by
  have htaken := l.giveBack_prune_taken retracted applied
  generalize hback : (retracted.filter fun x => x.id ∉ applied.map Extrinsic.id) = back at htaken ⊢
  have hpruned : (l.prune (applied.map Extrinsic.id)).Proper := h.sublist List.filter_sublist
  have hafter := hpruned.giveBack back
  have hconfig := (l.prune (applied.map Extrinsic.id)).config_giveBack back
  have hlength := hafter.length_le
  rw [hconfig] at hlength
  refine ⟨hafter.nodup, hlength, hafter.sorted, l.config.returned_sublist _ _ _, fun priority => ?_,
    sublist_giveBack (l.prune (applied.map Extrinsic.id)) back,
    fun id => ?_, fun x hx hout hgone => ?_⟩
  · rw [ofPriority_giveBack, htaken]
    rfl
  · have hids := mem_ids_giveBack (l.prune (applied.map Extrinsic.id)) back id
    have hstay : id ∈ (l.prune (applied.map Extrinsic.id)).ids ↔
      id ∈ l.items.map Extrinsic.id ∧ id ∉ applied.map Extrinsic.id := mem_map_id_staying id
    have hreturned : id ∈ (l.config.returned l.items retracted applied).map Extrinsic.id →
        id ∉ applied.map Extrinsic.id := by
      intro hmem
      obtain ⟨x, hx, rfl⟩ := List.mem_map.1 hmem
      exact MempoolConfig.of_mem_returned hx
    rw [htaken, hstay] at hids
    exact hids.trans (by tauto)
  -- an extrinsic that is allowed and did not come back found no room
  · by_contra hboth
    obtain ⟨hallowed, hroom⟩ := not_or.1 hboth
    have hmem : x ∈ back := by
      rw [← hback]
      exact List.mem_filter.2 ⟨hx, decide_eq_true hout⟩
    rcases mem_ids_giveBack_or hmem (l := l.prune (applied.map Extrinsic.id))
      (not_not.1 hallowed) with hin | hfull
    · exact hgone hin
    · exact hroom (Nat.le_antisymm hlength hfull)

end PriorityList

namespace Mempool

/-- The pending extrinsics, in the order in which they are handed out. -/
def extrinsics (p : Mempool) : List Extrinsic :=
  p.pending.filterMap fun id => (p.entries.find? id).map Prod.snd

theorem Refines.extrinsics_eq (h : p.Refines l) : p.extrinsics = l.items := by
  obtain ⟨hpulled, -⟩ := h.pull p.pending.length
  have hlength : p.pending.length = l.items.length := by
    rw [h.pending_eq, PriorityList.ids, List.length_map]
  rw [Mempool.pull, List.take_length, PriorityList.pull, hlength, List.take_length] at hpulled
  exact hpulled

/-- **A pool that has grown is a proper list.** -/
theorem Grown.refines (h : Grown config p) : ∃ l, p.Refines l ∧ l.Proper ∧ l.config = config := by
  induction h with
  | empty => exact ⟨_, refines_empty config, PriorityList.proper_nil config, rfl⟩
  | submit _ hsubmit ih =>
    obtain ⟨l, hl, hproper, hconfig⟩ := ih
    have hnone := (hl.refusal?_eq _).symm.trans (submit_ok_cases hsubmit).1
    obtain ⟨p', hok, hp'⟩ := hl.submit hnone
    rw [hsubmit] at hok
    cases hok
    exact ⟨_, hp', hproper.submit hnone, hconfig⟩
  | giveBack _ xs ih =>
    obtain ⟨l, hl, hproper, hconfig⟩ := ih
    exact ⟨_, (hl.giveBack xs).2, hproper.giveBack xs, (l.config_giveBack xs).trans hconfig⟩
  | prune _ ids ih =>
    obtain ⟨l, hl, hproper, hconfig⟩ := ih
    exact ⟨_, hl.prune ids, hproper.sublist List.filter_sublist, hconfig⟩

theorem Grown.map_id_extrinsics (h : Grown config p) : p.extrinsics.map Extrinsic.id = p.pending := by
  obtain ⟨l, hl, -⟩ := h.refines
  rw [hl.extrinsics_eq, hl.pending_eq, PriorityList.ids]

theorem Grown.pulled_eq (h : Grown config p) (max : Nat) :
    (p.pull max).1 = p.extrinsics.take max := by
  obtain ⟨l, hl, -⟩ := h.refines
  rw [hl.extrinsics_eq, (hl.pull max).1, PriorityList.pull]

/-- **What was handed out comes back to where it was**, be it all or some of it. -/
theorem Grown.extrinsics_giveBack_pulled (h : Grown config p) (max : Nat) {back : List Extrinsic}
    (hback : back.Sublist (p.extrinsics.take max)) :
    ((p.pull max).2.giveBack back).2.extrinsics = back ++ p.extrinsics.drop max := by
  obtain ⟨l, hl, hproper, -⟩ := h.refines
  rw [hl.extrinsics_eq] at hback ⊢
  have hparts : (back ++ l.items.drop max).Sublist l.items := by
    have hboth := hback.append (List.Sublist.refl (l.items.drop max))
    rwa [List.take_append_drop] at hboth
  have hfront := PriorityList.giveBack_front back (l.items.drop max) (hproper.sublist hparts)
  rw [((hl.pull max).2.giveBack back).2.extrinsics_eq, PriorityList.pull, hfront]

/-- **A pool is revised** when extrinsics go out of it and others are given back. -/
theorem Grown.revised (h : Grown config p) (retracted applied : List Extrinsic) :
    Revised config p.extrinsics retracted applied
      ((p.prune (applied.map Extrinsic.id)).giveBack
        (retracted.filter fun x => x.id ∉ applied.map Extrinsic.id)).2.extrinsics := by
  obtain ⟨l, hl, hproper, rfl⟩ := h.refines
  rw [hl.extrinsics_eq, ((hl.prune (applied.map Extrinsic.id)).giveBack _).2.extrinsics_eq]
  exact hproper.revised retracted applied

end Mempool

end LedgerChain
