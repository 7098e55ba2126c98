import LedgerChain.Proofs.Mempool.PriorityList

/-!
# Pools behave as priority lists

A pool **refines** a priority list if the extrinsics of its rows are those of the list
(`Mempool.Refines`).  Each operation of a pool gives the answer that the list gives, and leads to a
pool that refines what it leads the list to (`Refines.perform`), so pools that started empty cannot be
told from lists that did (`Mempool.behaves_as_priorityList`).
-/

namespace LedgerChain

namespace Mempool

variable [Crypto] {p p' : Mempool} {l : PriorityList} {x : Extrinsic} {id : ExtrinsicId}

/-- What a pool answers to an operation, and what it is like afterwards. -/
def perform (p : Mempool) : MempoolOperation → MempoolAnswer × Mempool
  | .submit x =>
    match p.submit x with
    | .error e => (.refused e, p)
    | .ok p' => (.taken, p')
  | .giveBack xs => (.returned (p.giveBack xs).1, (p.giveBack xs).2)
  | .pull max => (.pulled (p.pull max).1, (p.pull max).2)
  | .prune ids => (.pruned, p.prune ids)
  | .contains id => (.contained (p.contains id), p)
  | .size => (.counted p.size, p)

theorem count_giveBack_cons (p : Mempool) (x : Extrinsic) (xs : List Extrinsic) :
    (p.giveBack (x :: xs)).1 = (p.giveBack xs).1 + ((p.giveBack xs).2.giveBackOne x).1.toNat := by
  simp only [giveBack, List.reverse_cons, List.foldl_append, List.foldl_cons, List.foldl_nil]
  split <;> simp_all

/-- The extrinsics of the pool's rows are those of a list with the same limits. -/
def Refines (p : Mempool) (l : PriorityList) : Prop :=
  p.config = l.config ∧ ∃ rows, p.Lists rows ∧ l.items = rows.map Prod.snd

namespace Refines

theorem pending_eq (h : p.Refines l) : p.pending = l.ids := by
  obtain ⟨-, rows, hrows, hitems⟩ := h
  rw [hrows.pending_eq, PriorityList.ids, hitems, List.map_map]
  rfl

theorem size_eq (h : p.Refines l) : p.size = l.items.length := by
  obtain ⟨-, rows, hrows, hitems⟩ := h
  rw [hrows.size_eq, hitems, List.length_map]

theorem contains_eq (h : p.Refines l) (id : ExtrinsicId) :
    p.contains id = decide (id ∈ l.ids) := by
  obtain ⟨-, rows, hrows, hitems⟩ := h
  have hids : l.ids = rows.map fun r => r.2.id := by
    rw [PriorityList.ids, hitems, List.map_map]
    rfl
  rw [Bool.eq_iff_iff, decide_eq_true_eq, hids]
  exact hrows.contains_iff

theorem refusal?_eq (h : p.Refines l) (x : Extrinsic) : p.refusal? x.id x = l.refusal? x := by
  simp only [Mempool.refusal?, PriorityList.refusal?, h.contains_eq, h.size_eq, h.1,
    decide_eq_true_eq]

/-- **A submitted extrinsic goes where it goes in the list.** -/
theorem submit (h : p.Refines l) (hnone : l.refusal? x = none) :
    ∃ p', p.submit x = .ok p' ∧ p'.Refines { l with items := insertFresh x l.items } := by
  have hnone' : p.refusal? x.id x = none := (h.refusal?_eq x).trans hnone
  obtain ⟨hconfig, rows, hrows, hitems⟩ := h
  obtain ⟨early, late, rfl, hearly, hlate⟩ := hrows.fresh_split x.priority
  refine ⟨{ p.insertAt ⟨x.priority, p.nextNumber⟩ x.id x with nextNumber := p.nextNumber + 1 },
    by simp only [Mempool.submit, hnone'], hconfig,
    early ++ (⟨x.priority, p.nextNumber⟩, x) :: late, ?_, ?_⟩
  · have hnext : p.nextNumber < p.nextNumber + 1 := Int.lt_succ _
    exact hrows.takeIn (refusal?_eq_none_iff.1 hnone').1 (fun r hr => (hearly r hr).1)
      (fun r hr => (hlate r hr).1) rfl rfl rfl (Int.le_refl _) (Int.le_of_lt hnext)
      ⟨hrows.counters, hnext⟩
  · show insertFresh x l.items = _
    rw [hitems, List.map_append, PriorityList.insertFresh_append, List.map_append, List.map_cons]
    · exact List.forall_mem_map.2 fun r hr => (hearly r hr).2
    · exact List.forall_mem_map.2 fun r hr => (hlate r hr).2

/-- **An extrinsic that comes back goes where it goes in the list**, or is refused by both. -/
theorem giveBackOne (h : p.Refines l) (x : Extrinsic) :
    (p.giveBackOne x).1.toNat = (l.giveBackOne x).1.length ∧
      (p.giveBackOne x).2.Refines (l.giveBackOne x).2 := by
  have hsame := h.refusal?_eq x
  rw [Mempool.giveBackOne, PriorityList.giveBackOne, hsame]
  cases hnone : l.refusal? x with
  | some e => exact ⟨rfl, h⟩
  | none =>
    obtain ⟨hconfig, rows, hrows, hitems⟩ := h
    obtain ⟨early, late, rfl, hearly, hlate⟩ := hrows.returned_split x.priority
    refine ⟨rfl, hconfig, early ++ (⟨x.priority, p.nextReturned⟩, x) :: late, ?_, ?_⟩
    · have hnext : p.nextReturned - 1 < p.nextReturned := Int.sub_one_lt_of_le (Int.le_refl _)
      exact hrows.takeIn (refusal?_eq_none_iff.1 (hsame.trans hnone)).1
        (fun r hr => (hearly r hr).1) (fun r hr => (hlate r hr).1) rfl rfl rfl
        (Int.le_of_lt hnext) (Int.le_refl _) ⟨hnext, hrows.counters⟩
    · show insertReturned x l.items = _
      rw [hitems, List.map_append, PriorityList.insertReturned_append, List.map_append,
        List.map_cons]
      · exact List.forall_mem_map.2 fun r hr => (hearly r hr).2
      · exact List.forall_mem_map.2 fun r hr => (hlate r hr).2

theorem giveBack (h : p.Refines l) (xs : List Extrinsic) :
    (p.giveBack xs).1 = (l.giveBack xs).1.length ∧
      (p.giveBack xs).2.Refines (l.giveBack xs).2 := by
  induction xs with
  | nil => exact ⟨rfl, h⟩
  | cons x xs ih =>
    obtain ⟨hcount, hrest⟩ := ih
    obtain ⟨hone, hnext⟩ := hrest.giveBackOne x
    refine ⟨?_, by rwa [giveBack_cons]⟩
    rw [count_giveBack_cons, hcount, hone, PriorityList.giveBack, List.length_append, Nat.add_comm]

theorem pull (h : p.Refines l) (max : Nat) :
    (p.pull max).1 = (l.pull max).1 ∧ (p.pull max).2.Refines (l.pull max).2 := by
  obtain ⟨hconfig, rows, hrows, hitems⟩ := h
  obtain ⟨hpulled, hrest⟩ := hrows.pull_eq max
  refine ⟨?_, (config_prune p _).trans hconfig, rows.drop max, hrest, ?_⟩
  · rw [hpulled, PriorityList.pull, hitems, List.map_take]
  · rw [PriorityList.pull, hitems, List.map_drop]

theorem prune (h : p.Refines l) (ids : List ExtrinsicId) :
    (p.prune ids).Refines (l.prune ids) := by
  obtain ⟨hconfig, rows, hrows, hitems⟩ := h
  refine ⟨(config_prune p ids).trans hconfig, _, hrows.prune ids, ?_⟩
  rw [PriorityList.prune, hitems, List.filter_map]
  rfl

/-- **Each operation is answered as the list answers it**, and leads to where it leads the list. -/
theorem perform (h : p.Refines l) (op : MempoolOperation) :
    (p.perform op).1 = (l.perform op).1 ∧ (p.perform op).2.Refines (l.perform op).2 := by
  cases op with
  | submit x =>
    simp only [Mempool.perform, PriorityList.perform]
    cases hnone : l.refusal? x with
    | some e =>
      have herror : p.submit x = .error e := by
        rw [Mempool.submit, h.refusal?_eq, hnone]
      rw [herror]
      exact ⟨rfl, h⟩
    | none =>
      obtain ⟨p', hok, hp'⟩ := h.submit hnone
      rw [hok]
      exact ⟨rfl, hp'⟩
  | giveBack xs =>
    obtain ⟨hcount, hrest⟩ := h.giveBack xs
    exact ⟨congrArg MempoolAnswer.returned hcount, hrest⟩
  | pull max =>
    obtain ⟨hpulled, hrest⟩ := h.pull max
    exact ⟨congrArg MempoolAnswer.pulled hpulled, hrest⟩
  | prune ids => exact ⟨rfl, h.prune ids⟩
  | contains id => exact ⟨congrArg MempoolAnswer.contained (h.contains_eq id), h⟩
  | size => exact ⟨congrArg MempoolAnswer.counted h.size_eq, h⟩

theorem performEach (h : p.Refines l) (ops : List MempoolOperation) :
    (LedgerChain.performEach Mempool.perform p ops).1 =
        (LedgerChain.performEach PriorityList.perform l ops).1 ∧
      (LedgerChain.performEach Mempool.perform p ops).2.Refines
        (LedgerChain.performEach PriorityList.perform l ops).2 := by
  induction ops generalizing p l with
  | nil => exact ⟨rfl, h⟩
  | cons op ops ih =>
    obtain ⟨hanswer, hnext⟩ := h.perform op
    obtain ⟨hanswers, hlast⟩ := ih hnext
    exact ⟨congrArg₂ List.cons hanswer hanswers, hlast⟩

end Refines

theorem refines_empty (config : MempoolConfig) : Refines { config } { config } :=
  ⟨rfl, [], lists_empty config, rfl⟩

end Mempool

/-- **A pool is a stable priority list.**  Whatever it is asked for, from the start on, it answers as
the list does, and its extrinsics are pending in the order of the list.

* No identifier is pending twice, there is never more pending than the capacity allows, and
  priorities descend.
* All extrinsics that were taken in are pending or were taken out, each as often.
* Extrinsics that are given back as soon as they were handed out are all taken, and what is pending is
  what was pending before. -/
theorem Mempool.behaves_as_priorityList [Crypto] (config : MempoolConfig)
    (ops : List MempoolOperation) :
    let pool := performEach Mempool.perform { config } ops
    let list := performEach PriorityList.perform { config } ops
    pool.1 = list.1 ∧ pool.2.pending = list.2.ids ∧
      (list.2.config = config ∧ list.2.Proper) ∧
      (PriorityList.along PriorityList.incoming { config } ops).Perm
        (PriorityList.along PriorityList.outgoing { config } ops ++ list.2.items) ∧
      ∀ max, (pool.2.pull max).1 = list.2.items.take max ∧
        ((pool.2.pull max).2.giveBack (pool.2.pull max).1).1 = (pool.2.pull max).1.length ∧
        ((pool.2.pull max).2.giveBack (pool.2.pull max).1).2.pending = pool.2.pending := by
  intro pool list
  have hlimits : list.2.config = config ∧ list.2.Proper :=
    performEach_induct (P := fun l : PriorityList => l.config = config ∧ l.Proper)
      (fun l op h => ⟨(l.config_perform op).trans h.1, h.2.perform op⟩)
      ⟨rfl, PriorityList.proper_nil config⟩ ops
  have hmoved := PriorityList.perm_performEach { config } ops
  rw [List.append_nil] at hmoved
  obtain ⟨hanswers, hlast⟩ := (refines_empty config).performEach ops
  refine ⟨hanswers, hlast.pending_eq, hlimits, hmoved, fun max => ?_⟩
  obtain ⟨hpulled, hrest⟩ := hlast.pull max
  obtain ⟨hcount, hback⟩ := hrest.giveBack (list.2.pull max).1
  rw [PriorityList.giveBack_pull hlimits.2] at hcount hback
  rw [hpulled]
  exact ⟨rfl, hcount, hback.pending_eq.trans hlast.pending_eq.symm⟩

end LedgerChain
