import LedgerChain.Proofs.Mempool.Rows
import Mathlib.Data.List.DropRight

/-!
# The pool as a stable priority list

What a pool is meant to be is a plain list of extrinsics (`PriorityList`).  A submitted extrinsic goes
after the last one of at least its priority, a returned one before the first one of at most its
priority, and extrinsics are handed out from the front.

* `PriorityList.Proper` : the list has no identifier twice, is within its capacity, and is in the order
  of descending priorities; every operation keeps this.
* `PriorityList.perm_performEach` : what came in is what went out and what is still there.
* `PriorityList.giveBack_pull` : handing out and giving back leaves the list as it was.
* `Mempool.Refines` : a pool gives the answers of its list, operation by operation.
-/

namespace LedgerChain

/-! ### The list -/

/-- Puts an extrinsic after the last one of at least its priority. -/
def insertFresh (x : Extrinsic) (xs : List Extrinsic) : List Extrinsic :=
  xs.rdropWhile (fun y => y.priority < x.priority) ++
    x :: xs.rtakeWhile fun y => y.priority < x.priority

/-- Puts an extrinsic before the first one of at most its priority. -/
def insertReturned (x : Extrinsic) (xs : List Extrinsic) : List Extrinsic :=
  xs.takeWhile (fun y => x.priority < y.priority) ++
    x :: xs.dropWhile fun y => x.priority < y.priority

/-- A list of extrinsics with the limits of a pool. -/
structure PriorityList where
  config : MempoolConfig
  /-- The extrinsics, first one first. -/
  items : List Extrinsic := []

/-- What can be asked of a pool. -/
inductive MempoolOperation where
  | submit (x : Extrinsic)
  | giveBack (xs : List Extrinsic)
  | pull (max : Nat)
  | prune (ids : List ExtrinsicId)
  | contains (id : ExtrinsicId)
  | size

/-- What a pool answers. -/
inductive MempoolAnswer where
  | taken
  | refused (e : MempoolError)
  | returned (count : Nat)
  | pulled (xs : List Extrinsic)
  | pruned
  | contained (yes : Bool)
  | counted (size : Nat)
deriving DecidableEq

/-- The answers to some operations, one after the other, and where they lead. -/
def performEach {σ : Type} (perform : σ → MempoolOperation → MempoolAnswer × σ) :
    σ → List MempoolOperation → List MempoolAnswer × σ
  | s, [] => ([], s)
  | s, op :: ops =>
    let (answer, s') := perform s op
    let (answers, s'') := performEach perform s' ops
    (answer :: answers, s'')

theorem performEach_induct {σ : Type} {perform : σ → MempoolOperation → MempoolAnswer × σ}
    {P : σ → Prop} (hstep : ∀ s op, P s → P (perform s op).2) {s : σ} (hs : P s)
    (ops : List MempoolOperation) : P (performEach perform s ops).2 := by
  induction ops generalizing s with
  | nil => exact hs
  | cons op ops ih => exact ih (hstep s op hs)

namespace PriorityList

variable [Crypto]

/-- The identifiers, first one first. -/
def ids (l : PriorityList) : List ExtrinsicId := l.items.map Extrinsic.id

/-- Why an extrinsic would not be taken: the first of four reasons that applies. -/
def refusal? (l : PriorityList) (x : Extrinsic) : Option MempoolError :=
  if x.id ∈ l.ids then some (.alreadyKnown x.id)
  else if x.priority < l.config.minPriority then
    some (.priorityTooLow x.priority l.config.minPriority)
  else if l.config.maxExtrinsicSize < x.size then
    some (.tooLarge x.size l.config.maxExtrinsicSize)
  else if l.config.capacity ≤ l.items.length then
    some (.poolFull l.items.length l.config.capacity)
  else none

/-- Gives an extrinsic back, unless it is refused.  Also tells what was taken. -/
def giveBackOne (l : PriorityList) (x : Extrinsic) : List Extrinsic × PriorityList :=
  match l.refusal? x with
  | some _ => ([], l)
  | none => ([x], { l with items := insertReturned x l.items })

/-- Gives extrinsics back, from the last one to the first.  Also tells which were taken. -/
def giveBack (l : PriorityList) : List Extrinsic → List Extrinsic × PriorityList
  | [] => ([], l)
  | x :: xs =>
    let (taken, l') := l.giveBack xs
    let (one, l'') := l'.giveBackOne x
    (one ++ taken, l'')

/-- Takes out the first extrinsics, at most `max` of them. -/
def pull (l : PriorityList) (max : Nat) : List Extrinsic × PriorityList :=
  (l.items.take max, { l with items := l.items.drop max })

/-- Takes out the extrinsics with the given identifiers. -/
def prune (l : PriorityList) (ids : List ExtrinsicId) : PriorityList :=
  { l with items := l.items.filter fun x => x.id ∉ ids }

/-- What a list answers to an operation, and what it is like afterwards. -/
def perform (l : PriorityList) : MempoolOperation → MempoolAnswer × PriorityList
  | .submit x =>
    match l.refusal? x with
    | some e => (.refused e, l)
    | none => (.taken, { l with items := insertFresh x l.items })
  | .giveBack xs => (.returned (l.giveBack xs).1.length, (l.giveBack xs).2)
  | .pull max => (.pulled (l.pull max).1, (l.pull max).2)
  | .prune ids => (.pruned, l.prune ids)
  | .contains id => (.contained (decide (id ∈ l.ids)), l)
  | .size => (.counted l.items.length, l)

/-- The extrinsics that an operation takes in. -/
def incoming (l : PriorityList) : MempoolOperation → List Extrinsic
  | .submit x =>
    match l.refusal? x with
    | some _ => []
    | none => [x]
  | .giveBack xs => (l.giveBack xs).1
  | _ => []

/-- The extrinsics that an operation takes out. -/
def outgoing (l : PriorityList) : MempoolOperation → List Extrinsic
  | .pull max => (l.pull max).1
  | .prune ids => l.items.filter fun x => x.id ∈ ids
  | _ => []

/-- What operations take in or out, one after the other. -/
def along (moved : PriorityList → MempoolOperation → List Extrinsic) (l : PriorityList) :
    List MempoolOperation → List Extrinsic
  | [] => []
  | op :: ops => moved l op ++ along moved (l.perform op).2 ops

/-- A list that is as a pool should be. -/
structure Proper (l : PriorityList) : Prop where
  nodup : l.ids.Nodup
  length_le : l.items.length ≤ l.config.capacity
  /-- The priorities descend. -/
  sorted : l.items.Pairwise fun x y => y.priority ≤ x.priority
  allowed : ∀ x ∈ l.items, l.config.Allows x

variable {l : PriorityList} {x : Extrinsic} {xs early late : List Extrinsic}

theorem refusal?_eq_none_iff : l.refusal? x = none ↔
    x.id ∉ l.ids ∧ l.config.Allows x ∧ l.items.length < l.config.capacity := by
  simp only [refusal?, MempoolConfig.Allows, ← UInt64.not_lt, ← Nat.not_lt]
  split_ifs <;> simp_all

/-! ### Where extrinsics go -/

omit [Crypto]

theorem insertFresh_append (hearly : ∀ y ∈ early, x.priority ≤ y.priority)
    (hlate : ∀ y ∈ late, y.priority < x.priority) :
    insertFresh x (early ++ late) = early ++ x :: late := by
  have hdrop : (early ++ late).rdropWhile (fun y => y.priority < x.priority) = early := by
    induction late using List.reverseRecOn with
    | nil =>
      rw [List.append_nil, List.rdropWhile_eq_self_iff]
      intro hne
      simpa using hearly _ (List.getLast_mem hne)
    | append_singleton late y ih =>
      obtain ⟨hlate, hy⟩ := List.forall_mem_append.1 hlate
      rw [← List.append_assoc, List.rdropWhile_concat_pos]
      · exact ih hlate
      · simpa using hy
  have htake : (early ++ late).rdropWhile (fun y => decide (y.priority < x.priority)) ++
      (early ++ late).rtakeWhile (fun y => decide (y.priority < x.priority)) = early ++ late :=
    List.rdropWhile_append_rtakeWhile
  rw [hdrop] at htake
  rw [insertFresh, hdrop, List.append_cancel_left htake]

theorem insertReturned_append (hearly : ∀ y ∈ early, x.priority < y.priority)
    (hlate : ∀ y ∈ late, y.priority ≤ x.priority) :
    insertReturned x (early ++ late) = early ++ x :: late := by
  have htake : late.takeWhile (fun y => x.priority < y.priority) = [] := by
    cases late with
    | nil => rfl
    | cons y late => simpa using hlate y List.mem_cons_self
  have hdrop : late.takeWhile (fun y => decide (x.priority < y.priority)) ++
      late.dropWhile (fun y => decide (x.priority < y.priority)) = late :=
    List.takeWhile_append_dropWhile
  rw [htake, List.nil_append] at hdrop
  rw [insertReturned, List.takeWhile_append_of_pos, List.dropWhile_append_of_pos, htake, hdrop,
    List.append_nil]
  · simpa using hearly
  · simpa using hearly

theorem perm_insertFresh (x : Extrinsic) (xs : List Extrinsic) :
    (insertFresh x xs).Perm (x :: xs) := by
  refine List.perm_middle.trans (.of_eq (congrArg _ ?_))
  exact List.rdropWhile_append_rtakeWhile

theorem perm_insertReturned (x : Extrinsic) (xs : List Extrinsic) :
    (insertReturned x xs).Perm (x :: xs) := by
  refine List.perm_middle.trans (.of_eq (congrArg _ ?_))
  exact List.takeWhile_append_dropWhile

theorem exists_split (high : Extrinsic → Bool)
    (h : xs.Pairwise fun x y => y.priority ≤ x.priority)
    (hhigh : ∀ {x y : Extrinsic}, y.priority ≤ x.priority → high y = true → high x = true) :
    ∃ early late, xs = early ++ late ∧ (∀ y ∈ early, high y = true) ∧
      ∀ y ∈ late, ¬ high y = true := by
  induction xs with
  | nil => exact ⟨[], [], rfl, by simp, by simp⟩
  | cons x xs ih =>
    obtain ⟨hall, hrest⟩ := List.pairwise_cons.1 h
    by_cases hx : high x = true
    · obtain ⟨early, late, rfl, hearly, hlate⟩ := ih hrest
      exact ⟨x :: early, late, rfl, List.forall_mem_cons.2 ⟨hx, hearly⟩, hlate⟩
    · refine ⟨[], x :: xs, rfl, by simp, List.forall_mem_cons.2 ⟨hx, ?_⟩⟩
      intro y hy hhigh'
      exact hx (hhigh (hall y hy) hhigh')

/-! ### Lists as they should be -/

variable [Crypto]

theorem proper_nil (config : MempoolConfig) : Proper { config } :=
  ⟨List.nodup_nil, Nat.zero_le _, .nil, by simp⟩

namespace Proper

theorem sublist (h : l.Proper) (hsub : xs.Sublist l.items) : Proper { l with items := xs } where
  nodup := h.nodup.sublist (hsub.map _)
  length_le := Nat.le_trans hsub.length_le h.length_le
  sorted := h.sorted.sublist hsub
  allowed x hx := h.allowed x (hsub.subset hx)

theorem insert (h : l.Proper) (hnone : l.refusal? x = none) (hitems : l.items = early ++ late)
    (hearly : ∀ y ∈ early, x.priority ≤ y.priority)
    (hlate : ∀ y ∈ late, y.priority ≤ x.priority) :
    Proper { l with items := early ++ x :: late } := by
  obtain ⟨hnew, hallowed, hroom⟩ := refusal?_eq_none_iff.1 hnone
  have hperm : (early ++ x :: late).Perm (x :: l.items) := by
    rw [hitems]
    exact List.perm_middle
  refine ⟨?_, ?_, ?_, ?_⟩
  · exact (hperm.map Extrinsic.id).nodup_iff.2 (List.nodup_cons.2 ⟨hnew, h.nodup⟩)
  · have hlength := hperm.length_eq
    rw [List.length_cons] at hlength
    show (early ++ x :: late).length ≤ l.config.capacity
    omega
  · have hsorted := h.sorted
    rw [hitems] at hsorted
    obtain ⟨h₁, h₂, h₃⟩ := List.pairwise_append.1 hsorted
    refine List.pairwise_append.2 ⟨h₁, List.pairwise_cons.2 ⟨hlate, h₂⟩, ?_⟩
    intro y hy z hz
    rcases List.mem_cons.1 hz with rfl | hz
    · exact hearly y hy
    · exact h₃ y hy z hz
  · intro y hy
    rcases List.mem_cons.1 (hperm.subset hy) with rfl | hy
    · exact hallowed
    · exact h.allowed y hy

theorem submit (h : l.Proper) (hnone : l.refusal? x = none) :
    Proper { l with items := insertFresh x l.items } := by
  obtain ⟨early, late, hitems, hearly, hlate⟩ :=
    exists_split (fun y => x.priority ≤ y.priority) h.sorted fun hle hhigh =>
      decide_eq_true (UInt64.le_trans (of_decide_eq_true hhigh) hle)
  simp only [decide_eq_true_eq, UInt64.not_le] at hearly hlate
  rw [hitems, insertFresh_append hearly hlate]
  exact h.insert hnone hitems hearly fun y hy => UInt64.le_of_lt (hlate y hy)

theorem giveBackOne (h : l.Proper) (x : Extrinsic) : (l.giveBackOne x).2.Proper := by
  rw [PriorityList.giveBackOne]
  split
  · exact h
  · rename_i hnone
    obtain ⟨early, late, hitems, hearly, hlate⟩ :=
      exists_split (fun y => x.priority < y.priority) h.sorted fun hle hhigh =>
        decide_eq_true (UInt64.lt_of_lt_of_le (of_decide_eq_true hhigh) hle)
    simp only [decide_eq_true_eq, UInt64.not_lt] at hearly hlate
    simp only [hitems, insertReturned_append hearly hlate]
    exact h.insert hnone hitems (fun y hy => UInt64.le_of_lt (hearly y hy)) hlate

theorem giveBack (h : l.Proper) (xs : List Extrinsic) : (l.giveBack xs).2.Proper := by
  induction xs with
  | nil => exact h
  | cons x xs ih => exact ih.giveBackOne x

/-- **Every operation keeps a list proper.** -/
theorem perform (h : l.Proper) (op : MempoolOperation) : (l.perform op).2.Proper := by
  cases op with
  | submit x =>
    simp only [PriorityList.perform]
    split
    · exact h
    · rename_i hnone
      exact h.submit hnone
  | giveBack xs => exact h.giveBack xs
  | pull max => exact h.sublist (List.drop_sublist max l.items)
  | prune ids => exact h.sublist List.filter_sublist
  | contains id => exact h
  | size => exact h

end Proper

theorem config_giveBack (l : PriorityList) (xs : List Extrinsic) :
    (l.giveBack xs).2.config = l.config := by
  induction xs with
  | nil => rfl
  | cons x xs ih =>
    simp only [giveBack, giveBackOne]
    split <;> exact ih

theorem config_perform (l : PriorityList) (op : MempoolOperation) :
    (l.perform op).2.config = l.config := by
  cases op with
  | submit x =>
    simp only [perform]
    split <;> rfl
  | giveBack xs => exact config_giveBack l xs
  | pull max => rfl
  | prune ids => rfl
  | contains id => rfl
  | size => rfl

/-! ### What comes in and what goes out -/

theorem perm_giveBack (l : PriorityList) (xs : List Extrinsic) :
    ((l.giveBack xs).1 ++ l.items).Perm (l.giveBack xs).2.items := by
  induction xs with
  | nil => exact .refl _
  | cons x xs ih =>
    simp only [giveBack, giveBackOne]
    split
    · exact ih
    · exact (ih.cons x).trans (perm_insertReturned x _).symm

/-- An operation takes out what is not there afterwards, and nothing else is gone. -/
theorem perm_perform (l : PriorityList) (op : MempoolOperation) :
    (l.incoming op ++ l.items).Perm (l.outgoing op ++ (l.perform op).2.items) := by
  cases op with
  | submit x =>
    simp only [incoming, outgoing, perform]
    cases l.refusal? x with
    | some e => exact .refl _
    | none => exact (perm_insertFresh x l.items).symm
  | giveBack xs => exact perm_giveBack l xs
  | pull max => exact .of_eq (List.take_append_drop max l.items).symm
  | prune ids =>
    have hsplit := (List.filter_append_perm (fun x => decide (x.id ∈ ids)) l.items).symm
    simpa [incoming, outgoing, perform, prune] using hsplit
  | contains id => exact .refl _
  | size => exact .refl _

/-- **What came in is what went out and what is still there**, each extrinsic as often. -/
theorem perm_performEach (l : PriorityList) (ops : List MempoolOperation) :
    (along incoming l ops ++ l.items).Perm
      (along outgoing l ops ++ (performEach perform l ops).2.items) := by
  induction ops generalizing l with
  | nil => exact .refl _
  | cons op ops ih =>
    have hfirst := perm_perform l op
    have hrest := ih (l.perform op).2
    simp only [along, performEach, List.append_assoc]
    -- the first operation's extrinsics go past those of the others, which then account for the rest
    refine (List.perm_append_comm_assoc ..).trans ((hfirst.append_left _).trans ?_)
    exact (List.perm_append_comm_assoc ..).trans (hrest.append_left _)

/-! ### Giving back what was handed out -/

theorem giveBack_front (early late : List Extrinsic)
    (h : Proper { l with items := early ++ late }) :
    giveBack { l with items := late } early = (early, { l with items := early ++ late }) := by
  induction early with
  | nil => rfl
  | cons x early ih =>
    have hrest : Proper { l with items := early ++ late } :=
      h.sublist (List.sublist_cons_self x _)
    obtain ⟨hnew, -⟩ := List.nodup_cons.1 h.nodup
    obtain ⟨hle, -⟩ := List.pairwise_cons.1 h.sorted
    have hnone : refusal? { l with items := early ++ late } x = none :=
      refusal?_eq_none_iff.2 ⟨hnew, h.allowed x List.mem_cons_self, h.length_le⟩
    have hfront : insertReturned x ([] ++ (early ++ late)) = [] ++ x :: (early ++ late) :=
      insertReturned_append (by simp) hle
    rw [List.nil_append, List.nil_append] at hfront
    simp only [giveBack, ih hrest, giveBackOne, hnone, hfront]
    rfl

/-- **Handing out and giving back leaves a list as it was.** -/
theorem giveBack_pull (h : l.Proper) (max : Nat) :
    (l.pull max).2.giveBack (l.pull max).1 = ((l.pull max).1, l) := by
  have hsplit := List.take_append_drop max l.items
  have hfront := giveBack_front (l := l) (l.items.take max) (l.items.drop max)
  rw [hsplit] at hfront
  exact hfront h

end PriorityList

end LedgerChain
