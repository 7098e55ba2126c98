import LedgerChain.Proofs.Store.Index

/-!
# Stores under any calls

A new store is asked to write blocks and pointers, while the faults that make writes fail come and
go (`StoreCall`).  Whatever it is asked, it is the record of the blocks that it took, each as it
came first (`Store.Records`): every call keeps this (`Records.perform`), so all calls do.

From the record follows what those rely on who read the store, such as a node that starts again
(`Store.tables_stay_in_step`): the index by height misses no block and has none twice, nothing that
is stored changes or goes, and pointers lead to stored blocks.

* `Records.perform_cases` : a call fails or not as its fault and its block have it, and one that
  fails changes nothing.
* `Records.addBlock`, `Records.switch` : a block that is stored is recorded, and faults that come
  and go change nothing that is.
-/

namespace LedgerChain

/-- The writes that can be made to fail. -/
inductive WriteFault where
  | blocks
  | pointers
  | finalized

/-- The faults after some writes fail from now on, or no more. -/
def Faults.switch (faults : Faults) : WriteFault → Bool → Faults
  | .blocks, fail => { faults with blockWrites := fail }
  | .pointers, fail => { faults with pointerWrites := fail }
  | .finalized, fail => { faults with finalizedWrites := fail }

/-- What can be asked of a store, and what can happen to it. -/
inductive StoreCall where
  | put (block : Block) (state : State)
  | setPointer (p : Pointer) (id : BlockId)
  | switch (fault : WriteFault) (fail : Bool)

namespace Store

/-- The answer of a write that may fail, and the store afterwards. -/
def outcome (s : Store) : Except StoreError Store → Except StoreError Unit × Store
  | .error e => (.error e, s)
  | .ok s' => (.ok (), s')

variable [Crypto]

/-- What a store answers to a call, and what it is like afterwards. -/
def perform (s : Store) : StoreCall → Except StoreError Unit × Store
  | .put block state => s.outcome (s.put block state)
  | .setPointer p id => s.outcome (s.setPointer p id)
  | .switch fault fail => (.ok (), { s with faults := s.faults.switch fault fail })

/-- Where some calls lead, one after the other. -/
def afterCalls (s : Store) (calls : List StoreCall) : Store :=
  calls.foldl (fun s call => (s.perform call).2) s

/-- The block that a call stores, with its state, also if it is there already. -/
def acceptedBy (s : Store) : StoreCall → List StoredBlock
  | .put block state =>
    match s.put block state with
    | .error _ => []
    | .ok _ => [⟨block, state⟩]
  | _ => []

/-- The blocks that some calls store, in the order of the calls. -/
def accepted (s : Store) : List StoreCall → List StoredBlock
  | [] => []
  | call :: calls => s.acceptedBy call ++ (s.perform call).2.accepted calls

/-- The first block of a list with an identifier. -/
def first? (taken : List StoredBlock) (id : BlockId) : Option StoredBlock :=
  taken.find? fun sb => sb.block.id = id

/-- When an identifier first came. -/
def turnOf (taken : List StoredBlock) (id : BlockId) : Nat :=
  taken.findIdx fun sb => sb.block.id = id

/-- A call that fails: the fault of its write is there, or the pointer is to lead to a block that is
not stored. -/
def Refuses (s : Store) : StoreCall → Prop
  | .put _ _ => s.faults.blockWrites = true
  | .setPointer p id => s.pointerFault p = true ∨ s.getBlock id = .ok none
  | _ => False

/-- What a call can do to a store: its answer, the store afterwards, and what it stores. -/
inductive Effect (s : Store) :
    StoreCall → Except StoreError Unit × Store → List StoredBlock → Prop where
  | refused {call : StoreCall} (e : StoreError) : s.Effect call (.error e, s) []
  | stored (block : Block) (state : State) :
    s.Effect (.put block state) (.ok (), s.addBlock block state) [⟨block, state⟩]
  | pointed (p : Pointer) {id : BlockId} (hin : s.blocks.contains id = true) :
    s.Effect (.setPointer p id) (.ok (), s.point p id) []
  | switched (fault : WriteFault) (fail : Bool) :
    s.Effect (.switch fault fail) (.ok (), { s with faults := s.faults.switch fault fail }) []

variable {s : Store} {taken : List StoredBlock} {id : BlockId} {p : Pointer} {block : Block}
  {state : State} {call : StoreCall} {result : Except StoreError Unit × Store}
  {stored : List StoredBlock}

/-- A store has the blocks that it took, each as it came first. -/
structure Records (s : Store) (taken : List StoredBlock) : Prop where
  indexed : s.Indexed
  find?_eq : ∀ id, s.blocks.find? id = first? taken id
  ordered : ∀ height, (s.level height).Pairwise fun a b => turnOf taken a < turnOf taken b
  pointer_stored : ∀ {p id}, s.pointer p = some id → s.blocks.contains id = true
  readable : s.faults.reads = false ∧ s.faults.lostBlocks = [] ∧ s.faults.lostStates = []

/-! ### The record -/

theorem first?_append (taken : List StoredBlock) (sb : StoredBlock) (id : BlockId) :
    first? (taken ++ [sb]) id =
      (first? taken id).or (if sb.block.id = id then some sb else none) := by
  rw [first?, List.find?_append]
  congr 1
  by_cases h : sb.block.id = id <;> simp [h]

theorem first?_of_some {sb : StoredBlock} (h : first? taken id = some sb)
    (more : List StoredBlock) : first? (taken ++ more) id = some sb := by
  rw [first?, List.find?_append, ← first?, h, Option.some_or]

theorem turnOf_lt_iff : turnOf taken id < taken.length ↔ ∃ sb, first? taken id = some sb := by
  rw [turnOf, List.findIdx_lt_length, ← Option.isSome_iff_exists, first?, List.find?_isSome]

theorem turnOf_append_of_lt {more : List StoredBlock} (h : turnOf taken id < taken.length) :
    turnOf (taken ++ more) id = turnOf taken id := by
  rw [turnOf, List.findIdx_append]
  exact if_pos h

theorem turnOf_append_self (sb : StoredBlock) (hnew : first? taken sb.block.id = none) :
    turnOf (taken ++ [sb]) sb.block.id = taken.length := by
  have hnot : ¬ turnOf taken sb.block.id < taken.length := by
    rw [turnOf_lt_iff, hnew]
    simp
  rw [turnOf, List.findIdx_append]
  exact (if_neg hnot).trans (by simp)

/-! ### What every call keeps -/

theorem effect_perform (s : Store) (call : StoreCall) :
    s.Effect call (s.perform call) (s.acceptedBy call) := by
  cases call with
  | put block state =>
    simp only [perform, acceptedBy]
    cases hput : s.put block state with
    | error e => exact .refused e
    | ok s' =>
      obtain ⟨-, rfl⟩ := put_eq_ok_iff.1 hput
      exact .stored block state
  | setPointer p id =>
    simp only [perform, acceptedBy]
    cases hset : s.setPointer p id with
    | error e => exact .refused e
    | ok s' =>
      obtain ⟨-, hin, rfl⟩ := setPointer_eq_ok_iff.1 hset
      exact .pointed p hin
  | switch fault fail => exact .switched fault fail

omit [Crypto] in
theorem pointer_point (s : Store) (p a : Pointer) (id : BlockId) :
    (s.point p id).pointer a = if a = p then some id else s.pointer a := by
  cases p <;> cases a <;> rfl

theorem pointer_addBlock (s : Store) (block : Block) (state : State) (p : Pointer) :
    (s.addBlock block state).pointer p = s.pointer p := by
  cases p
  · exact canonical_addBlock s block state
  · exact finalized_addBlock s block state

namespace Records

theorem empty : Records {} [] where
  indexed := indexed_empty
  find?_eq _ := rfl
  ordered _ := List.Pairwise.nil
  pointer_stored {p _} h := by cases p <;> cases h
  readable := ⟨rfl, rfl, rfl⟩

theorem contains_iff (h : s.Records taken) :
    s.blocks.contains id = true ↔ ∃ sb, first? taken id = some sb := by
  rw [Table.contains_iff, h.find?_eq]

theorem turnOf_lt (h : s.Records taken) {height : Nat} (hmem : id ∈ s.level height) :
    turnOf taken id < taken.length := by
  obtain ⟨sb, hsb, -⟩ := h.indexed.mem_level.1 hmem
  exact turnOf_lt_iff.2 ⟨sb, h.find?_eq id ▸ hsb⟩

theorem addBlock (h : s.Records taken) (block : Block) (state : State) :
    (s.addBlock block state).Records (taken ++ [⟨block, state⟩]) where
  indexed := h.indexed.addBlock block state
  find?_eq id := by
    rw [find?_addBlock, first?_append, ← h.find?_eq]
    cases hold : s.blocks.find? id with
    | some sb =>
      rw [Option.some_or, if_neg]
      rintro ⟨hnone, rfl⟩
      rw [hold] at hnone
      cases hnone
    | none =>
      rw [Option.none_or]
      refine if_congr ⟨fun hnew => hnew.2.symm, fun hid => ⟨?_, hid.symm⟩⟩ rfl rfl
      rw [← hold, ← hid]
  ordered height := by
    -- the turns of those that are there stay
    have hold : (s.level height).Pairwise fun a b =>
        turnOf (taken ++ [⟨block, state⟩]) a < turnOf (taken ++ [⟨block, state⟩]) b := by
      refine (h.ordered height).imp_of_mem fun ha hb hlt => ?_
      rwa [turnOf_append_of_lt (h.turnOf_lt ha), turnOf_append_of_lt (h.turnOf_lt hb)]
    cases hin : s.blocks.contains block.id with
    | true =>
      rw [addBlock_of_contains hin]
      exact hold
    | false =>
      have hnew : first? taken block.id = none := by
        rw [← Option.not_isSome_iff_eq_none, Option.isSome_iff_exists, ← h.contains_iff, hin]
        decide
      have hlast : turnOf (taken ++ [⟨block, state⟩]) block.id = taken.length :=
        turnOf_append_self ⟨block, state⟩ hnew
      rw [level_addBlock hin]
      split
      · refine List.pairwise_append.2 ⟨hold, List.pairwise_singleton _ _, fun a ha b hb => ?_⟩
        rw [List.mem_singleton.1 hb, hlast, turnOf_append_of_lt (h.turnOf_lt ha)]
        exact h.turnOf_lt ha
      · exact hold
  pointer_stored {p id} hp := by
    rw [pointer_addBlock] at hp
    obtain ⟨sb, hsb⟩ := Table.contains_iff.1 (h.pointer_stored hp)
    exact Table.contains_iff.2 ⟨sb, find?_record hsb (.block block state)⟩
  readable := by
    rw [faults_addBlock]
    exact h.readable

theorem point (h : s.Records taken) (hin : s.blocks.contains id = true) (p : Pointer) :
    (s.point p id).Records taken where
  indexed := h.indexed.record (.pointer p id)
  find?_eq a := by
    rw [blocks_point]
    exact h.find?_eq a
  ordered height := by
    rw [level, levels_point]
    exact h.ordered height
  pointer_stored {a b} hp := by
    rw [pointer_point] at hp
    rw [blocks_point]
    split at hp
    · cases hp
      exact hin
    · exact h.pointer_stored hp
  readable := by
    rw [faults_point]
    exact h.readable

/-- The faults of writes change nothing that is recorded. -/
theorem switch (h : s.Records taken) (fault : WriteFault) (fail : Bool) :
    Records { s with faults := s.faults.switch fault fail } taken where
  indexed := ⟨h.indexed.id_eq, h.indexed.mem_level, h.indexed.nodup_level, h.indexed.row_ne_nil⟩
  find?_eq := h.find?_eq
  ordered := h.ordered
  pointer_stored {p id} hp := by
    have hp' : s.pointer p = some id := by
      cases p <;> exact hp
    exact h.pointer_stored hp'
  readable := by cases fault <;> exact h.readable

theorem effect (h : s.Records taken) (he : s.Effect call result stored) :
    result.2.Records (taken ++ stored) := by
  cases he with
  | refused e =>
    rw [List.append_nil]
    exact h
  | stored block state => exact h.addBlock block state
  | pointed p hin =>
    rw [List.append_nil]
    exact h.point hin p
  | switched fault fail =>
    rw [List.append_nil]
    exact h.switch fault fail

/-- **Every call keeps the record**, and what it stores is added. -/
theorem perform (h : s.Records taken) (call : StoreCall) :
    (s.perform call).2.Records (taken ++ s.acceptedBy call) :=
  h.effect (effect_perform s call)

theorem afterCalls (h : s.Records taken) (calls : List StoreCall) :
    (s.afterCalls calls).Records (taken ++ s.accepted calls) := by
  induction calls generalizing s taken with
  | nil =>
    rw [accepted, List.append_nil]
    exact h
  | cons call calls ih =>
    rw [accepted, ← List.append_assoc]
    exact ih (h.perform call)

/-! ### What is read -/

theorem getBlock_eq (h : s.Records taken) (id : BlockId) :
    s.getBlock id = .ok ((first? taken id).map StoredBlock.block) := by
  obtain ⟨hreads, hblocks, -⟩ := h.readable
  rw [getBlock, read_eq_ok_iff, hblocks, h.find?_eq]
  exact ⟨hreads, if_neg List.not_mem_nil⟩

theorem getState_eq (h : s.Records taken) (id : BlockId) :
    s.getState id = .ok ((first? taken id).map StoredBlock.state) := by
  obtain ⟨hreads, -, hstates⟩ := h.readable
  rw [getState, read_eq_ok_iff, hstates, h.find?_eq]
  exact ⟨hreads, if_neg List.not_mem_nil⟩

theorem getLevel_eq (h : s.Records taken) (height : Nat) :
    s.getLevel height = .ok (s.level height) :=
  read_eq_ok_iff.2 ⟨h.readable.1, rfl⟩

theorem getPointer_eq (h : s.Records taken) (p : Pointer) : s.getPointer p = .ok (s.pointer p) :=
  read_eq_ok_iff.2 ⟨h.readable.1, rfl⟩

theorem exists_getBlock_iff (h : s.Records taken) :
    (∃ b, s.getBlock id = .ok (some b)) ↔ ∃ sb, first? taken id = some sb := by
  rw [h.getBlock_eq]
  cases first? taken id <;> simp

/-- **The index has the stored blocks of a height.** -/
theorem mem_level_iff (h : s.Records taken) {height : Nat} :
    id ∈ s.level height ↔ ∃ b, s.getBlock id = .ok (some b) ∧ b.height = height := by
  rw [h.indexed.mem_level, h.getBlock_eq, h.find?_eq]
  cases first? taken id <;> simp

/-- A call fails or not as its fault and its block have it.  One that fails changes nothing. -/
theorem perform_cases (h : s.Records taken) (call : StoreCall) :
    (s.Refuses call → ∃ e, s.perform call = (.error e, s)) ∧
      (¬ s.Refuses call → (s.perform call).1 = .ok ()) := by
  cases call with
  | put block state =>
    simp only [Store.perform, Refuses, put]
    cases s.faults.blockWrites <;> simp [outcome]
  | setPointer p id =>
    have hunknown : s.getBlock id = .ok none ↔ s.blocks.contains id = false := by
      rw [h.getBlock_eq, Table.contains, h.find?_eq]
      cases first? taken id <;> simp
    simp only [Store.perform, Refuses, setPointer, hunknown]
    cases s.pointerFault p <;> cases s.blocks.contains id <;> simp [outcome]
  | switch fault fail => exact ⟨False.elim, fun _ => rfl⟩

end Records

/-! ### All calls -/

theorem Effect.exists_pointer (he : s.Effect call result stored) {a : BlockId}
    (h : s.pointer p = some a) : ∃ b, result.2.pointer p = some b := by
  cases he with
  | refused e => exact ⟨a, h⟩
  | stored block state => exact ⟨a, (pointer_addBlock s block state p).trans h⟩
  | @pointed q id hin =>
    rw [pointer_point]
    split
    · exact ⟨id, rfl⟩
    · exact ⟨a, h⟩
  | switched fault fail => exact ⟨a, by cases p <;> exact h⟩

theorem Effect.pointer_eq (he : s.Effect (.setPointer p id) result stored)
    (hok : result.1 = .ok ()) : result.2.pointer p = some id := by
  cases he with
  | refused e => cases hok
  | pointed p hin => rw [pointer_point, if_pos rfl]

theorem exists_pointer_afterCalls {a : BlockId} (h : s.pointer p = some a)
    (later : List StoreCall) : ∃ b, (s.afterCalls later).pointer p = some b := by
  induction later generalizing s a with
  | nil => exact ⟨a, h⟩
  | cons call later ih =>
    obtain ⟨b, hb⟩ := (effect_perform s call).exists_pointer h
    exact ih hb

/-- **The tables of a store stay in step**, whatever a new store is asked and whatever faults come
and go.

* The index lists the stored blocks of each height, each once, in the order in which they came
  first.
* Each block reads as it came first, and so does its state.
* Further calls change neither a stored block nor its state.
* A call fails if its fault is there or its pointer would lead to no stored block, and not
  otherwise; one that fails changes nothing.
* A pointer reads as it was set, leads to a stored block, and stays set. -/
theorem tables_stay_in_step (calls : List StoreCall) :
    let s := afterCalls {} calls
    let taken := accepted {} calls
    (∀ height, ∃ ids, s.getLevel height = .ok ids ∧ ids.Nodup ∧
      (∀ id, id ∈ ids ↔ ∃ b, s.getBlock id = .ok (some b) ∧ b.height = height) ∧
      ids.Pairwise fun a b => turnOf taken a < turnOf taken b) ∧
    (∀ id, s.getBlock id = .ok ((first? taken id).map StoredBlock.block) ∧
      s.getState id = .ok ((first? taken id).map StoredBlock.state)) ∧
    (∀ later id, (∃ b, s.getBlock id = .ok (some b)) →
      (s.afterCalls later).getBlock id = s.getBlock id ∧
        (s.afterCalls later).getState id = s.getState id) ∧
    (∀ call, (s.Refuses call → ∃ e, s.perform call = (.error e, s)) ∧
      (¬ s.Refuses call → (s.perform call).1 = .ok ())) ∧
    ∀ p,
      (∀ id, (s.perform (.setPointer p id)).1 = .ok () →
        (s.perform (.setPointer p id)).2.getPointer p = .ok (some id)) ∧
      ∀ id, s.getPointer p = .ok (some id) →
        (∃ b, s.getBlock id = .ok (some b)) ∧
          ∀ later, ∃ a, (s.afterCalls later).getPointer p = .ok (some a) := by
  intro s taken
  have h : s.Records taken := Records.empty.afterCalls calls
  refine ⟨fun height => ⟨s.level height, h.getLevel_eq height, h.indexed.nodup_level height,
      fun id => h.mem_level_iff, h.ordered height⟩,
    fun id => ⟨h.getBlock_eq id, h.getState_eq id⟩, fun later id hstored => ?_,
    fun call => h.perform_cases call, fun p => ⟨fun id hset => ?_, fun id hp => ?_⟩⟩
  · obtain ⟨sb, hsb⟩ := h.exists_getBlock_iff.1 hstored
    have hlater := h.afterCalls later
    rw [hlater.getBlock_eq, hlater.getState_eq, h.getBlock_eq, h.getState_eq,
      first?_of_some hsb, hsb]
    exact ⟨rfl, rfl⟩
  · rw [(h.perform (.setPointer p id)).getPointer_eq]
    exact congrArg Except.ok ((effect_perform s _).pointer_eq hset)
  · rw [h.getPointer_eq] at hp
    have hpointer : s.pointer p = some id := Except.ok.inj hp
    refine ⟨h.exists_getBlock_iff.2 (h.contains_iff.1 (h.pointer_stored hpointer)),
      fun later => ?_⟩
    obtain ⟨a, ha⟩ := exists_pointer_afterCalls hpointer later
    exact ⟨a, ((h.afterCalls later).getPointer_eq p).trans (congrArg Except.ok ha)⟩

end Store

end LedgerChain
