import LedgerChain.Proofs.Lifetime.Convergence
import LedgerChain.Proofs.Lifetime.Session
import LedgerChain.Proofs.Node.Stranded
import LedgerChain.Proofs.Node.Verdicts

/-!
# Orphans over a lifetime

The pool of orphans of every node of a lifetime is in order (`Lifetime.orderly`), so what is known of
cascades holds of all operations of all nodes.

* **Orphans leave for a reason** (`Lifetime.orphans_accounted_for`).  The one bad reason is that
  another orphan of the same parent failed in the store: such a block is lost without a verdict
  (`Lifetime.sibling_lost`).
* **Orphans are stranded by faults only** (`Lifetime.orphans_stranded_by_faults_only`).  A block whose
  pointer cannot be written joins the tree, but does not release the orphans that wait for it
  (`Lifetime.child_stranded`).
-/

namespace LedgerChain

namespace Node

variable [Crypto] {params : Params} {n : Node}

/-- The blocks that are handed in by an operation. -/
def handings (n : Node) : Operation → List Handing
  | .importBlock b => n.importHandings b
  | .importEncoded input =>
    match Block.decode input with
    | .error _ => []
    | .ok b => n.importHandings b
  | .author config timelines => n.authorHandings config timelines
  | .submitExtrinsic _ | .replacePool _ | .shutdown => []

/-- **Every operation is a sequence of acts.** -/
theorem acts_perform {I : Node → Prop} {K A : Node → ChainTip → Prop} (hn : n.Orderly)
    (hA : Admits I K A) (hI : ∀ {n}, I n → n.forkChoice.WellFormed) (h : I n)
    (operation : Operation) : Acts A n (n.handings operation) (n.perform operation) := by
  cases operation with
  | submitExtrinsic x =>
    have hmemory : n.SameMemory (n.submitExtrinsic x).2 := by
      rw [submitExtrinsic]
      split <;> exact ⟨rfl, rfl⟩
    exact .aside (sameChain_submitExtrinsic n x) hmemory
  | replacePool pool => exact .aside ⟨rfl, rfl, rfl, rfl, rfl, rfl⟩ ⟨rfl, rfl⟩
  | importBlock b => exact (Act.imported (hn.cascade_importBlock b)).acts
  | importEncoded input =>
    simp only [perform, importEncoded, handings]
    cases Block.decode input with
    | error e => exact .refl n
    | ok b => exact (Act.imported (hn.cascade_importBlock b)).acts
  | author config timelines => exact acts_author hn hA hI h config timelines
  | shutdown => exact (Act.shutdown n).acts

theorem orphans_of_start {s s' : Store} {pool : Mempool} {initial : State}
    (h : start params s pool initial = (.ok n, s')) : n.waiting = [] ∧ n.Orderly := by
  obtain ⟨root, s₁, t, -, -, -, rfl⟩ := start_ok_cases h
  rw [ofForkChoice]
  cases params.run.orphanPolicy with
  | drop => exact ⟨rfl, fun pool hpool => by cases hpool⟩
  | hold capacity =>
    exact orderly_of_holds rfl (OrphanPool.holds_new capacity) (Nat.zero_le _)

end Node

namespace Lifetime

open Node

variable [Crypto] {params : Params} {initial : State} {events : List LifeEvent} {n : Node}

/-- **The orphans of every node are in order.** -/
theorem orderly (hlife : run params initial events = running n) : n.Orderly :=
  node_induct_of_faults (F := fun _ => True) trivial
    (fun _ _ hstart => (orphans_of_start hstart).2)
    (fun operation hm _ horder =>
      (acts_perform horder admits_heavy id hm.wellFormed operation).orderly horder)
    (fun _ horder => orderly_of_orphans_eq rfl horder) (fun _ _ => trivial) hlife

/-! ### Orphans leave for a reason -/

/-- **All orphans are accounted for.**

* A block that leaves the pool of orphans in the course of an operation had to make room in a full
  pool, or was released and handed in itself, or was released together with a block that failed in
  the store.  This goes for the orphans from before, and for the blocks that become orphans
  meanwhile.
* If nothing that is handed in fails, then every orphan that leaves had to make room or was handed
  in itself.
* Nothing fails while the store can be written and read, and in an import that succeeds. -/
theorem orphans_accounted_for (hlife : run params initial events = running n)
    (operation : Operation) :
    n.Accounts (n.handings operation) (n.perform operation) ∧
    ((∀ h ∈ n.handings operation, ∃ result, h.answer = .ok result) →
      ∀ c ∈ n.waiting, c ∈ (n.perform operation).waiting ∨
        ∃ h ∈ n.handings operation, h.Evicts c ∨ h.Hands c) ∧
    (n.store.faults.Harmless → ∀ h ∈ n.handings operation, ∃ result, h.answer = .ok result) ∧
    ∀ b result, (n.importBlock b).1 = .ok result →
      ∀ h ∈ n.importHandings b, ∃ result, h.answer = .ok result := by
  obtain ⟨hsound, -⟩ := (sound params initial events).node hlife
  have hn := orderly hlife
  have hacts := acts_perform hn admits_heavy id hsound.wellFormed operation
  have haccounts := hacts.accounts hn hsound
  refine ⟨haccounts, fun hok c hc => (haccounts.before c hc).of_ok hok,
    fun hharmless h hh => ?_, fun b result hok => ?_⟩
  · obtain ⟨hrun, -⟩ := hacts.runs_of_mem admits_heavy hsound.wellFormed h hh
    exact h.exists_ok (hrun.sound hsound) (hrun.faults_eq ▸ hharmless)
  · have hcascade := hn.cascade_importBlock b
    exact hcascade.exists_ok (by rw [hok]; rfl)

/-- A block on another one, sealed from a nonce on. -/
def blockOn (parent : ChainTip) (nonceStart : UInt64) : ChainTip :=
  (emptyBlock parent nonceStart).getD parent

/-- A block on genesis, sealed from a nonce on. -/
def sideBlock (nonceStart : UInt64) : ChainTip :=
  blockOn (Genesis.tip easyParams {}) nonceStart

/-- A node is handed some blocks. -/
def importEvents (tips : List ChainTip) : List LifeEvent :=
  tips.map fun tip => .operate (.importBlock tip.block)

/-- Two blocks wait for the second block on genesis, and the first one is canonical. -/
def siblingEvents : List LifeEvent :=
  startEvent :: importEvents [blockOn (sideBlock 1) 0, blockOn (sideBlock 1) 1, sideBlock 0]

/-- The second block on genesis comes in. -/
def parentComes : Operation := .importBlock (sideBlock 1).block

omit [Crypto] in
/-- Two orphans are handed in when their parent comes. -/
theorem orphans_accounted_for_siblings :
    letI := Crypto.transparent
    ∃ n, run easyParams {} siblingEvents = running n ∧ n.waiting.length = 2 ∧
      (n.perform parentComes).waiting = [] ∧
      ∀ c ∈ n.waiting, ∃ h ∈ n.handings parentComes, h.Evicts c ∨ h.Hands c := by
  let _ := Crypto.transparent
  have hnode : ((run easyParams {} siblingEvents).node?.map fun n =>
      (n.waiting.length, (n.perform parentComes).waiting, n.store.faults)) = some (2, [], {}) := by
    decide +kernel
  obtain ⟨n, hn, hend⟩ := Option.map_eq_some_iff.1 hnode
  rw [node?_eq_some_iff] at hn
  rw [Prod.mk.injEq, Prod.mk.injEq] at hend
  obtain ⟨hlength, hempty, hfaults⟩ := hend
  obtain ⟨-, hleave, hok, -⟩ := orphans_accounted_for hn parentComes
  refine ⟨n, hn, hlength, hempty, fun c hc => ?_⟩
  have hgone := hleave (hok (by rw [hfaults]; exact ⟨rfl, rfl, rfl⟩)) c hc
  rw [hempty] at hgone
  exact hgone.resolve_left List.not_mem_nil

omit [Crypto] in
/-- **A block gets lost**: it is released together with another one, whose pointer cannot be written,
and is never handed in.  The pool has room for all. -/
theorem sibling_lost :
    letI := Crypto.transparent
    ∃ n c, run easyParams {} (siblingEvents ++ [.setFaults { pointerWrites := true }]) =
        running n ∧ c ∈ n.waiting ∧ c ∉ (n.perform parentComes).waiting ∧
      (n.perform parentComes).hasSeen c.id = false ∧
      ∀ h ∈ n.handings parentComes, h.block ≠ c ∧ ¬ h.Evicts c := by
  let _ := Crypto.transparent
  have hnode : ((run easyParams {}
      (siblingEvents ++ [.setFaults { pointerWrites := true }])).node?.map fun n =>
      let c := (blockOn (sideBlock 1) 1).block
      (decide (c ∈ n.waiting), decide (c ∈ (n.perform parentComes).waiting),
        (n.perform parentComes).hasSeen c.id,
        (n.handings parentComes).all fun h => h.block ≠ c ∧ h.node.waiting.head? ≠ some c)) =
      some (true, false, false, true) := by decide +kernel
  obtain ⟨n, hn, hend⟩ := Option.map_eq_some_iff.1 hnode
  rw [node?_eq_some_iff] at hn
  simp only [Prod.mk.injEq, decide_eq_true_eq, decide_eq_false_iff_not, List.all_eq_true] at hend
  obtain ⟨hin, hout, hunseen, hall⟩ := hend
  refine ⟨n, _, hn, hin, hout, hunseen, fun h hh => ⟨(hall h hh).1, ?_⟩⟩
  rintro ⟨-, rest, hwaiting, -⟩
  exact (hall h hh).2 (by rw [hwaiting, List.head?_cons])

/-! ### Orphans are stranded by faults only -/

theorem not_stranded_of_nil (h : n.waiting = []) (c : Block) : ¬ n.Stranded c := by
  rintro ⟨hc, -⟩
  rw [h] at hc
  cases hc

/-- While pointers can be written and the store can be read, no orphan is ever stranded. -/
theorem not_stranded_of_run
    (hfaults : ∀ faults, .setFaults faults ∈ events → faults.Unhindered)
    (hlife : run params initial events = running n) (c : Block) : ¬ n.Stranded c := by
  have hfree : n.Orderly ∧ ∀ c, ¬ n.Stranded c := by
    refine node_induct_of_faults (F := Faults.Unhindered)
      (I := fun n => n.Orderly ∧ ∀ c, ¬ n.Stranded c) ⟨rfl, rfl⟩ (fun _ _ hstart => ?_)
      (fun operation hm hkind h => ?_) (fun _ h => h) hfaults hlife
    · obtain ⟨hnone, horder⟩ := orphans_of_start hstart
      exact ⟨horder, not_stranded_of_nil hnone⟩
    · obtain ⟨horder, hfree⟩ := h
      have hacts := acts_perform horder admits_heavy id hm.wellFormed operation
      exact ⟨hacts.orderly horder, fun c hc => hfree c (hacts.stranded horder hm hkind hc)⟩
  exact hfree.2 c

/-- **Only faults strand an orphan.**  An orphan is stranded if its parent is in the tree, or a block
with its header is.

* An operation strands an orphan only while no pointer can be written, or nothing can be read.
* An import that succeeds strands none, whatever the faults.
* If pointers could always be written and the store could always be read, then no orphan is stranded;
  blocks that cannot be written, and faults of any other kind, do no harm. -/
theorem orphans_stranded_by_faults_only (hlife : run params initial events = running n) :
    (∀ operation c, (n.perform operation).Stranded c →
      n.Stranded c ∨ n.store.faults.pointerWrites = true ∨ n.store.faults.reads = true) ∧
    (∀ b result n', n.importBlock b = (.ok result, n') → ∀ c, n'.Stranded c → n.Stranded c) ∧
    ((∀ faults, .setFaults faults ∈ events → faults.Unhindered) → ∀ c, ¬ n.Stranded c) := by
  obtain ⟨hsound, -⟩ := (sound params initial events).node hlife
  have hn := orderly hlife
  refine ⟨fun operation c hc => ?_, fun b result n' hok c hc => stranded_importBlock hn hsound hok hc,
    fun hfaults => not_stranded_of_run hfaults hlife⟩
  cases hpointers : n.store.faults.pointerWrites with
  | true => exact Or.inr (Or.inl rfl)
  | false =>
    cases hreads : n.store.faults.reads with
    | true => exact Or.inr (Or.inr rfl)
    | false =>
      exact Or.inl
        ((acts_perform hn admits_heavy id hsound.wellFormed operation).stranded hn hsound
          ⟨hpointers, hreads⟩ hc)

omit [Crypto] in
/-- Two orphans wait, and are not stranded; nor is any orphan once their parent has come. -/
theorem no_sibling_stranded :
    letI := Crypto.transparent
    ∃ n, run easyParams {} siblingEvents = running n ∧ n.waiting.length = 2 ∧
      ∀ c, ¬ n.Stranded c ∧ ¬ (n.perform parentComes).Stranded c := by
  let _ := Crypto.transparent
  have hnode : ((run easyParams {} siblingEvents).node?.map fun n =>
      (n.waiting.length, n.store.faults)) = some (2, {}) := by decide +kernel
  obtain ⟨n, hn, hend⟩ := Option.map_eq_some_iff.1 hnode
  rw [node?_eq_some_iff] at hn
  obtain ⟨hlength, hfaults⟩ := Prod.mk.inj hend
  obtain ⟨hstep, -, hnone⟩ := orphans_stranded_by_faults_only hn
  have hfree : ∀ c, ¬ n.Stranded c := hnone fun faults hmem => by
    simp [siblingEvents, importEvents, startEvent] at hmem
  refine ⟨n, hn, hlength, fun c => ⟨hfree c, fun hc => ?_⟩⟩
  rcases hstep parentComes c hc with hold | hfault | hfault
  · exact hfree c hold
  · rw [hfaults] at hfault
    cases hfault
  · rw [hfaults] at hfault
    cases hfault

omit [Crypto] in
/-- **An orphan is stranded**: its parent came while no pointer could be written, and joined the
tree.  That all is well again does not help. -/
theorem child_stranded :
    letI := Crypto.transparent
    ∃ n c, run easyParams {} (startEvent :: importEvents [blockOn (sideBlock 0) 0] ++
        [.setFaults { pointerWrites := true }] ++ importEvents [sideBlock 0] ++
        [.setFaults {}]) = running n ∧
      n.store.faults = {} ∧ c ∈ n.waiting ∧ n.hasSeen c.parent = true := by
  let _ := Crypto.transparent
  have hnode : ((run easyParams {} (startEvent :: importEvents [blockOn (sideBlock 0) 0] ++
      [.setFaults { pointerWrites := true }] ++ importEvents [sideBlock 0] ++
      [.setFaults {}])).node?.map fun n =>
      let c := (blockOn (sideBlock 0) 0).block
      (n.store.faults, decide (c ∈ n.waiting), n.hasSeen c.parent)) = some ({}, true, true) := by
    decide +kernel
  obtain ⟨n, hn, hend⟩ := Option.map_eq_some_iff.1 hnode
  rw [node?_eq_some_iff] at hn
  simp only [Prod.mk.injEq, decide_eq_true_eq] at hend
  exact ⟨n, _, hn, hend⟩

end Lifetime

end LedgerChain
