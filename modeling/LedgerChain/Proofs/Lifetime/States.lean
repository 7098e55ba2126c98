import LedgerChain.Proofs.Execution.WellFormed
import LedgerChain.Proofs.Lifetime.Supply

/-!
# Properties of all states of a lifetime

A property of states that blocks preserve (`Execution.Preserved`) and that the initial state has is
one of every state that is ever written, whatever happens to the store, and so of every state that is
stored or in the tree of a node (`Lifetime.states_induct`).  Nothing is needed of the hash function.

Well-formedness is such a property (`Lifetime.states_wellFormed`).
-/

namespace LedgerChain

variable [Crypto] {P : State → Prop}

/-- A property of states that every block preserves. -/
def Execution.Preserved (P : State → Prop) : Prop :=
  ∀ s xs output, P s → Execution.applyAll s xs = .ok output → P output.state

theorem Applies.preserved {engine : Engine} {parent tip : ChainTip}
    (h : Applies engine parent tip) (hP : Execution.Preserved P) (hparent : P parent.state) :
    P tip.state := by
  obtain ⟨output, hrun, hstate⟩ := h.applied
  rw [← hstate]
  exact hP _ _ _ hparent hrun

/-- Blocks were written only with states of some property. -/
def Store.Wrote (P : State → Prop) (s : Store) : Prop :=
  ∀ block state, .block block state ∈ s.journal → P state

namespace Store.Wrote

variable {s : Store}

omit [Crypto] in
theorem point (h : s.Wrote P) (p : Pointer) (id : BlockId) : (s.point p id).Wrote P := by
  intro block state hmem
  rw [journal_point, List.mem_cons] at hmem
  exact h block state (hmem.resolve_left StoreWrite.noConfusion)

theorem addBlock (h : s.Wrote P) (block : Block) {state : State} (hstate : P state) :
    (s.addBlock block state).Wrote P := by
  intro b st hmem
  rw [journal_addBlock, List.mem_cons] at hmem
  rcases hmem with heq | hmem
  · cases heq
    exact hstate
  · exact h b st hmem

end Store.Wrote

namespace Node

variable {n : Node} {params : Params} {initial : State} {s s' : Store}

/-- **All operations of a node are runs that offer blocks with preserved states.** -/
theorem admits_preserved (hP : Execution.Preserved P) :
    Admits (fun n => n.Sound ∧ n.store.Wrote P) (fun _ p => P p.state)
      fun n tip => n.Heavy tip ∧ P tip.state where
  step hn hstep := ⟨(hstep.mono And.left).sound hn.1,
    hstep.store_induct (S := Store.Wrote P) (fun p id hs => hs.point p id)
      (fun htip hs => hs.addBlock _ htip.2) hn.2⟩
  keep _ hp _ := hp
  canonical {n p} hn hp := by
    rw [canonicalTip?, ForkChoice.bestChainTip?, Option.map_eq_some_iff] at hp
    obtain ⟨e, he, rfl⟩ := hp
    exact hn.2 _ _ (hn.1.written he)
  imported {n b below tip} hn _ hshape hbelow hvalid :=
    ⟨heavy_of_validateBlock hvalid,
      ((linking_applies n.params.consensus).imported hshape hvalid).preserved hP
        (hn.2 _ _ (hn.1.written hbelow))⟩
  made {n p xs ctx tip} _ hp _ hmade :=
    have happlies := (linking_applies n.params.consensus).made hmade
    ⟨⟨happlies.follows.weight_eq, happlies.follows.weight_pos⟩, happlies.preserved hP hp⟩

theorem Boot.wrote (h : Boot (Genesis.tip params initial) s s') (hinitial : P initial)
    (hs : s.Wrote P) : s'.Wrote P := by
  induction h with
  | refl => exact hs
  | tail _ hstep ih =>
    cases hstep with
    | genesis => exact ih.addBlock _ hinitial
    | finalized _ => exact ih.point _ _
    | canonical _ => exact ih.point _ _

end Node

namespace Lifetime

variable {params : Params} {initial : State} {l : Lifetime}

theorem wrote_next (hP : Execution.Preserved P) (hinitial : P initial) (hsound : l.Sound params)
    (h : l.store.Wrote P) (event : LifeEvent) : (l.next params initial event).store.Wrote P := by
  cases event with
  | operate operation =>
    cases l with
    | stopped s => exact h
    | running n =>
      have hA := Node.admits_preserved hP
      have hn : n.Sound ∧ n.store.Wrote P := ⟨(hsound.node rfl).1, h⟩
      exact (hA.run_inv (hA.perform hn operation) hn).2
  | setFaults faults => cases l <;> exact h
  | restart pool =>
    have hboot := Node.boot_start params l.store pool initial
    simp only [Lifetime.next]
    rcases hres : Node.start params l.store pool initial with ⟨_ | n, s⟩ <;> rw [hres] at hboot
    · exact hboot.wrote hinitial h
    · obtain ⟨-, -, hstore⟩ := Node.sound_of_start hsound.journaled hsound.weighed hres
      show n.store.Wrote P
      rw [hstore]
      exact hboot.wrote hinitial h
  | crash lost =>
    intro block state hmem
    -- a crash loses writes, and brings in none
    have hmem' : StoreWrite.block block state ∈ l.store.journal.drop lost := by
      rwa [← Store.journal_ofJournal (l.store.journal.drop lost)]
    exact h block state (List.mem_of_mem_drop hmem')

/-- **A property of the initial state that blocks preserve is one of all states**, stored or in the
tree. -/
theorem states_induct (hP : Execution.Preserved P) (hinitial : P initial)
    (events : List LifeEvent) :
    (∀ id sb, (run params initial events).store.blocks.find? id = some sb → P sb.state) ∧
      ∀ n, run params initial events = running n →
        ∀ id e, n.forkChoice.tree.find? id = some e → P e.tip.state := by
  have hwrote : (run params initial events).store.Wrote P := by
    have hboth : (run params initial events).Sound params ∧
        (run params initial events).store.Wrote P :=
      run_induct (P := fun l => l.Sound params ∧ l.store.Wrote P)
        ⟨sound params initial [], fun _ _ h => by cases h⟩
        (fun event h => ⟨h.1.next event, wrote_next hP hinitial h.1 h.2 event⟩) events
    exact hboth.2
  have hsound := sound params initial events
  refine ⟨fun id sb hsb => hwrote _ _ (hsound.journaled.mem_journal hsb), fun n hn id e he => ?_⟩
  rw [hn] at hwrote hsound
  exact hwrote _ _ ((hsound.node rfl).1.written he)

/-- **State well-formedness is invariant.**

* On a well-formed state, any extrinsics lead through well-formed states only, applied as a block or
  sifted by an author; no balance is ever found malformed, and a key is changed only by an extrinsic
  that names it.
* If the initial state is well formed, then so are all stored states and all states in the tree. -/
theorem states_wellFormed {params : Params} {initial : State} {events : List LifeEvent} :
    (∀ s : State, s.entries.WellFormed → ∀ xs, Execution.Regular s xs) ∧
    (initial.entries.WellFormed →
      (∀ id sb, (run params initial events).store.blocks.find? id = some sb →
        sb.state.entries.WellFormed) ∧
      ∀ n, run params initial events = running n →
        ∀ id e, n.forkChoice.tree.find? id = some e → e.tip.state.entries.WellFormed) :=
  ⟨fun _ hs xs => Execution.regular hs xs, fun hinitial =>
    states_induct (P := fun s => s.entries.WellFormed)
      (fun _ xs _ hs hrun => ((Execution.regular hs xs).applied hrun).wellFormed) hinitial events⟩

/-! ### Extrinsics of all kinds -/

/-- Extrinsics about a balance, a raw key and a key set aside for balances, and one without a call. -/
def mixedExtrinsics : List Extrinsic := [.ofCall (.burn (.zero 32) 5) 3, .ofCall (.set [1] [2]) 2,
  .ofCall (.set balanceMark [7]) 1, ⟨[9], 0⟩]

/-- A node is given the extrinsics, and makes a block. -/
def mixedEvents : List LifeEvent :=
  startEvent :: mixedExtrinsics.map (fun x => .operate (.submitExtrinsic x)) ++ [authorEvent]

omit [Crypto] in
/-- The block has the first two: the balance has no entry any more, and the raw key has one. -/
theorem states_wellFormed_mixed :
    letI := Crypto.transparent
    oneBalance.entries.WellFormed ∧
      (∀ p ∈ (Execution.select oneBalance mixedExtrinsics).excluded, ∀ account,
        p.2 ≠ .malformedBalance account) ∧
      ∃ n e, run easyParams oneBalance mixedEvents = running n ∧
        n.forkChoice.tree.find? n.forkChoice.best = some e ∧
        e.tip.state.entries.toList = [([1], [2])] ∧ e.tip.state.entries.WellFormed := by
  let _ := Crypto.transparent
  have hinitial : oneBalance.entries.WellFormed :=
    Entries.wellFormed_empty.apply (Execution.proper_balanceWrite _ _)
  have hnode : ((run easyParams oneBalance mixedEvents).node?.map fun n =>
      (n.forkChoice.tree.find? n.forkChoice.best).map fun e => e.tip.state.entries.toList) =
      some (some [([1], [2])]) := by decide +kernel
  obtain ⟨n, hn, hend⟩ := Option.map_eq_some_iff.1 hnode
  rw [node?_eq_some_iff] at hn
  obtain ⟨e, he, hentries⟩ := Option.map_eq_some_iff.1 hend
  obtain ⟨hregular, hlife⟩ := @states_wellFormed _ easyParams oneBalance mixedEvents
  exact ⟨hinitial, (hregular _ hinitial _).excluded, n, e, hn, he, hentries,
    (hlife hinitial).2 n hn _ e he⟩

end Lifetime

end LedgerChain
