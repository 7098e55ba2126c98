import LedgerChain.Proofs.Crypto.Transparent
import LedgerChain.Proofs.Execution.Supply
import LedgerChain.Proofs.Lifetime.Archive
import LedgerChain.Proofs.Tree.Blocks

/-!
# The supply along chains

Blocks are stored with the states that they lead to from the states of their parents (`Applies`).
So the supply changes along every path of blocks by what these mint and burn: in the tree
(`WellFormed.supply_path`), and in the store from genesis on (`Archive.supply_line`).
`Lifetime.supply_conserved` puts this together for everything that can happen to a store.
-/

namespace LedgerChain

/-- What the extrinsics of some blocks amount to together. -/
def amountIn (f : Call → Nat) (bs : List Block) : Nat := amountOf f (bs.flatMap Block.extrinsics)

theorem amountIn_cons (f : Call → Nat) (b : Block) (bs : List Block) :
    amountIn f (b :: bs) = amountOf f b.extrinsics + amountIn f bs := by
  rw [amountIn, List.flatMap_cons, Execution.amountOf_append, amountIn]

variable [Crypto]

/-! ### Blocks that lead to their states -/

/-- A block that lies right above another one and leads to its state from the state there. -/
structure Applies (engine : Engine) (parent tip : ChainTip) : Prop where
  follows : Follows engine parent tip
  applied : ∃ output, Execution.applyAll parent.state tip.block.extrinsics = .ok output ∧
    output.state = tip.state

theorem Applies.conserves {engine : Engine} {parent tip : ChainTip} (h : Applies engine parent tip)
    (hkept : parent.state.entries.WellKept) :
    Execution.Conserves parent.state tip.block.extrinsics tip.state := by
  obtain ⟨output, hrun, hstate⟩ := h.applied
  rw [← hstate]
  exact Execution.conserves_applyAll hkept hrun

/-- **All blocks that a node stores lead to the states they are stored with.** -/
theorem linking_applies (consensus : ConsensusParams) :
    Linking consensus (Applies (.ofRule consensus.sealRule)) where
  follows h := h.follows
  congr hblock hstate h :=
    ⟨(linking_follows consensus).congr hblock hstate h.follows, hstate ▸ h.applied⟩
  imported {b p tip} _ h := by
    refine ⟨follows_of_validateBlock h, ?_⟩
    obtain ⟨-, -, -, -, output, hrun, -, htip⟩ := validateBlock_eq_ok_iff.1 h
    rw [htip]
    exact ⟨output, hrun, rfl⟩
  made {p xs ctx tip} h := by
    refine ⟨Candidate.follows_of_complete h, ?_⟩
    obtain ⟨mark, -, -, htip⟩ := Candidate.complete_ok_cases h
    rw [htip]
    exact ⟨_, Execution.applyAll_select p.state xs, rfl⟩

namespace ChainTree

variable {t : ChainTree} {a b : BlockId} {e below : TreeEntry}

/-- **Along a path of a tree the supply changes by what its blocks mint and burn.** -/
theorem WellFormed.supply_path (h : t.WellFormed)
    (hlink : ∀ {id e p}, t.find? id = some e → id ≠ t.root → t.find? e.parent = some p →
      Execution.Conserves p.tip.state e.tip.block.extrinsics e.tip.state)
    (hab : a ∈ t.lineage b) (ha : t.find? a = some below) (hb : t.find? b = some e) :
    e.tip.state.entries.supply + amountIn Call.burned (t.pathBlocks a b) =
      below.tip.state.entries.supply + amountIn Call.minted (t.pathBlocks a b) := by
  refine h.path_induct (P := fun _ e bs =>
    e.tip.state.entries.supply + amountIn Call.burned bs =
      below.tip.state.entries.supply + amountIn Call.minted bs) ha rfl
    (fun {b f p bs} hf hne hp ih => ?_) hab hb
  have hedge := (hlink hf hne hp).supply_eq
  rw [amountIn_cons, amountIn_cons]
  omega

end ChainTree

/-! ### Chains of stored blocks -/

/-- The stored blocks from a block down to genesis, each with its parent next to it. -/
inductive Store.Line (s : Store) (genesis : BlockId) : BlockId → List StoredBlock → Prop
  | genesis {sb : StoredBlock} (h : s.blocks.find? genesis = some sb) : Line s genesis genesis [sb]
  | above {id : BlockId} {sb : StoredBlock} {line : List StoredBlock}
      (h : s.blocks.find? id = some sb) (hne : id ≠ genesis)
      (hline : Line s genesis sb.block.parent line) : Line s genesis id (sb :: line)

namespace Archive

variable {engine : Engine} {genesis : ChainTip} {s : Store} {u : ChainTree} {id : BlockId}
  {e : TreeEntry} {line : List StoredBlock}

theorem wellKept (h : Archive (Applies engine) genesis s u)
    (hgenesis : genesis.state.entries.WellKept) (he : u.find? id = some e) :
    e.tip.state.entries.WellKept := by
  refine h.wellFormed.induction (P := fun b => ∀ e, u.find? b = some e →
    e.tip.state.entries.WellKept) ?_ (fun b f hf hne ih => ?_) he e he
  · intro e he
    obtain ⟨r, hr, htip⟩ := h.root
    rw [he] at hr
    cases hr
    rwa [htip]
  · intro e he
    rw [hf] at he
    cases he
    obtain ⟨p, hp, hlinked⟩ := h.exists_parent hf hne
    exact (hlinked.conserves (ih p hp)).wellKept

theorem exists_line (h : Archive (Applies engine) genesis s u) (he : u.find? id = some e) :
    ∃ line, s.Line genesis.id id line := by
  refine h.wellFormed.induction (P := fun b => ∃ line, s.Line genesis.id b line) ?_
    (fun b f hf hne ih => ?_) he
  · obtain ⟨r, hr, -⟩ := h.root
    have hstored := h.find?_stored hr
    rw [h.root_eq] at hstored ⊢
    exact ⟨_, .genesis hstored⟩
  · obtain ⟨line, hline⟩ := ih
    exact ⟨_, .above (h.find?_stored hf) (h.root_eq ▸ hne) hline⟩

/-- **The supply after a stored block** is that of genesis with what is minted and burned on the
line to it. -/
theorem supply_line (h : Archive (Applies engine) genesis s u)
    (hgenesis : genesis.state.entries.WellKept) (hempty : genesis.block.extrinsics = [])
    (hline : s.Line genesis.id id line) (he : u.find? id = some e) :
    e.tip.state.entries.supply + amountIn Call.burned (line.map StoredBlock.block) =
      genesis.state.entries.supply + amountIn Call.minted (line.map StoredBlock.block) := by
  induction hline generalizing e with
  | genesis hsb =>
    obtain ⟨r, hr, htip⟩ := h.root
    rw [h.root_eq, he] at hr
    cases hr
    rw [h.find?_stored he] at hsb
    cases hsb
    rw [htip, List.map_singleton, amountIn_cons, amountIn_cons, hempty]
    rfl
  | above hsb hne hline ih =>
    rw [h.find?_stored he] at hsb
    cases hsb
    obtain ⟨p, hp, hlinked⟩ := h.exists_parent he (h.root_eq.symm ▸ hne)
    have hbelow := ih hp
    have hedge := (hlinked.conserves (h.wellKept hgenesis hp)).supply_eq
    simp only [List.map_cons, amountIn_cons]
    omega

end Archive

namespace Lifetime

/-- **Supply is conserved.**

* The supply of a well-kept state is the sum of all balances, and a list of extrinsics that applies
  to it leads to a well-kept state again, conserving the supply.

Suppose that the initial state is well kept, and that different headers of written blocks have
different identifiers.

* The states of all stored blocks are well kept, and the supply after a block is the initial one with
  all that is minted and burned on the line of blocks from genesis to it.
* All blocks of the tree are stored with their states; along every path of the tree the supply
  changes by what is minted and burned by the blocks above its start. -/
theorem supply_conserved {params : Params} {initial : State} {events : List LifeEvent} :
    (∀ s : State, s.entries.WellKept →
      s.entries.supply =
          ∑ᶠ account, ((Execution.balance s account).toOption.map UInt64.toNat).getD 0 ∧
        ∀ xs output, Execution.applyAll s xs = .ok output →
          Execution.Conserves s xs output.state) ∧
    (initial.entries.WellKept → Store.DistinctIds (run params initial events).store.journal →
      (∀ id sb, (run params initial events).store.blocks.find? id = some sb →
        sb.state.entries.WellKept ∧
        (∃ line, (run params initial events).store.Line (Genesis.tip params initial).id id line) ∧
        ∀ line, (run params initial events).store.Line (Genesis.tip params initial).id id line →
          sb.state.entries.supply + amountIn Call.burned (line.map StoredBlock.block) =
            initial.entries.supply + amountIn Call.minted (line.map StoredBlock.block)) ∧
      ∀ n, run params initial events = running n →
        ∀ b e, n.forkChoice.tree.find? b = some e →
          n.store.blocks.find? b = some ⟨e.tip.block, e.tip.state⟩ ∧
          ∀ a ∈ n.forkChoice.tree.lineage b, ∀ below, n.forkChoice.tree.find? a = some below →
            e.tip.state.entries.supply +
                amountIn Call.burned (n.forkChoice.tree.pathBlocks a b) =
              below.tip.state.entries.supply +
                amountIn Call.minted (n.forkChoice.tree.pathBlocks a b)) := by
  refine ⟨fun s hs => ⟨Execution.supply_eq_finsum hs, fun xs output hrun =>
    Execution.conserves_applyAll hs hrun⟩, fun hinitial hids => ?_⟩
  have hlife := kept (linking_applies params.consensus) initial events
  refine ⟨fun id sb hsb => ?_, fun n hn b e he => ?_⟩
  · obtain ⟨u, hu⟩ := hlife.recoverable.self
      (hlife.recoverable.journaled.journal_ne_nil (Table.contains_iff.2 ⟨_, hsb⟩)) hids
    obtain ⟨e, he, -, hstate⟩ := hu.archive.of_find?_stored hsb
    rw [← hstate]
    exact ⟨hu.archive.wellKept hinitial he, hu.archive.exists_line he, fun line hline =>
      hu.archive.supply_line hinitial rfl hline he⟩
  · rw [hn] at hlife hids
    have hkept := hlife.node rfl
    have htree := hkept.sound.wellFormed.tree
    refine ⟨hkept.find?_stored hids he, fun a hab below ha => ?_⟩
    obtain ⟨u, hu⟩ := hkept.kept.live hids
    refine htree.supply_path (fun {id e p} he hne hp => ?_) hab ha he
    -- both blocks are in the archive, with the states that they have in the tree
    obtain ⟨f, hf, hblock, hstate, -⟩ := hu.part id e he
    obtain ⟨q, hq, -, hstate', -⟩ := hu.part e.parent p hp
    have hparent : f.parent = e.parent := by
      rw [TreeEntry.parent, TreeEntry.parent, ChainTip.parent, ChainTip.parent, hblock]
    have hgenesis : id ≠ u.root := by
      intro hid
      have hroot := hu.root_mem_lineage he
      rw [hid, hu.archive.wellFormed.lineage_root, List.mem_singleton, ← hid] at hroot
      exact hne hroot.symm
    have hlinked := hu.archive.linked hf hgenesis (hparent ▸ hq)
    have hstep := hlinked.conserves (hu.archive.wellKept hinitial hq)
    rwa [hblock, hstate, hstate'] at hstep

/-! ### Three extrinsics about money -/

/-- A state with one balance. -/
def oneBalance : State := ⟨(Execution.balanceWrite (.zero 32) 5).apply .empty, 0⟩

/-- A node mints in its first block, and transfers and burns in its second one. -/
def moneyEvents : List LifeEvent := [startEvent,
  .operate (.submitExtrinsic (.ofCall (.mint (.zero 32) 7) 0)), authorEvent,
  .operate (.submitExtrinsic (.ofCall (.transfer (.zero 32) (.ofNat 32 1) 12) 1)),
  .operate (.submitExtrinsic (.ofCall (.burn (.ofNat 32 1) 2) 0)), authorEvent]

omit [Crypto] in
/-- Five are there at first, seven are minted and two burned: ten are left. -/
theorem supply_conserved_money :
    letI := Crypto.transparent
    oneBalance.entries.WellKept ∧
      Store.DistinctIds (run easyParams oneBalance moneyEvents).store.journal ∧
      ∃ n r e, run easyParams oneBalance moneyEvents = running n ∧
        n.forkChoice.tree.find? n.forkChoice.tree.root = some r ∧ r.tip.state = oneBalance ∧
        n.forkChoice.tree.find? n.forkChoice.best = some e ∧ e.height = 2 ∧
        (∃ line, n.store.Line (Genesis.tip easyParams oneBalance).id n.forkChoice.best line) ∧
        e.tip.state.entries.supply = 10 := by
  let _ := Crypto.transparent
  have hinitial : oneBalance.entries.WellKept :=
    Execution.wellKept_balanceWrite Entries.wellKept_empty _ _
  have hids : Store.DistinctIds (run easyParams oneBalance moneyEvents).store.journal := by
    decide +kernel
  have hnode : ((run easyParams oneBalance moneyEvents).node?.map fun n =>
      let t := n.forkChoice.tree
      ((t.find? t.root).map fun r => decide (r.tip.state = oneBalance),
        (t.find? n.forkChoice.best).map fun e =>
          decide (e.height = 2 ∧ t.root ∈ t.lineage n.forkChoice.best ∧
            amountIn Call.minted (t.pathBlocks t.root n.forkChoice.best) = 7 ∧
            amountIn Call.burned (t.pathBlocks t.root n.forkChoice.best) = 2))) =
      some (some true, some true) := by decide +kernel
  obtain ⟨n, hn, hend⟩ := Option.map_eq_some_iff.1 hnode
  rw [node?_eq_some_iff] at hn
  simp only [Prod.mk.injEq, Option.map_eq_some_iff, decide_eq_true_eq] at hend
  obtain ⟨⟨r, hr, hstate⟩, e, he, hheight, hmem, hminted, hburned⟩ := hend
  obtain ⟨hstored, htree⟩ := supply_conserved.2 hinitial hids
  obtain ⟨hin, hpath⟩ := htree n hn _ e he
  have hsupply := hpath _ hmem r hr
  rw [hminted, hburned, hstate, show oneBalance.entries.supply = 5 by decide] at hsupply
  rw [hn] at hstored
  exact ⟨hinitial, hids, n, r, e, hn, hr, hstate, he, hheight, (hstored _ _ hin).2.1,
    Nat.add_right_cancel hsupply⟩

end Lifetime

end LedgerChain
