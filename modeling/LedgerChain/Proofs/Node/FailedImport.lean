import LedgerChain.Proofs.Node.News
import LedgerChain.Proofs.Node.Session

/-!
# Imports that fail

An import fails only if a write to the store does (`Node.hindered_of_importBlock_error`), also if it
was an orphan that failed.  While writes fail the canonical tip cannot move, so it was not moved by
anything that was decided before the failure either: the node keeps its position
(`Node.KeepsPosition`), and what its tree and its store gain is valid (`Node.Gains`).

The blocks that were attached are not forgotten.  From then on each of them is in the tree or topped
by the canonical tip (`Node.Session.weighs`), and once an import is accepted they are all topped.
-/

namespace LedgerChain

/-- Faults with which blocks, or pointers, cannot be written. -/
def Faults.Hindered (faults : Faults) : Prop :=
  faults.blockWrites = true ∨ faults.pointerWrites = true

variable [Crypto]

namespace Node

variable {n n' m : Node} {b : Block} {tip : ChainTip} {rest : List Block} {stack : List BlockId}
  {log : List Handing} {ending : Except ChainError Unit}
  {answer : Except ChainError (Outcome × PoolUpdate)}

/-! ### Failures -/

theorem Cascade.exists_fault {e : ChainError} (h : Cascade rest stack n log (.error e) n')
    (hn : n.Sound) : n.store.faults.reads = true ∨ n.store.faults.Hindered := by
  generalize hending : (Except.error e : Except ChainError Unit) = ending at h
  induction h with
  | done n => cases hending
  | @take n n' parent stack log ending _ ih =>
    have hsame := sameChain_takeOrphans n parent
    rw [← hsame.store]
    exact ih (Step.sound (.aside hsame) hn) hending
  | @hand n n' n₁ b rest stack result log ending himport _ ih =>
    have hrun := run_of_importOne hn.wellFormed himport
    rw [← hrun.faults_eq]
    exact ih (hrun.sound hn) hending
  | @fail n n' b rest stack e himport =>
    obtain ⟨-, hcause⟩ := (handled_of_importOne himport).of_error hn rfl
    rcases hcause with ⟨hreads, -⟩ | ⟨hwrites, -⟩ | hwrites
    · exact Or.inl hreads
    · exact Or.inr (Or.inl hwrites)
    · exact Or.inr (Or.inr hwrites)

/-- **An import fails only if a write does**, while the store can be read. -/
theorem hindered_of_importBlock_error (hn : n.Orderly) (hsound : n.Sound) {e : ChainError}
    (hreads : n.store.faults.reads = false) (h : n.importBlock b = (.error e, n')) :
    n.store.faults.Hindered := by
  have hcascade := hn.cascade_importBlock b
  rw [h] at hcascade
  exact (hcascade.exists_fault hsound).resolve_left (by rw [hreads]; exact Bool.false_ne_true)

/-! ### The position -/

/-- The second node has the canonical tip, the finalized block, the published status, the pointers
and the pending extrinsics of the first one. -/
structure KeepsPosition (n n' : Node) : Prop where
  best : n'.forkChoice.best = n.forkChoice.best
  height : n'.forkChoice.bestHeight = n.forkChoice.bestHeight
  canonicalTip? : n'.canonicalTip? = n.canonicalTip?
  root : n'.forkChoice.tree.root = n.forkChoice.tree.root
  status : n'.status = n.status
  publications : n'.publications = n.publications
  canonical : n'.store.canonical = n.store.canonical
  finalized : n'.store.finalized = n.store.finalized
  pool : n'.pool = n.pool

namespace KeepsPosition

omit [Crypto] in
theorem refl (n : Node) : n.KeepsPosition n := ⟨rfl, rfl, rfl, rfl, rfl, rfl, rfl, rfl, rfl⟩

omit [Crypto] in
theorem trans (h : n.KeepsPosition m) (h' : m.KeepsPosition n') : n.KeepsPosition n' where
  best := h'.best.trans h.best
  height := h'.height.trans h.height
  canonicalTip? := h'.canonicalTip?.trans h.canonicalTip?
  root := h'.root.trans h.root
  status := h'.status.trans h.status
  publications := h'.publications.trans h.publications
  canonical := h'.canonical.trans h.canonical
  finalized := h'.finalized.trans h.finalized
  pool := h'.pool.trans h.pool

omit [Crypto] in
theorem of_sameChain (h : n.SameChain n') (hpool : n'.pool = n.pool) : n.KeepsPosition n' where
  best := by rw [h.forkChoice]
  height := by rw [h.forkChoice]
  canonicalTip? := by rw [Node.canonicalTip?, Node.canonicalTip?, h.forkChoice]
  root := by rw [h.forkChoice]
  status := h.status
  publications := h.publications
  canonical := by rw [h.store]
  finalized := by rw [h.store]
  pool := hpool

omit [Crypto] in
theorem withPool (h : n.KeepsPosition n') (pool : Mempool) :
    KeepsPosition { n with pool } { n' with pool } :=
  ⟨h.best, h.height, h.canonicalTip?, h.root, h.status, h.publications, h.canonical, h.finalized,
    rfl⟩

theorem withTip {below : TreeEntry} (hwf : n.forkChoice.WellFormed)
    (hfits : n.forkChoice.tree.Fits tip below) : n.KeepsPosition (n.withTip tip below) where
  best := rfl
  height := rfl
  canonicalTip? := by
    obtain ⟨e, he, -⟩ := hwf.best
    obtain ⟨f, hf, htip, -⟩ := ChainTree.find?_graft_of_find? hfits.fresh hfits.on_tree he
    rw [Node.canonicalTip?, Node.canonicalTip?, ForkChoice.bestChainTip?,
      ForkChoice.bestChainTip?]
    simp only [Node.withTip, hf, he, Option.map_some, htip]
  root := rfl
  status := rfl
  publications := rfl
  canonical := rfl
  finalized := rfl
  pool := rfl

theorem put {store : Store} (hput : n.store.put tip.block tip.state = .ok store) :
    n.KeepsPosition { n with store } := by
  refine ⟨rfl, rfl, rfl, rfl, rfl, rfl, ?_, ?_, rfl⟩ <;>
    simp only [(Store.put_eq_ok_iff.1 hput).2, Store.addBlock] <;> split <;> rfl

end KeepsPosition

theorem updatePool_nil (n : Node) : n.updatePool {} = n := rfl

omit [Crypto] in
theorem setPointer_ne_ok (hstuck : n.store.faults.pointerWrites = true) (id : BlockId)
    (store : Store) : n.store.setPointer .canonical id ≠ .ok store := by
  intro hset
  have hwrites : n.store.faults.pointerWrites = false := (Store.setPointer_eq_ok_iff.1 hset).1
  rw [hstuck] at hwrites
  cases hwrites

/-- **While pointers cannot be written, a decision moves nothing.** -/
theorem Decided.keepsPosition (h : Decided n tip answer n') (hwf : n.forkChoice.WellFormed)
    (hstuck : n.store.faults.pointerWrites = true) :
    n.KeepsPosition n' ∧ ∀ outcome update, answer = .ok (outcome, update) → update = {} := by
  cases h with
  | unchanged _ hanswer =>
    refine ⟨.refl n, fun outcome update heq => ?_⟩
    rcases hanswer with ⟨-, rfl⟩ | ⟨-, rfl⟩ | ⟨e, rfl⟩ <;> cases heq <;> rfl
  | stayed hfits _ =>
    refine ⟨.withTip hwf hfits, fun outcome update heq => ?_⟩
    cases heq
    rfl
  | heldBack hfits _ _ _ => exact ⟨.withTip hwf hfits, fun outcome update heq => by cases heq⟩
  | moved _ _ _ _ hstore _ => exact absurd hstore (setPointer_ne_ok hstuck _ _)

/-- **While writes fail, offering a block moves nothing**, and leaves the pool alone. -/
theorem keepsPosition_offer (hn : n.Sound) (hheavy : n.Heavy tip)
    (hfaults : n.store.faults.Hindered) :
    n.KeepsPosition (n.offer tip).2 ∧
      ∀ outcome update, (n.offer tip).1 = .ok (outcome, update) → update = {} := by
  rcases n.offer_cases tip with ⟨e, heq⟩ | ⟨store, hput, heq⟩ <;> rw [heq]
  · exact ⟨.refl n, fun outcome update h => by cases h⟩
  obtain ⟨hwritten, -⟩ := Store.put_eq_ok_iff.1 hput
  have hstuck : n.store.faults.pointerWrites = true := by
    refine hfaults.resolve_left fun hblocked => ?_
    rw [hwritten] at hblocked
    cases hblocked
  have hwf : ({ n with store } : Node).forkChoice.WellFormed := hn.wellFormed
  obtain ⟨hkeeps, hupdate⟩ := (decided_decide hwf hheavy.weight_pos).keepsPosition hwf
    (by rw [Store.faults_put hput]; exact hstuck)
  exact ⟨(KeepsPosition.put hput).trans hkeeps, hupdate⟩

/-- **An offer that fails moves nothing**, whichever write it was. -/
theorem keepsPosition_of_offer_error (hwf : n.forkChoice.WellFormed) (hheavy : n.Heavy tip)
    {e : ChainError} (h : n.offer tip = (.error e, n')) : n.KeepsPosition n' := by
  rcases n.offer_cases tip with ⟨e', heq⟩ | ⟨store, hput, heq⟩ <;> rw [heq] at h
  · cases h
    exact .refl n
  · have hd := decided_decide (n := { n with store }) hwf hheavy.weight_pos
    rw [h] at hd
    refine (KeepsPosition.put hput).trans ?_
    cases hd with
    | unchanged _ _ => exact .refl _
    | heldBack hfits _ _ _ => exact .withTip hwf hfits

/-- **While writes fail, an import of one block moves nothing.** -/
theorem keepsPosition_importOne (hn : n.Sound) (hfaults : n.store.faults.Hindered) (b : Block) :
    n.KeepsPosition (n.importOne b).2 := by
  have hhandled := handled_importOne n b
  generalize (n.importOne b).1 = answer at hhandled
  generalize (n.importOne b).2 = n' at hhandled
  cases hhandled with
  | passed _ _ => exact .refl n
  | unread _ => exact .refl n
  | @refused cause _ =>
    exact .of_sameChain (sameChain_reject n b.id cause) (sameDesk_reject n b.id cause).pool
  | held _ _ _ _ => exact .of_sameChain (sameChain_holdOrphan n b) (sameDesk_holdOrphan n b).pool
  | failed hchecks _ => exact (keepsPosition_offer hn hchecks.heavy hfaults).1
  | decided hchecks hoffer =>
    obtain ⟨hkeeps, hupdate⟩ := keepsPosition_offer hn hchecks.heavy hfaults
    rw [hupdate _ _ hoffer, updatePool_nil]
    exact hkeeps

/-! ### What is gained -/

/-- A block of the tree that passes all checks, on its parent in the tree. -/
def Validated (n : Node) (p : ChainTip) : Prop :=
  p.block.checkShape n.params.consensus = .ok () ∧
    ∃ below, n.forkChoice.tree.find? p.parent = some below ∧
      validateBlock n.engine p.block below.tip = .ok p

/-- Tree and store of the second node are those of the first one with further blocks, and all of
these are valid. -/
structure Gains (n n' : Node) : Prop where
  params_eq : n'.params = n.params
  kept : ∀ {id e}, n.forkChoice.tree.find? id = some e →
    ∃ f, n'.forkChoice.tree.find? id = some f ∧ f.tip = e.tip
  valid : ∀ {id e}, n'.forkChoice.tree.find? id = some e →
    (∃ f, n.forkChoice.tree.find? id = some f ∧ f.tip = e.tip) ∨ n'.Validated e.tip
  stored_kept : ∀ {id sb}, n.store.blocks.find? id = some sb → n'.store.blocks.find? id = some sb
  stored_valid : ∀ {id sb}, n'.store.blocks.find? id = some sb →
    n.store.blocks.find? id = some sb ∨
      ∃ e, n'.forkChoice.tree.find? id = some e ∧ sb = ⟨e.tip.block, e.tip.state⟩ ∧
        n'.Validated e.tip

namespace Gains

theorem validated (h : n.Gains n') {p : ChainTip} (hp : n.Validated p) : n'.Validated p := by
  obtain ⟨hshape, below, hbelow, hvalid⟩ := hp
  obtain ⟨f, hf, htip⟩ := h.kept hbelow
  refine ⟨h.params_eq ▸ hshape, f, hf, ?_⟩
  rw [engine, h.params_eq, htip]
  exact hvalid

theorem of_sameChain (h : n.SameChain n') : n.Gains n' where
  params_eq := h.params
  kept he := ⟨_, h.forkChoice ▸ he, rfl⟩
  valid he := Or.inl ⟨_, h.forkChoice ▸ he, rfl⟩
  stored_kept hsb := h.store ▸ hsb
  stored_valid hsb := Or.inl (h.store ▸ hsb)

theorem trans (h : n.Gains m) (h' : m.Gains n') : n.Gains n' where
  params_eq := h'.params_eq.trans h.params_eq
  kept he := by
    obtain ⟨f, hf, hfe⟩ := h.kept he
    obtain ⟨g, hg, hgf⟩ := h'.kept hf
    exact ⟨g, hg, hgf.trans hfe⟩
  valid he := by
    rcases h'.valid he with ⟨f, hf, hfe⟩ | hnew
    · rcases h.valid hf with ⟨g, hg, hgf⟩ | hnew
      · exact Or.inl ⟨g, hg, hgf.trans hfe⟩
      · exact Or.inr (hfe ▸ h'.validated hnew)
    · exact Or.inr hnew
  stored_kept hsb := h'.stored_kept (h.stored_kept hsb)
  stored_valid hsb := by
    rcases h'.stored_valid hsb with hsb | hnew
    · rcases h.stored_valid hsb with hsb | ⟨e, he, heq, hnew⟩
      · exact Or.inl hsb
      · obtain ⟨f, hf, hfe⟩ := h'.kept he
        exact Or.inr ⟨f, hf, hfe ▸ heq, hfe ▸ h'.validated hnew⟩
    · exact Or.inr hnew

end Gains

/-- While pointers cannot be written, a decision attaches a block that fits, and that is all. -/
theorem Decided.eq_withTip {below : TreeEntry} (h : Decided n tip answer n')
    (hfits : n.forkChoice.tree.Fits tip below)
    (hstuck : n.store.faults.pointerWrites = true) : n' = n.withTip tip below := by
  have hsame : ∀ {below'}, n.forkChoice.tree.Fits tip below' → below' = below := by
    intro below' hfits'
    have hon := hfits'.on_tree
    rw [hfits.on_tree] at hon
    exact (Option.some.inj hon).symm
  cases h with
  | unchanged hnot _ => exact absurd hfits (hnot below)
  | stayed hfits' _ => rw [hsame hfits']
  | heldBack hfits' _ _ _ => rw [hsame hfits']
  | moved _ _ _ _ hstore _ => exact absurd hstore (setPointer_ne_ok hstuck _ _)

theorem gains_withTip {below : TreeEntry} (hfits : n.forkChoice.tree.Fits tip below)
    (hshape : tip.block.checkShape n.params.consensus = .ok ())
    (hvalid : validateBlock n.engine tip.block below.tip = .ok tip) :
    n.Gains (withTip { n with store := n.store.addBlock tip.block tip.state } tip below) := by
  -- attaching leaves the blocks from before with their states
  have hkept : ∀ {id e}, n.forkChoice.tree.find? id = some e →
      ∃ f, (n.forkChoice.tree.graft tip below).find? id = some f ∧ f.tip = e.tip := by
    intro id e he
    obtain ⟨f, hf, htip, -⟩ := ChainTree.find?_graft_of_find? hfits.fresh hfits.on_tree he
    exact ⟨f, hf, htip⟩
  have hnew : Validated
      (withTip { n with store := n.store.addBlock tip.block tip.state } tip below) tip := by
    obtain ⟨f, hf, htip⟩ := hkept hfits.on_tree
    exact ⟨hshape, f, hf, by rw [htip]; exact hvalid⟩
  refine ⟨rfl, hkept, fun he => ?_, fun hsb => ?_, fun {id sb} hsb => ?_⟩
  · rcases ChainTree.find?_of_find?_graft hfits.on_tree he with ⟨-, rfl⟩ | ⟨f, -, hf, htip, -⟩
    · exact Or.inr hnew
    · exact Or.inl ⟨f, hf, htip.symm⟩
  · exact Store.find?_record hsb (.block tip.block tip.state)
  · simp only [withTip, Store.find?_addBlock] at hsb
    split at hsb
    · rename_i hid
      cases hsb
      refine Or.inr ⟨⟨tip, [], Sums.addWeights below.cumulativeWeight tip.weight⟩, ?_, rfl, hnew⟩
      exact (ChainTree.find?_graft below id).trans (if_pos hid.2)
    · exact Or.inl hsb

/-- **While writes fail, a valid block that is offered is gained**, or not stored. -/
theorem gains_offer (hn : n.Sound) (hfaults : n.store.faults.Hindered) {below : TreeEntry}
    (hfits : n.forkChoice.tree.Fits tip below)
    (hshape : tip.block.checkShape n.params.consensus = .ok ())
    (hvalid : validateBlock n.engine tip.block below.tip = .ok tip) :
    n.Gains (n.offer tip).2 := by
  rcases n.offer_cases tip with ⟨e, heq⟩ | ⟨store, hput, heq⟩
  · rw [heq]
    exact .of_sameChain (.refl n)
  obtain ⟨hwritten, hadded⟩ := Store.put_eq_ok_iff.1 hput
  have hstuck : store.faults.pointerWrites = true := by
    rw [Store.faults_put hput]
    refine hfaults.resolve_left fun hblocked => ?_
    rw [hwritten] at hblocked
    cases hblocked
  have hd := decided_decide (n := { n with store }) hn.wellFormed
    (heavy_of_validateBlock hvalid).weight_pos
  rw [heq, hd.eq_withTip hfits hstuck, hadded]
  exact gains_withTip hfits hshape hvalid

/-- **While writes fail, an import of one block gains that block**, or nothing. -/
theorem gains_importOne (hn : n.Sound) (hfaults : n.store.faults.Hindered) (b : Block) :
    n.Gains (n.importOne b).2 := by
  rcases n.importOne_cases b with ⟨hsame, -⟩ | ⟨below, tip, hfresh, hshape, hbelow, hvalid, heq⟩
  · exact .of_sameChain hsame
  have hsnd : (n.importOne b).2 = (n.submitTip tip).2 := by
    rw [heq]
    rcases n.submitTip tip with ⟨_ | outcome, n'⟩ <;> rfl
  obtain rfl := block_eq_of_validateBlock hvalid
  have hfits : n.forkChoice.tree.Fits tip below :=
    ⟨hfresh, hbelow, (follows_of_validateBlock hvalid).height_eq⟩
  rw [hsnd]
  exact (gains_offer hn hfaults hfits hshape hvalid).trans
    (.of_sameChain (sameChain_submitTip n tip))

theorem sameChain_importOne (hblocked : n.store.faults.blockWrites = true) (b : Block) :
    n.SameChain (n.importOne b).2 := by
  rcases n.importOne_cases b with ⟨hsame, -⟩ | ⟨below, tip, -, -, -, -, heq⟩
  · exact hsame
  rcases n.offer_cases tip with ⟨e, hoffer⟩ | ⟨store, hput, -⟩
  · rw [submitTip_eq, hoffer] at heq
    rw [heq]
    exact .refl n
  · have hwritten := (Store.put_eq_ok_iff.1 hput).1
    rw [hblocked] at hwritten
    cases hwritten

/-! ### The whole import -/

section Import

variable (hn : n.Orderly) (hsound : n.Sound)

include hn hsound

/-- **While writes fail, an import moves nothing and gains only valid blocks**, whatever orphans it
releases. -/
theorem keepsPosition_importBlock (hfaults : n.store.faults.Hindered) (b : Block) :
    n.KeepsPosition (n.importBlock b).2 ∧ n.Gains (n.importBlock b).2 := by
  have hcascade := hn.cascade_importBlock b
  refine ⟨hcascade.relate (P := fun _ n n' => n.KeepsPosition n') (F := Faults.Hindered) .refl
      .trans (fun m parent => ?_) (fun x hm hhindered => keepsPosition_importOne hm hhindered x.block)
      hsound hfaults,
    hcascade.relate (P := fun _ n n' => n.Gains n') (F := Faults.Hindered)
      (fun m => .of_sameChain (.refl m)) .trans
      (fun m parent => .of_sameChain (sameChain_takeOrphans m parent))
      (fun x hm hhindered => gains_importOne hm hhindered x.block) hsound hfaults⟩
  refine .of_sameChain (sameChain_takeOrphans m parent) ?_
  rw [takeOrphans]
  split <;> rfl

theorem sameChain_importBlock (hblocked : n.store.faults.blockWrites = true) (b : Block) :
    n.SameChain (n.importBlock b).2 :=
  (hn.cascade_importBlock b).relate (P := fun _ n n' => n.SameChain n')
    (F := fun faults => faults.blockWrites = true) .refl .trans sameChain_takeOrphans
    (fun x _ hblocked => sameChain_importOne hblocked x.block) hsound hblocked

end Import

/-! ### Blocks that are not forgotten -/

/-- A block with its weight is the canonical tip, or is beaten by it. -/
def Tops (n : Node) (x : BlockId × Nat) : Prop :=
  n.rank = x ∨ ForkChoice.beats n.rank x = true

/-- A block with its weight is in the tree. -/
def Carries (n : Node) (x : BlockId × Nat) : Prop :=
  ∃ e, n.forkChoice.tree.find? x.1 = some e ∧ e.cumulativeWeight = x.2

omit [Crypto] in
theorem Tops.of_noWorse {x : BlockId × Nat} (h : n.Tops x) (hworse : n.NoWorse n') :
    n'.Tops x := by
  rcases hworse with heq | hbeats
  · rw [Tops, heq]
    exact h
  · rcases h with rfl | hbeats'
    · exact Or.inr hbeats
    · exact Or.inr (ForkChoice.beats_trans hbeats hbeats')

theorem AtBest.tops (h : n.AtBest) (hwf : n.forkChoice.WellFormed) {x : BlockId × Nat}
    (hx : n.Carries x) : n.Tops x := by
  obtain ⟨e, he, hw⟩ := hx
  obtain ⟨g, hg, -⟩ := hwf.best
  rw [Tops, rank, ForkChoice.rank_eq hg, show x = (x.1, e.cumulativeWeight) from Prod.ext rfl hw.symm]
  by_cases hid : x.1 = n.forkChoice.best
  · rw [hid, hg] at he
    cases he
    exact Or.inl (by rw [hid])
  · exact Or.inr (h.beats hg he hid)

/-- A decision drops no block from the tree, unless the canonical tip tops it. -/
theorem Decided.weighs (h : Decided n tip answer n') (hwf : n.forkChoice.WellFormed)
    (hpos : 1 ≤ tip.weight) {x : BlockId × Nat} (hx : n.Carries x) :
    n'.Carries x ∨ n'.Tops x := by
  have hgraft : ∀ {below}, n.forkChoice.tree.Fits tip below → (n.withTip tip below).Carries x := by
    intro below hfits
    obtain ⟨e, he, hw⟩ := hx
    obtain ⟨f, hf, -, hcw, -⟩ := ChainTree.find?_graft_of_find? hfits.fresh hfits.on_tree he
    exact ⟨f, hf, hcw.trans hw⟩
  cases h with
  | unchanged _ _ => exact Or.inl hx
  | stayed hfits _ => exact Or.inl (hgraft hfits)
  | heldBack hfits _ _ _ => exact Or.inl (hgraft hfits)
  | @moved below id outcome store _ hfits hbest _ _ _ hsettled =>
    right
    have hwf' := hwf.graft hfits hpos
    obtain ⟨g, hg, -⟩ := hwf'.tree.mem_tips.1 hbest.mem_tips
    have hmoved : ((n.withTip tip below).moveTo id).AtBest := hbest
    rw [Tops, hsettled.rank_eq]
    exact hmoved.tops (hwf'.setBest hg) (hgraft hfits)

/-- **What was in the tree once is in it, or topped by the canonical tip**, at all later moments of
the session. -/
theorem Session.weighs (h : n.Session n') (hn : n.Sound) {x : BlockId × Nat} (hx : n.Carries x) :
    n'.Carries x ∨ n'.Tops x := by
  refine (h.induct (I := fun m => m.Carries x ∨ m.Tops x) (fun {m m'} hm hkeep hmove => ?_) hn
    (Or.inl hx)).2
  cases hmove with
  | setFaults faults => exact hkeep
  | step hstep =>
    rcases hkeep with hin | htops
    · cases hstep with
      | aside hsame =>
        rw [Carries, hsame.forkChoice]
        exact Or.inl hin
      | shutdown =>
        rw [Carries, forkChoice_shutdown]
        exact Or.inl hin
      | @offer tip hheavy =>
        rcases m.offer_cases tip with ⟨e, heq⟩ | ⟨store, -, heq⟩ <;> rw [heq]
        · exact Or.inl hin
        · have hwf : ({ m with store } : Node).forkChoice.WellFormed := hm.wellFormed
          exact (decided_decide hwf hheavy.weight_pos).weighs hwf hheavy.weight_pos hin
    · exact Or.inr (htops.of_noWorse (hstep.noWorse hm.wellFormed))

end Node

end LedgerChain
