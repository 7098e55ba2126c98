import LedgerChain.Proofs.ForkChoice.Replay
import LedgerChain.Proofs.Node.AtBest
import LedgerChain.Proofs.Node.Session
import LedgerChain.Proofs.Node.Start

/-!
# Finality

The root of a node's tree is its last finalized block.  A block is **final** for the node if the root
is that block or descends from it (`Node.Final`); final blocks below the root are in the tree no
more.

Whatever a node does, and however its store fails in between (`Node.Session`), what is final stays
final (`Session.descends`).  No decision retracts a final block, since all retracted blocks are
higher than the root (`not_final_of_retracted`), and one that moves the canonical tip leaves the
root exactly as far below it as blocks become final there, or where it was
(`exists_finalized_offer`).
-/

namespace LedgerChain

/-- The blocks that leave the canonical chain by an outcome. -/
def Outcome.retracted : Outcome → List Block
  | switched retract _ => retract
  | _ => []

namespace ForkChoice

variable [Crypto] {f f' : ForkChoice} {t : ChainTree} {b : Block} {below e : TreeEntry}
  {tip : ChainTip}

/-- The last finalized block. -/
def finalized? (f : ForkChoice) : Option Block :=
  (f.tree.find? f.tree.root).map fun e => e.tip.block

omit [Crypto] in
theorem finalized?_eq (h : f.tree.find? f.tree.root = some e) :
    f.finalized? = some e.tip.block := by
  rw [finalized?, h, Option.map_some]

theorem Rooted.exists_finalized (h : f.Rooted) :
    ∃ root, f.finalized? = some root ∧ root.height = f.tree.rootHeight := by
  obtain ⟨r, hr⟩ := h.tree.root_mem
  exact ⟨r.tip.block, finalized?_eq hr, (ChainTree.rootHeight_eq hr).symm⟩

omit [Crypto] in
theorem height_of_finalized? (h : f.finalized? = some b) : b.height = f.tree.rootHeight := by
  obtain ⟨r, hr, rfl⟩ := Option.map_eq_some_iff.1 h
  exact (ChainTree.rootHeight_eq hr).symm

theorem Rooted.tip_descends (h : f.Rooted) :
    ∃ root top, f.finalized? = some root ∧ f.bestChainTip? = some top ∧
      top.height = f.bestHeight ∧ top.block.Descends root := by
  obtain ⟨r, hr⟩ := h.tree.root_mem
  obtain ⟨e, he, hheight⟩ := h.best
  exact ⟨r.tip.block, e.tip, finalized?_eq hr, by rw [bestChainTip?, he]; rfl, hheight,
    h.tree.descends_of_mem_lineage (h.tree.root_mem_lineage he) hr he⟩

theorem Rooted.root_graft (h : f.Rooted) (hfits : f.tree.Fits tip below) :
    finalized? { f with tree := f.tree.graft tip below } = f.finalized? ∧
      (f.tree.graft tip below).rootHeight = f.tree.rootHeight := by
  obtain ⟨r, hr⟩ := h.tree.root_mem
  obtain ⟨r', hr', htip, -⟩ := ChainTree.find?_graft_of_find? hfits.fresh hfits.on_tree hr
  refine ⟨?_, ?_⟩
  · rw [finalized?_eq hr, finalized?_eq (f := { f with tree := f.tree.graft tip below }) hr', htip]
  · rw [ChainTree.rootHeight_eq hr, ChainTree.rootHeight_eq (t := f.tree.graft tip below) hr',
      TreeEntry.height, htip]
    rfl

theorem Rooted.descends_cutBack (h : f.Rooted) (hmem : t.root ∈ f.tree.lineage f.best)
    (hpart : f.tree.IsUpperPart t.root t) :
    ∃ old new, f.finalized? = some old ∧ finalized? { f with tree := t } = some new ∧
      new.Descends old := by
  obtain ⟨r, hr⟩ := h.tree.root_mem
  obtain ⟨g, hg⟩ := h.tree.find?_of_mem_lineage_left hmem
  have hg' : t.find? t.root = some g := (hpart.find?_eq (h.tree.self_mem_lineage hg)).trans hg
  exact ⟨r.tip.block, g.tip.block, finalized?_eq hr,
    finalized?_eq (f := { f with tree := t }) hg',
    h.tree.descends_of_mem_lineage (h.tree.root_mem_lineage hg) hr hg⟩

theorem Rooted.head?_chain (h : f.Rooted) : f.chain.head? = f.finalized? := by
  obtain ⟨e, he, -⟩ := h.best
  obtain ⟨r, hr⟩ := h.tree.root_mem
  rw [chain, ← h.tree.takeWhile_append_lineage (h.tree.root_mem_lineage he), h.tree.lineage_root,
    ChainTree.blocks_append, ChainTree.blocks_cons hr, List.reverse_append, finalized?_eq hr]
  rfl

/-- **Retracted blocks are higher than the root**: the chain keeps its first block, and heights grow
along it. -/
theorem Rooted.rootHeight_lt_of_retracted (h : f.Rooted) {outcome : Outcome}
    (htold : f.Told tip f' (.ok outcome)) (hb : b ∈ outcome.retracted) :
    f.tree.rootHeight < b.height := by
  cases outcome with
  | extended => cases hb
  | ignored reason => cases hb
  | switched retract apply =>
    obtain ⟨-, ⟨kept, hkept, hbefore, -⟩, -⟩ := htold
    obtain ⟨root, hroot, hheight⟩ := h.exists_finalized
    have hhead := h.head?_chain
    rw [hbefore, List.head?_append_of_ne_nil _ hkept, hroot] at hhead
    obtain ⟨rest, rfl⟩ := List.head?_eq_some_iff.1 hhead
    -- along the chain every block is higher than all before it
    have hrise : f.chain.Pairwise fun below b => below.height < b.height :=
      List.IsChain.pairwise (h.isChain_chain.imp fun below b hon => by rw [hon.2]; omega)
    rw [hbefore] at hrise
    rw [← hheight]
    exact (List.pairwise_append.1 hrise).2.2 root List.mem_cons_self b (List.mem_reverse.2 hb)

end ForkChoice

namespace Node

variable [Crypto] {k m n n' : Node} {tip : ChainTip} {b : Block} {outcome : Outcome}
  {update : PoolUpdate} {answer : Except ChainError (Outcome × PoolUpdate)}

/-- A block is final: the last finalized block is that block, or descends from it. -/
def Final (n : Node) (b : Block) : Prop :=
  ∃ root, n.forkChoice.finalized? = some root ∧ root.Descends b

/-! ### Decisions -/

theorem Decided.descends (h : Decided n tip answer n') (hwf : n.forkChoice.WellFormed)
    (hpos : 1 ≤ tip.weight) :
    ∃ old new, n.forkChoice.finalized? = some old ∧ n'.forkChoice.finalized? = some new ∧
      new.Descends old := by
  obtain ⟨root, hroot, -⟩ := hwf.rooted.exists_finalized
  have hgraft : ∀ {below}, n.forkChoice.tree.Fits tip below →
      (n.withTip tip below).forkChoice.finalized? = some root :=
    fun hfits => (hwf.rooted.root_graft hfits).1.trans hroot
  -- the root moves only if the canonical tip does
  cases h with
  | unchanged _ _ => exact ⟨root, root, hroot, hroot, .refl _⟩
  | stayed hfits _ => exact ⟨root, root, hroot, hgraft hfits, .refl _⟩
  | heldBack hfits _ _ _ => exact ⟨root, root, hroot, hgraft hfits, .refl _⟩
  | moved hfits hbest _ _ _ hsettled =>
    have hwf' := hwf.graft hfits hpos
    obtain ⟨e, he, -⟩ := hwf'.tree.mem_tips.1 hbest.mem_tips
    obtain ⟨t, hcut, heq, -⟩ := hsettled.exists_tree
    obtain ⟨old, new, hold, hnew, hdesc⟩ :=
      (hwf'.setBest he).rooted.descends_cutBack hcut.root_mem hcut.isUpperPart
    rw [heq]
    exact ⟨old, new, hroot.trans ((hgraft hfits).symm.trans hold), hnew, hdesc⟩

/-- A decision that moves the canonical tip leaves the root as far below it as blocks become final
there, or where it was if that is higher. -/
theorem Decided.rootHeight_eq (h : Decided n tip (.ok (outcome, update)) n')
    (hwf : n.forkChoice.WellFormed) (hchanged : outcome.changedCanonical = true) :
    n'.forkChoice.tree.rootHeight = max n.forkChoice.tree.rootHeight
      (n'.forkChoice.bestHeight - n.forkChoice.finalityDepth) := by
  cases h with
  | unchanged _ hanswer =>
    rcases hanswer with ⟨-, heq⟩ | ⟨-, heq⟩ | ⟨e, heq⟩ <;> cases heq <;> cases hchanged
  | stayed _ _ => cases hchanged
  | moved hfits _ _ _ _ hsettled =>
    obtain ⟨t, hcut, heq, -⟩ := hsettled.exists_tree
    rw [heq, ← (hwf.rooted.root_graft hfits).2]
    exact hcut.rootHeight_eq

/-! ### Offers -/

theorem consider_of_offer (h : (n.offer tip).1 = .ok (outcome, update)) :
    (n.forkChoice.consider tip).1 = .ok outcome := by
  rcases n.offer_cases tip with ⟨e, heq⟩ | ⟨store, -, heq⟩ <;> rw [heq] at h
  · cases h
  · rw [decide] at h
    rcases hcons : n.forkChoice.consider tip with ⟨e | o, f⟩ <;> simp only [hcons] at h
    · cases h
    · split at h
      · cases h
        rfl
      · split at h
        · split at h <;> cases h
        · cases h
          rfl

theorem rootHeight_lt_of_offer (hwf : n.forkChoice.WellFormed)
    (h : (n.offer tip).1 = .ok (outcome, update)) (hb : b ∈ outcome.retracted) :
    n.forkChoice.tree.rootHeight < b.height := by
  have htold := (hwf.rooted.told_consider (ChainTree.not_overflows _ tip)).1
  rw [consider_of_offer h] at htold
  exact hwf.rooted.rootHeight_lt_of_retracted htold hb

/-- **After the canonical tip moved, the last finalized block is the one below it at the height at
which blocks become final**, or the one from before if that is higher. -/
theorem exists_finalized_offer (hwf : n.forkChoice.WellFormed) (hpos : 1 ≤ tip.weight)
    (h : (n.offer tip).1 = .ok (outcome, update)) (hchanged : outcome.changedCanonical = true) :
    ∃ old new top, n.forkChoice.finalized? = some old ∧
      (n.offer tip).2.forkChoice.finalized? = some new ∧
      (n.offer tip).2.canonicalTip? = some top ∧ new.Descends old ∧ top.block.Descends new ∧
      new.height = max old.height (top.height - n.forkChoice.finalityDepth) := by
  rcases n.offer_cases tip with ⟨e, heq⟩ | ⟨store, -, heq⟩ <;> rw [heq] at h ⊢
  · cases h
  · have hwf' : ({ n with store } : Node).forkChoice.WellFormed := hwf
    have hd := decided_decide hwf' hpos
    rw [h] at hd
    obtain ⟨old, new, hold, hnew, hdesc⟩ := hd.descends hwf' hpos
    obtain ⟨new', top, hnew', htop, hheight, habove⟩ :=
      (hd.wellFormed hwf' hpos).rooted.tip_descends
    rw [hnew] at hnew'
    cases hnew'
    refine ⟨old, new, top, hold, hnew, htop, hdesc, habove, ?_⟩
    rw [ForkChoice.height_of_finalized? hnew, ForkChoice.height_of_finalized? hold, hheight]
    exact hd.rootHeight_eq hwf' hchanged

/-! ### Sessions -/

theorem Step.finalityDepth_eq (h : Step Heavy n n') (hwf : n.forkChoice.WellFormed) :
    n'.forkChoice.finalityDepth = n.forkChoice.finalityDepth := by
  cases h with
  | aside hsame => rw [hsame.forkChoice]
  | shutdown => rw [n.forkChoice_shutdown]
  | @offer tip hheavy =>
    rcases n.offer_cases tip with ⟨e, heq⟩ | ⟨store, -, heq⟩ <;> rw [heq]
    have hwf' : ({ n with store } : Node).forkChoice.WellFormed := hwf
    exact (decided_decide hwf' hheavy.weight_pos).rest_eq.2.2.2

/-- Blocks become final at the depth that the parameters say. -/
def AtDepth (n : Node) : Prop := n.forkChoice.finalityDepth = n.params.run.finalityDepth

theorem atDepth_of_start {params : Params} {s s' : Store} {pool : Mempool} {initial : State}
    (h : start params s pool initial = (.ok n, s')) : n.AtDepth := by
  obtain ⟨root, s₁, t, -, -, -, rfl⟩ := start_ok_cases h
  exact ForkChoice.finalityDepth_ofTree _ _

theorem Move.atDepth (h : Move n n') (hwf : n.forkChoice.WellFormed) (hd : n.AtDepth) :
    n'.AtDepth := by
  cases h with
  | setFaults faults => exact hd
  | step h =>
    rw [AtDepth, h.finalityDepth_eq hwf, h.params_eq]
    exact hd

theorem Session.atDepth (h : n.Session n') (hn : n.Sound) (hd : n.AtDepth) : n'.AtDepth :=
  (h.induct (fun hm hd hmove => hmove.atDepth hm.wellFormed hd) hn hd).2

theorem Step.descends (h : Step Heavy n n') (hwf : n.forkChoice.WellFormed) :
    ∃ old new, n.forkChoice.finalized? = some old ∧ n'.forkChoice.finalized? = some new ∧
      new.Descends old := by
  obtain ⟨root, hroot, -⟩ := hwf.rooted.exists_finalized
  cases h with
  | aside hsame => exact ⟨root, root, hroot, hsame.forkChoice ▸ hroot, .refl _⟩
  | shutdown => exact ⟨root, root, hroot, n.forkChoice_shutdown ▸ hroot, .refl _⟩
  | @offer tip hheavy =>
    rcases n.offer_cases tip with ⟨e, heq⟩ | ⟨store, -, heq⟩ <;> rw [heq]
    · exact ⟨root, root, hroot, hroot, .refl _⟩
    · have hwf' : ({ n with store } : Node).forkChoice.WellFormed := hwf
      exact (decided_decide hwf' hheavy.weight_pos).descends hwf' hheavy.weight_pos

theorem Move.descends (h : Move n n') (hwf : n.forkChoice.WellFormed) :
    ∃ old new, n.forkChoice.finalized? = some old ∧ n'.forkChoice.finalized? = some new ∧
      new.Descends old := by
  cases h with
  | step h => exact h.descends hwf
  | setFaults faults =>
    obtain ⟨root, hroot, -⟩ := hwf.rooted.exists_finalized
    exact ⟨root, root, hroot, hroot, .refl _⟩

/-- **What is finalized later descends from what was finalized before.** -/
theorem Session.descends (h : n.Session n') (hn : n.Sound) :
    ∃ old new, n.forkChoice.finalized? = some old ∧ n'.forkChoice.finalized? = some new ∧
      new.Descends old := by
  obtain ⟨old, hold, -⟩ := hn.wellFormed.rooted.exists_finalized
  have hlast : n'.Final old := by
    refine (h.induct (I := fun m => m.Final old) (fun hm hfinal hmove => ?_) hn
      ⟨old, hold, .refl _⟩).2
    obtain ⟨mid, hmid, hdesc⟩ := hfinal
    obtain ⟨mid', new, hmid', hnew, hdesc'⟩ := hmove.descends hm.wellFormed
    rw [hmid] at hmid'
    cases hmid'
    exact ⟨new, hnew, hdesc'.trans hdesc⟩
  obtain ⟨new, hnew, hdesc⟩ := hlast
  exact ⟨old, new, hold, hnew, hdesc⟩

/-- **A block that is final is never retracted later**: it is not higher than the root. -/
theorem not_final_of_retracted (hk : k.Sound) (hsession : k.Session n)
    (h : (n.offer tip).1 = .ok (outcome, update)) (hb : b ∈ outcome.retracted) : ¬ k.Final b := by
  rintro ⟨root, hroot, hfinal⟩
  obtain ⟨old, new, hold, hnew, hdesc⟩ := hsession.descends hk
  rw [hroot] at hold
  cases hold
  have hlow : b.height ≤ new.height := hfinal.height_le.trans hdesc.height_le
  have hhigh := rootHeight_lt_of_offer (hsession.sound hk).wellFormed h hb
  rw [ForkChoice.height_of_finalized? hnew] at hlow
  exact absurd hlow (Nat.not_le.2 hhigh)

/-! ### Outcomes of operations -/

omit [Crypto] in
theorem eq_of_ofOutcome {o : Outcome} (h : ImportResult.ofOutcome o = .accepted outcome) :
    o = outcome := by
  unfold ImportResult.ofOutcome at h
  split at h
  · cases h
  · cases h
  · exact ImportResult.accepted.inj h

/-- An import answers what the node answers to the block alone, unless a block that is released with
it fails. -/
theorem importOne_of_importBlock {result : ImportResult} (h : (n.importBlock b).1 = .ok result) :
    (n.importOne b).1 = .ok result := by
  rw [importBlock] at h
  rcases hres : n.importOne b with ⟨e | result', n₁⟩ <;> rw [hres] at h
  · cases h
  · simp only at h
    split at h
    · exact h
    · rcases hrel : n₁.releaseOrphans b.id with ⟨_ | _, n₂⟩ <;> rw [hrel] at h
      · cases h
      · exact h

theorem importBlock_eq_importOne (h : ∀ o, (n.importOne b).1 ≠ .ok (.accepted o)) :
    n.importBlock b = n.importOne b := by
  rw [importBlock]
  rcases hone : n.importOne b with ⟨e | result, n₁⟩
  · rfl
  · rw [hone] at h
    cases result with
    | accepted o => exact absurd rfl (h o)
    | ignored _ | pendingParent | rejected _ => rfl

theorem importOne_of_not_accepted {result : ImportResult} (hnot : result.isAccepted = false)
    (h : n.importBlock b = (.ok result, n')) : n.importOne b = (.ok result, n') := by
  have hanswer := importOne_of_importBlock (congrArg Prod.fst h)
  rw [← importBlock_eq_importOne fun o ho => ?_, h]
  rw [hanswer, Except.ok.injEq] at ho
  rw [ho] at hnot
  cases hnot

theorem exists_offer_of_importBlock (h : (n.importBlock b).1 = .ok (.accepted outcome)) :
    ∃ tip update, (n.offer tip).1 = .ok (outcome, update) := by
  have hone := importOne_of_importBlock h
  rcases n.importOne_cases b with ⟨-, hnot⟩ | ⟨below, tip, -, -, -, -, heq⟩
  · exact absurd hone (hnot outcome)
  · rw [heq, submitTip_eq] at hone
    rcases hoffer : n.offer tip with ⟨e | ⟨o, update⟩, n₁⟩ <;> rw [hoffer] at hone
    · cases hone
    · exact ⟨tip, update, by rw [hoffer, eq_of_ofOutcome (Except.ok.inj hone)]⟩

theorem exists_offer_of_author (hn : n.Sound) {config : AuthoringConfig}
    {timelines : Nat → Timeline} {r : AuthoredBlock}
    (h : (n.author config timelines).1.result = .ok r) :
    ∃ m tip update, n.Session m ∧ (m.offer tip).1 = .ok (r.outcome, update) := by
  rcases hres : n.author config timelines with ⟨⟨result, answers⟩, n'⟩
  rw [hres] at h
  obtain rfl : result = .ok r := h
  obtain ⟨m, a, tip, ⟨hrun, -, -⟩, hsub⟩ := admits_sound.authorFrom_made hn hres
  obtain ⟨-, -, update, n₁, hoffer, -⟩ := submitSealed_made_cases hsub
  have haside : Run Heavy n (m.unregister a.token) :=
    hrun.tail (.aside (sameChain_unregister m a.token))
  exact ⟨m.unregister a.token, tip, update, .of_run haside, by rw [hoffer]⟩

end Node

end LedgerChain
