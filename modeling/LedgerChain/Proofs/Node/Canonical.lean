import LedgerChain.Proofs.Node.Acts
import LedgerChain.Proofs.Node.Finality

/-!
# Blocks that stay canonical

A block that extends the canonical chain is the best tip at that moment.  The orphans that it
releases can only make the chain longer: whatever comes into the tree lies above the block
(`Node.Above`), so the canonical tip, which is the best tip all along, does so as well
(`Node.Cascade.canonical`).
-/

namespace LedgerChain

variable [Crypto]

namespace Node

variable {n n' : Node} {b x : Block} {tip p : ChainTip} {rest : List Block} {stack : List BlockId}
  {log : List Handing} {ending : Except ChainError Unit}

/-- The block is in the canonical chain. -/
def Canonical (n : Node) (b : Block) : Prop :=
  ∃ top, n.canonicalTip? = some top ∧ top.block.Descends b

/-- Whatever is in the tree under the identifier descends from the block. -/
def Above (n : Node) (b : Block) (id : BlockId) : Prop :=
  ∀ e, n.forkChoice.tree.find? id = some e → e.tip.block.Descends b

theorem canonical_iff (hwf : n.forkChoice.WellFormed) :
    n.Canonical b ↔ n.Above b n.forkChoice.best := by
  obtain ⟨e, he, -⟩ := hwf.best
  rw [Canonical, canonicalTip?, ForkChoice.bestChainTip?, he]
  constructor
  · rintro ⟨top, htop, hdesc⟩ f hf
    cases htop
    rw [he] at hf
    cases hf
    exact hdesc
  · exact fun habove => ⟨_, rfl, habove e he⟩

/-! ### One block -/

theorem Above.descends_of_fits {below : TreeEntry} (h : n.Above b tip.parent)
    (hwf : n.forkChoice.WellFormed) (hfits : n.forkChoice.tree.Fits tip below) :
    tip.block.Descends b :=
  .head ⟨(hwf.tree.id_eq hfits.on_tree).symm, hfits.height_eq⟩ (h _ hfits.on_tree)

theorem Above.offer {id : BlockId} (h : n.Above b id) (hsound : n.Sound) (hheavy : n.Heavy tip)
    (hnew : tip.block.Descends b) : (n.offer tip).2.Above b id := by
  intro e he
  rcases find?_of_find?_offer hsound hheavy he with ⟨rfl, -⟩ | ⟨f, hf, hsame⟩
  · exact hnew
  · rw [hsame]
    exact h f hf

/-- A canonical tip that is the best tip moves to new blocks only. -/
theorem Decided.best_eq_or {answer : Except ChainError (Outcome × PoolUpdate)}
    (h : Decided n tip answer n') (hwf : n.forkChoice.WellFormed) (hbest : n.AtBest) :
    n'.forkChoice.best = n.forkChoice.best ∨
      (n'.forkChoice.best = tip.id ∧ n.forkChoice.tree.find? tip.id = none) := by
  obtain ⟨e, he, -⟩ := hwf.best
  cases h with
  | unchanged _ _ => exact Or.inl rfl
  | stayed _ _ => exact Or.inl rfl
  | heldBack _ _ _ _ => exact Or.inl rfl
  | @moved below id outcome store _ hfits hnew hne _ _ hsettled =>
    right
    obtain ⟨t, -, heq, -⟩ := hsettled.exists_tree
    rw [heq]
    refine ⟨?_, hfits.fresh⟩
    rcases (ChainTree.mem_tips_graft below).1 hnew.mem_tips with hid | ⟨hold, -⟩
    · exact hid
    · -- two blocks of the tree cannot beat each other
      obtain ⟨f, hf, -⟩ := hwf.tree.mem_tips.1 hold
      obtain ⟨e', he', -, hwe, -⟩ := ChainTree.find?_graft_of_find? hfits.fresh hfits.on_tree he
      obtain ⟨f', hf', -, hwf', -⟩ := ChainTree.find?_graft_of_find? hfits.fresh hfits.on_tree hf
      have hdown := hbest.beats he hf hne
      have hup := hnew.beats hf' he' (Ne.symm hne)
      rw [hwe, hwf', ForkChoice.beats_asymm hdown] at hup
      cases hup

/-- **A chain with a block keeps it when a descendant is offered**, if the canonical tip is the best
tip. -/
theorem Canonical.offer (h : n.Canonical b) (hsound : n.Sound) (hbest : n.AtBest)
    (hheavy : n.Heavy tip) (hnew : tip.block.Descends b) : (n.offer tip).2.Canonical b := by
  have hstep : Step Heavy n (n.offer tip).2 := .offer hheavy
  rw [canonical_iff (hstep.wellFormed hsound.wellFormed)]
  have hold := (canonical_iff hsound.wellFormed).1 h
  have hmoved : (n.offer tip).2.forkChoice.best = n.forkChoice.best ∨
      ((n.offer tip).2.forkChoice.best = tip.id ∧ n.forkChoice.tree.find? tip.id = none) := by
    rcases n.offer_cases tip with ⟨e, heq⟩ | ⟨store, -, heq⟩ <;> rw [heq]
    · exact Or.inl rfl
    · have hwf : ({ n with store } : Node).forkChoice.WellFormed := hsound.wellFormed
      exact (decided_decide hwf hheavy.weight_pos).best_eq_or hwf hbest
  intro e he
  rcases find?_of_find?_offer hsound hheavy he with ⟨rfl, -⟩ | ⟨f, hf, hsame⟩
  · exact hnew
  rw [hsame]
  rcases hmoved with heq | ⟨heq, hfresh⟩
  · rw [heq] at hf
    exact hold f hf
  · rw [heq, hfresh] at hf
    cases hf

theorem Canonical.congr (h : n.Canonical b) (hsame : n'.forkChoice = n.forkChoice) :
    n'.Canonical b := by
  rw [Canonical, canonicalTip?, hsame]
  exact h

theorem Above.congr {id : BlockId} (h : n.Above b id) (hsame : n'.forkChoice = n.forkChoice) :
    n'.Above b id := by
  rw [Above, hsame]
  exact h

/-! ### Cascades -/

/-- **A block whose parent descends from a canonical block leaves that canonical** when it is handed
in, and descends from it itself if it is accepted. -/
theorem Handled.canonical {answer : ImportAnswer} (h : Handled n x answer n') (hsound : n.Sound)
    (hbest : n.AtBest) (hb : n.Canonical b) (hparent : n.Above b x.parent) :
    n'.Canonical b ∧ (∀ id, n.Above b id → n'.Above b id) ∧
      ∀ result, answer = .ok result → result.isAccepted = true → n'.Above b x.id := by
  have hchecked : ∀ {tip}, n.Checks x tip →
      (n.offer tip).2.Canonical b ∧ (∀ id, n.Above b id → (n.offer tip).2.Above b id) ∧
        (n.offer tip).2.Above b x.id := by
    intro tip hchecks
    obtain ⟨below, hfits⟩ := hchecks.fits
    have hnew : tip.block.Descends b :=
      Above.descends_of_fits (by rw [ChainTip.parent, hchecks.block_eq]; exact hparent)
        hsound.wellFormed hfits
    refine ⟨hb.offer hsound hbest hchecks.heavy hnew,
      fun id hid => hid.offer hsound hchecks.heavy hnew, Above.offer ?_ hsound hchecks.heavy hnew⟩
    -- the block was not in the tree before
    intro e he
    have hfresh := hfits.fresh
    rw [ChainTip.id, hchecks.block_eq, he] at hfresh
    cases hfresh
  cases h with
  | passed hnot _ =>
    refine ⟨hb, fun _ => id, fun result hok haccepted => ?_⟩
    cases hok
    rw [hnot] at haccepted
    cases haccepted
  | unread _ => exact ⟨hb, fun _ => id, fun result hok => by cases hok⟩
  | @refused cause _ =>
    have hsame := (sameChain_reject n x.id cause).forkChoice
    refine ⟨hb.congr hsame, fun _ hid => hid.congr hsame, fun result hok haccepted => ?_⟩
    cases hok
    cases haccepted
  | held _ _ _ _ =>
    have hsame := (sameChain_holdOrphan n x).forkChoice
    refine ⟨hb.congr hsame, fun _ hid => hid.congr hsame, fun result hok haccepted => ?_⟩
    cases hok
    rw [isAccepted_holdOrphan] at haccepted
    cases haccepted
  | failed hchecks _ =>
    obtain ⟨hcanonical, habove, -⟩ := hchecked hchecks
    exact ⟨hcanonical, habove, fun result hok => by cases hok⟩
  | @decided tip outcome update hchecks _ =>
    obtain ⟨hcanonical, habove, hself⟩ := hchecked hchecks
    have hsame := (sameChain_updatePool (n.offer tip).2 update).forkChoice
    exact ⟨hcanonical.congr hsame, fun id hid => (habove id hid).congr hsame,
      fun _ _ _ => hself.congr hsame⟩

/-- **A block stays canonical while its descendants are handed in**, if the canonical tip is the best
tip and pointers can be written.  The blocks on the stack descend from it, and so do the parents of
the blocks that were released. -/
theorem Cascade.canonical (h : Cascade rest stack n log ending n') (hn : n.Orderly)
    (hsound : n.Sound) (hbest : n.AtBest) (hwrites : n.store.faults.pointerWrites = false)
    (hb : n.Canonical b) (hrest : ∀ x ∈ rest, n.Above b x.parent)
    (hstack : ∀ q ∈ stack, n.Above b q) : n'.Canonical b := by
  induction h with
  | done n => exact hb
  | @take n n' q stack log ending _ ih =>
    obtain ⟨htaken, -, hn₁, -⟩ := hn.takeOrphans q
    have hchain := sameChain_takeOrphans n q
    have hsame := hchain.forkChoice
    refine ih hn₁ (Step.sound (.aside hchain) hsound) (by rw [AtBest, hsame]; exact hbest)
      (by rw [hchain.store]; exact hwrites) (hb.congr hsame) (fun x hx => ?_)
      fun r hr => (hstack r (List.mem_cons_of_mem _ hr)).congr hsame
    rw [htaken] at hx
    obtain ⟨-, hparent⟩ := List.mem_filter.1 hx
    rw [of_decide_eq_true hparent]
    exact (hstack q List.mem_cons_self).congr hsame
  | @hand n n' n₁ x rest stack result log ending himport _ ih =>
    have hone := handled_of_importOne himport
    have hrun := run_of_importOne hsound.wellFormed himport
    obtain ⟨hcanonical, habove, hself⟩ :=
      hone.canonical hsound hbest hb (hrest x List.mem_cons_self)
    exact ih (hone.orderly hn) (hrun.sound hsound) (hrun.atBest hsound hbest hwrites)
      (by rw [hrun.faults_eq]; exact hwrites) hcanonical
      (fun y hy => habove _ (hrest y (List.mem_cons_of_mem _ hy)))
      (forall_mem_pushed (fun q hq => habove _ (hstack q hq)) (hself _ rfl))
  | @fail n n' x rest stack e himport =>
    have hone := handled_of_importOne himport
    exact (hone.canonical hsound hbest hb (hrest x List.mem_cons_self)).1

/-! ### Blocks that extend the chain -/

theorem Decided.extended {update : PoolUpdate} (h : Decided n tip (.ok (.extended, update)) n')
    (hwf : n.forkChoice.WellFormed) (hpos : 1 ≤ tip.weight)
    (hextended : (n.forkChoice.consider tip).1 = .ok .extended) :
    n'.forkChoice.best = tip.id ∧ n'.AtBest ∧ n.store.faults.pointerWrites = false := by
  obtain ⟨below, hfits, -, hbest⟩ := (hwf.consider_extended_iff hpos).1 hextended
  cases h with
  | unchanged hnot _ => exact absurd hfits (hnot below)
  | @moved below' id _ store _ hfits' hbest' _ _ hset hsettled =>
    have hsame := hfits.on_tree
    rw [hfits'.on_tree] at hsame
    cases hsame
    have hid : id = tip.id := hbest'.unique (hwf.graft hfits hpos).tree hbest
    obtain ⟨t, -, heq, -⟩ := hsettled.exists_tree
    exact ⟨by rw [heq, ← hid]; rfl, hsettled.atBest hbest',
      (Store.setPointer_eq_ok_iff.1 hset).1⟩

/-- **A block that extends the chain is canonical, and stays so while the orphans that wait for it are
released.** -/
theorem canonical_of_extended {update : PoolUpdate} {n₁ : Node} (hn : n.Orderly)
    (hsound : n.Sound) (hheavy : n.Heavy tip)
    (hoffer : n.offer tip = (.ok (.extended, update), n₁)) :
    ((n₁.updatePool update).releaseOrphans tip.id).2.Canonical tip.block := by
  have hpos := hheavy.weight_pos
  have hextended := consider_of_offer (n := n) (by rw [hoffer])
  have hmemory := sameMemory_made n tip update
  have hpool := sameChain_updatePool (n.offer tip).2 update
  have hrun := run_made hheavy update
  have hsound' := hrun.sound hsound
  have habove : ((n.offer tip).2.updatePool update).Above tip.block tip.id := by
    obtain ⟨below, hfits, -⟩ := (hsound.wellFormed.consider_extended_iff hpos).1 hextended
    refine Above.congr (fun e he => ?_) hpool.forkChoice
    rcases find?_of_find?_offer hsound hheavy he with ⟨rfl, -⟩ | ⟨f, hf, -⟩
    · exact .refl _
    · rw [hfits.fresh] at hf
      cases hf
  rw [hoffer] at hmemory hpool hrun hsound' habove
  rcases n.offer_cases tip with ⟨e, heq⟩ | ⟨store, hput, heq⟩
  · rw [heq] at hoffer
    cases hoffer
  rw [heq] at hoffer
  have hd := decided_decide (n := { n with store }) hsound.wellFormed hpos
  rw [hoffer] at hd
  obtain ⟨hbest, hat, hwrites⟩ := hd.extended hsound.wellFormed hpos hextended
  have hcascade := (orderly_of_orphans_eq hmemory.orphans hn).cascade_releaseOrphans tip.id
  refine hcascade.canonical (orderly_of_orphans_eq hmemory.orphans hn) hsound' ?_ ?_ ?_
    (fun x hx => absurd hx List.not_mem_nil) fun q hq => ?_
  · rw [AtBest, hpool.forkChoice]
    exact hat
  · rw [hrun.faults_eq, ← Store.faults_put hput]
    exact hwrites
  · rw [canonical_iff hsound'.wellFormed, hpool.forkChoice, hbest]
    exact habove
  · rw [List.mem_singleton.1 hq]
    exact habove

/-- **A block that is made on the best tip extends the chain**, if different headers have different
identifiers. -/
theorem extended_of_atBest {outcome : Outcome} {update : PoolUpdate} (hsound : n.Sound)
    (hbest : n.AtBest) (hp : n.canonicalTip? = some p) (hheavy : n.Heavy tip)
    (hparent : tip.parent = p.id) (hheight : tip.height = p.height + 1)
    (hids : Store.DistinctIds (n.offer tip).2.store.journal)
    (hoffer : (n.offer tip).1 = .ok (outcome, update)) : outcome = .extended := by
  have hwf := hsound.wellFormed
  obtain ⟨e, he, rfl⟩ := Option.map_eq_some_iff.1 hp
  have htip : n.forkChoice.best = e.tip.id := (hwf.tree.id_eq he).symm
  -- a tree with the block in it would have its canonical tip there already
  have hfresh : n.forkChoice.tree.find? tip.id = none := by
    by_contra hin
    obtain ⟨f, hf⟩ := Option.ne_none_iff_exists'.1 hin
    have hstep : Step Heavy n (n.offer tip).2 := .offer hheavy
    have hsound' := hstep.sound hsound
    rcases n.offer_cases tip with ⟨e', heq⟩ | ⟨store, hput, heq⟩
    · rw [heq] at hoffer
      cases hoffer
    rw [heq] at hoffer hids hsound'
    have hd := decided_decide (n := { n with store }) hwf hheavy.weight_pos
    rcases hres : Node.decide { n with store } tip with ⟨answer, n'⟩
    rw [hres] at hd hids hsound'
    have hwritten : .block tip.block tip.state ∈ store.journal := by
      rw [(Store.put_eq_ok_iff.1 hput).2, Store.journal_addBlock]
      exact List.mem_cons_self
    have hkept : .block e.tip.block e.tip.state ∈ store.journal :=
      (Store.later_put hput).suffix.subset (hsound.written he)
    have hnone : ∀ {below}, ¬ n.forkChoice.tree.Fits tip below := by
      intro below hfits
      rw [hfits.fresh] at hf
      cases hf
    cases hd with
    | unchanged _ _ =>
      exact not_atBest_of_child hsound' hids hkept hwritten hheight hparent htip hf hbest
    | stayed hfits _ => exact hnone hfits
    | heldBack hfits _ _ _ => exact hnone hfits
    | moved hfits _ _ _ _ _ => exact hnone hfits
  have hfits : n.forkChoice.tree.Fits tip e := ⟨hfresh, by rw [hparent, ← htip]; exact he, hheight⟩
  have hextended :=
    hwf.consider_child hheavy.weight_pos hbest hfits (hparent.trans htip.symm)
  rw [consider_of_offer hoffer] at hextended
  exact Except.ok.inj hextended

end Node

end LedgerChain
