import LedgerChain.Proofs.Node.Growth
import LedgerChain.Proofs.Node.Stranded
import LedgerChain.Proofs.Node.Verdicts

/-!
# Orphans that join the tree

As long as the root of a tree stays where it is, an orphan that is valid on its parent joins the tree
when the parent does: it waits until then (`Node.Awaits`), is released, and is accepted when it is
handed in (`Node.Due`, `Node.Acts.joins`).

Other blocks under the identifier of the orphan do no harm if they have its header, since they are
not kept beside it, and nothing is noted about a header whose parent is not in the tree.
-/

namespace LedgerChain

variable [Crypto]

namespace Node

variable {n n' N : Node} {b : Block} {rest : List Block} {stack : List BlockId}
  {log : List Handing} {ending : Except ChainError Unit}

/-! ### A block that is valid on its parent -/

/-- The node would accept the block on its parent, as far as block and parent go. -/
structure Welcomes (n : Node) (b : Block) : Prop where
  shape : b.checkShape n.params.consensus = .ok ()
  valid : ∀ {e}, n.forkChoice.tree.find? b.parent = some e →
    ∃ tip, validateBlock n.engine b e.tip = .ok tip

theorem Welcomes.of_growsInto (h : N.Welcomes b) (hgrows : n.GrowsInto N) : n.Welcomes b where
  shape := hgrows.params_eq ▸ h.shape
  valid {e} he := by
    obtain ⟨f, hf, htip⟩ := hgrows.find? he
    obtain ⟨tip, hvalid⟩ := h.valid hf
    rw [htip, engine, hgrows.params_eq] at hvalid
    exact ⟨tip, hvalid⟩

/-- **A block that is valid on its parent is in the tree once it was handed in**, if nothing fails and
the root stays. -/
theorem Welcomes.hasSeen_importOne (h : n.Welcomes b) (hsound : n.Sound)
    (hharmless : n.store.faults.Harmless) (hclean : b.id ∉ n.invalid.ids)
    (hparent : n.hasSeen b.parent = true)
    (hroot : (n.importOne b).2.forkChoice.tree.rootHeight ≤ n.forkChoice.tree.rootHeight) :
    (n.importOne b).2.hasSeen b.id = true := by
  cases hseen : n.hasSeen b.id with
  | true =>
    rw [importOne, if_pos hseen]
    exact hseen
  | false =>
    have hforgot : n.invalid.contains b.id = false := decide_eq_false hclean
    obtain ⟨below, hbelow⟩ := ChainTree.contains_iff.1 hparent
    obtain ⟨tip, hvalid⟩ := h.valid hbelow
    have hchecks := checks_of_validateBlock hseen hbelow hvalid
    obtain ⟨hblocks, hpointers, -⟩ := hharmless
    rcases offer_fits_cases hsound hchecks with
      ⟨hfault, -⟩ | ⟨-, ⟨hfault, -⟩ | ⟨outcome, update, hoffer, haccepted⟩⟩
    · rw [hblocks] at hfault
      cases hfault
    · rw [hpointers] at hfault
      cases hfault
    · have hanswer : (n.importOne b).1 = .ok (.ofOutcome outcome) := by
        simp only [importOne, hseen, hforgot, Bool.false_eq_true, if_false, h.shape, hbelow,
          importOnParent, hvalid, submitTip_eq_ok hoffer]
      exact (handled_importOne n b).hasSeen_of_accepted hsound.wellFormed hanswer haccepted hroot

/-! ### Waiting for the parent -/

/-- **A block that has to wait is kept, unless another block is kept under its identifier.**  Neither
it nor its parent is in the tree, and nothing is noted against it. -/
theorem Orderly.of_pending (hn : n.Orderly) (h : n.importBlock b = (.ok .pendingParent, n')) :
    n.SameChain n' ∧ n'.Orderly ∧ b.checkShape n.params.consensus = .ok () ∧
      b.id ∉ n'.invalid.ids ∧ ¬ n'.Stranded b ∧
      (b ∈ n'.waiting ↔ ∀ w ∈ n.waiting, w.id = b.id → w = b) := by
  have hone := handled_importOne n b
  rw [importOne_of_not_accepted rfl h] at hone
  generalize hanswer : (Except.ok .pendingParent : ImportAnswer) = answer at hone
  -- only a block that is held is told to wait
  cases hone with
  | passed _ hpending =>
    cases hanswer
    exact absurd rfl hpending
  | unread _ => cases hanswer
  | refused _ => cases hanswer
  | failed _ _ => cases hanswer
  | @decided _ outcome _ _ _ =>
    rcases outcome with _ | _ | (_ | _ | _) <;> cases hanswer
  | held hfresh hparent hclean hshape =>
    have hchain := sameChain_holdOrphan n b
    obtain ⟨horderly, hinvalid, hpool⟩ := hn.holdOrphan_cases b
    refine ⟨hchain, horderly, hshape, by rw [hinvalid]; exact hclean, fun hstranded => ?_, ?_⟩
    · obtain ⟨-, hseen⟩ := hstranded
      rw [hasSeen, hchain.forkChoice] at hseen
      rcases hseen with hseen | ⟨e, he, -⟩
      · rw [hasSeen, hseen] at hparent
        cases hparent
      · rw [hasSeen, ChainTree.contains_iff.2 ⟨e, he⟩] at hfresh
        cases hfresh
    · rcases hpool with ⟨hsame, hknown⟩ | ⟨hnew, -, hkept⟩
      · rw [hsame]
        constructor
        · exact fun hb w hw hid => List.inj_on_of_nodup_map hn.nodup hw hb hid
        · intro hfirst
          obtain ⟨w, hw, hid⟩ := List.mem_map.1 (hknown (Except.ok.inj hanswer).symm)
          exact hfirst w hw hid ▸ hw
      · have hb : b ∈ (n.holdOrphan b).2.waiting := by
          rcases hkept with hroom | ⟨-, c, rest, -, hafter⟩
          · rw [hroom]
            exact List.mem_append_right _ List.mem_cons_self
          · rw [hafter]
            exact List.mem_append_right _ List.mem_cons_self
        exact ⟨fun _ w hw hid => absurd (List.mem_map.2 ⟨w, hw, hid⟩) hnew, fun _ => hb⟩

/-- The block is an orphan, and nothing is noted against it. -/
structure Awaits (n : Node) (b : Block) : Prop where
  waits : b ∈ n.waiting
  clean : b.id ∉ n.invalid.ids

theorem Awaits.congr (h : n.Awaits b) (hmemory : n.SameMemory n') : n'.Awaits b where
  waits := by
    rw [waiting_of_orphans_eq hmemory.orphans]
    exact h.waits
  clean := hmemory.invalid ▸ h.clean

/-- **An orphan goes on waiting while other blocks are handed in**, unless it has to make room.  A
block under its identifier must not have a parent in the tree. -/
theorem Awaits.importOne (h : n.Awaits b) (hn : n.Orderly) {x : Block}
    (hroom : ¬ Handing.Evicts ⟨n, x⟩ b) (hother : x.id = b.id → n.hasSeen x.parent = false) :
    (n.importOne x).2.Awaits b where
  waits := (Handing.mem_waiting_or (h := ⟨n, x⟩) hn h.waits).resolve_right hroom
  clean hmem := by
    rcases (handled_importOne n x).of_mem_invalid hn hmem with hold | ⟨hid, hbad⟩
    · exact h.clean hold
    · have hparent := hbad.hasSeen_parent
      rw [hother hid.symm] at hparent
      cases hparent

theorem Awaits.hasSeen_parent (h : n.Awaits b) (hfree : ¬ n.Stranded b) :
    n.hasSeen b.parent = false := by
  rw [← Bool.not_eq_true]
  exact fun hparent => hfree ⟨h.waits, Or.inl hparent⟩

/-- Where an orphan is while blocks are handed in: in the tree, still waiting, or released, with its
parent in the tree and nothing noted against it. -/
inductive Due (n : Node) (rest : List Block) (b : Block) : Prop
  | joined (h : n.hasSeen b.id = true)
  | waits (h : n.Awaits b)
  | released (hmem : b ∈ rest) (hclean : b.id ∉ n.invalid.ids) (hparent : n.hasSeen b.parent = true)

theorem Due.takeOrphans (h : n.Due [] b) (hn : n.Orderly) {q : BlockId} (hq : n.hasSeen q = true) :
    (n.takeOrphans q).2.Due (n.takeOrphans q).1 b := by
  obtain ⟨htaken, hleft, -, hinvalid⟩ := hn.takeOrphans q
  have hseen : ∀ id, (n.takeOrphans q).2.hasSeen id = n.hasSeen id := fun id => by
    rw [hasSeen, hasSeen, (sameChain_takeOrphans n q).forkChoice]
  cases h with
  | joined hjoined => exact .joined ((hseen _).trans hjoined)
  | waits hwaits =>
    by_cases hparent : b.parent = q
    · refine .released ?_ (hinvalid ▸ hwaits.clean) ((hseen _).trans (hparent ▸ hq))
      rw [htaken]
      exact List.mem_filter.2 ⟨hwaits.waits, decide_eq_true hparent⟩
    · refine .waits ⟨?_, hinvalid ▸ hwaits.clean⟩
      rw [hleft]
      exact List.mem_filter.2 ⟨hwaits.waits, decide_eq_true hparent⟩
  | released hmem _ _ => cases hmem

/-- A released orphan is in the tree once it was handed in, and is not bothered by the others that are
handed in before it. -/
theorem Due.importOne {x : Block} (h : n.Due (x :: rest) b) (hn : n.Orderly) (hsound : n.Sound)
    (hharmless : n.store.faults.Harmless) (hwelcome : n.Welcomes b) (hapart : n.Apart (x :: rest))
    (hroom : ¬ Handing.Evicts ⟨n, x⟩ b)
    (hroot : (n.importOne x).2.forkChoice.tree.rootHeight ≤ n.forkChoice.tree.rootHeight) :
    (n.importOne x).2.Due rest b := by
  have hrun := admits_heavy.importOne hsound.wellFormed x
  have hgrows := hrun.growsInto hsound.wellFormed hroot
  cases h with
  | joined hjoined => exact .joined (hgrows.hasSeen hjoined)
  | waits hwaits =>
    -- no block that was released has the identifier of one that waits
    refine .waits (hwaits.importOne hn hroom fun hid => ?_)
    exact absurd (hid ▸ List.mem_map_of_mem hwaits.waits) (hapart.disjoint x List.mem_cons_self)
  | released hmem hclean hparent =>
    rcases List.mem_cons.1 hmem with rfl | hmem
    · exact .joined (hwelcome.hasSeen_importOne hsound hharmless hclean hparent hroot)
    · refine .released hmem (fun hnoted => ?_) (hgrows.hasSeen hparent)
      rcases (handled_importOne n x).of_mem_invalid hn hnoted with hold | ⟨hid, -⟩
      · exact hclean hold
      · exact (List.nodup_cons.1 hapart.nodup).1 (hid ▸ List.mem_map_of_mem hmem)

/-- **A cascade takes an orphan into the tree, or leaves it waiting.**  The blocks on the stack are in
the tree. -/
theorem Cascade.joins (h : Cascade rest stack n log ending n') (hn : n.Orderly) (hsound : n.Sound)
    (hharmless : n.store.faults.Harmless)
    (hroot : n'.forkChoice.tree.rootHeight ≤ n.forkChoice.tree.rootHeight)
    (hwelcome : n'.Welcomes b) (hroom : ∀ x ∈ log, ¬ x.Evicts b) (hapart : n.Apart rest)
    (hstack : ∀ q ∈ stack, n.hasSeen q = true) (hdue : n.Due rest b) : n'.Due [] b := by
  induction h with
  | done n => exact hdue
  | @take n n' q stack log ending _ ih =>
    have hchain := sameChain_takeOrphans n q
    refine ih (hn.takeOrphans q).2.2.1 (Step.sound (.aside hchain) hsound)
      (hchain.store ▸ hharmless) (hchain.forkChoice ▸ hroot) hwelcome hroom
      (hn.apart_takeOrphans q) (fun r hr => ?_) (hdue.takeOrphans hn (hstack q List.mem_cons_self))
    rw [hasSeen, hchain.forkChoice]
    exact hstack r (List.mem_cons_of_mem _ hr)
  | @hand n n' n₁ x rest stack result log ending himport hrest ih =>
    have hone := handled_of_importOne himport
    have hrun := run_of_importOne hsound.wellFormed himport
    have hwf₁ := hrun.wellFormed hsound.wellFormed
    have hlow := hrun.rootHeight_le hsound.wellFormed
    have hhigh := (hrest.run hwf₁).rootHeight_le hwf₁
    have hgrows := hrun.growsInto hsound.wellFormed (hhigh.trans hroot)
    have hend := (hrest.run hwf₁).growsInto hwf₁ (hroot.trans hlow)
    have hapart₁ := hapart.importOne hn
    have hdue₁ := hdue.importOne hn hsound hharmless (hwelcome.of_growsInto (hgrows.trans hend))
      hapart (hroom _ List.mem_cons_self) (by rw [himport]; exact hhigh.trans hroot)
    rw [himport] at hapart₁ hdue₁
    exact ih (hone.orderly hn) (hrun.sound hsound) (hgrows.faults_eq ▸ hharmless)
      (hroot.trans hlow) hwelcome (fun y hy => hroom y (List.mem_cons_of_mem _ hy)) hapart₁
      (forall_mem_pushed (fun q hq => hgrows.hasSeen (hstack q hq)) fun haccepted =>
        hone.hasSeen_of_accepted hsound.wellFormed rfl haccepted (hhigh.trans hroot)) hdue₁
  | @fail n n' x rest stack e himport =>
    obtain ⟨result, hok⟩ := Handing.exists_ok (h := ⟨n, x⟩) hsound hharmless
    rw [Handing.answer, himport] at hok
    cases hok

/-! ### Acts -/

/-- A waiting orphan that is not stranded is in the tree after an act, or still waits. -/
theorem Awaits.due_act (hwaits : n.Awaits b) (h : Act Heavy n log n') (hn : n.Orderly)
    (hsound : n.Sound) (hharmless : n.store.faults.Harmless)
    (hroot : n'.forkChoice.tree.rootHeight ≤ n.forkChoice.tree.rootHeight)
    (hwelcome : n'.Welcomes b) (hroom : ∀ x ∈ log, ¬ x.Evicts b)
    (hheader : ∀ x ∈ log, x.block.id = b.id → x.block.header = b.header)
    (hfree : ¬ n.Stranded b) : n'.Due [] b := by
  cases h with
  | aside _ hmemory => exact .waits (hwaits.congr hmemory)
  | shutdown => exact .waits (hwaits.congr (sameMemory_shutdown n))
  | @failed tip _ _ _ => exact .waits (hwaits.congr (sameMemory_offer n tip))
  | @imported _ x _ _ h =>
    cases h with
    | @hand _ _ n₁ _ _ _ result log _ himport hrest =>
      have hone := handled_of_importOne himport
      have hrun := run_of_importOne hsound.wellFormed himport
      have hnext := hwaits.importOne hn (hroom _ List.mem_cons_self) fun hid => by
        -- a block with the header of the orphan has its parent
        rw [Block.parent, hheader _ List.mem_cons_self hid]
        exact hwaits.hasSeen_parent hfree
      rw [himport] at hnext
      have hwf₁ := hrun.wellFormed hsound.wellFormed
      have hlow := hrun.rootHeight_le hsound.wellFormed
      have hhigh := (hrest.run hwf₁).rootHeight_le hwf₁
      exact hrest.joins (hone.orderly hn) (hrun.sound hsound) (hrun.faults_eq ▸ hharmless)
        (hroot.trans hlow) hwelcome (fun y hy => hroom y (List.mem_cons_of_mem _ hy))
        (apart_nil n₁) (forall_mem_pushed (fun _ hq => absurd hq List.not_mem_nil) fun haccepted =>
          hone.hasSeen_of_accepted hsound.wellFormed rfl haccepted (hhigh.trans hroot))
        (.waits hnext)
    | fail himport =>
      obtain ⟨result, hok⟩ := Handing.exists_ok (h := ⟨n, x⟩) hsound hharmless
      rw [Handing.answer, himport] at hok
      cases hok
  | @made _ tip _ update _ _ hheavy hparent hoffer h =>
    have hmemory := sameMemory_made n tip update
    have hpool := sameChain_updatePool (n.offer tip).2 update
    have hrun := run_made hheavy update
    have hwf₁ := hrun.wellFormed hsound.wellFormed
    have hlow := hrun.rootHeight_le hsound.wellFormed
    have hhigh := (h.run hwf₁).rootHeight_le hwf₁
    refine h.joins (orderly_of_orphans_eq hmemory.orphans hn) (hrun.sound hsound)
      (hrun.faults_eq ▸ hharmless) (hroot.trans hlow) hwelcome hroom (apart_nil _)
      (fun q hq => ?_) (.waits (hwaits.congr hmemory))
    rw [List.mem_singleton.1 hq, Node.hasSeen, hpool.forkChoice]
    refine hasSeen_offer hsound.wellFormed hheavy hparent hoffer ?_
    rw [← hpool.forkChoice]
    exact hhigh.trans hroot

theorem Act.joins (h : Act Heavy n log n') (hn : n.Orderly) (hsound : n.Sound)
    (hharmless : n.store.faults.Harmless)
    (hroot : n'.forkChoice.tree.rootHeight ≤ n.forkChoice.tree.rootHeight)
    (hwelcome : n'.Welcomes b) (hroom : ∀ x ∈ log, ¬ x.Evicts b)
    (hheader : ∀ x ∈ log, x.block.id = b.id → x.block.header = b.header)
    (hdue : n.Due [] b) (hfree : ¬ n.Stranded b) : n'.Due [] b := by
  cases hdue with
  | joined hjoined =>
    exact .joined (((h.run hsound.wellFormed).growsInto hsound.wellFormed hroot).hasSeen hjoined)
  | waits hwaits =>
    exact hwaits.due_act h hn hsound hharmless hroot hwelcome hroom hheader hfree
  | released hmem _ _ => cases hmem

/-- **Acts take an orphan into the tree, or leave it waiting for a parent that is not there.**  Nothing
fails, the root stays, the orphan does not have to make room, and all blocks that are handed in under
its identifier have its header. -/
theorem Acts.joins (h : Acts Heavy n log n') (hn : n.Orderly) (hsound : n.Sound)
    (hharmless : n.store.faults.Harmless)
    (hroot : n'.forkChoice.tree.rootHeight ≤ n.forkChoice.tree.rootHeight)
    (hwelcome : n'.Welcomes b) (hroom : ∀ x ∈ log, ¬ x.Evicts b)
    (hheader : ∀ x ∈ log, x.block.id = b.id → x.block.header = b.header)
    (hdue : n.Due [] b) (hfree : ¬ n.Stranded b) : n'.Due [] b := by
  induction h with
  | refl n => exact hdue
  | @head n m n' log log' hact hmore ih =>
    have hrun := hact.run hsound.wellFormed
    have hwf := hrun.wellFormed hsound.wellFormed
    have hm := hact.orderly hn
    have hlow := hrun.rootHeight_le hsound.wellFormed
    have hhigh := (hmore.run hwf).rootHeight_le hwf
    have hend := (hmore.run hwf).growsInto hwf (hroot.trans hlow)
    have hnext := hact.joins hn hsound hharmless (hhigh.trans hroot) (hwelcome.of_growsInto hend)
      (fun x hx => hroom x (List.mem_append_left _ hx))
      (fun x hx => hheader x (List.mem_append_left _ hx)) hdue hfree
    exact ih hm (hrun.sound hsound) (hrun.faults_eq ▸ hharmless) (hroot.trans hlow) hwelcome
      (fun x hx => hroom x (List.mem_append_right _ hx))
      (fun x hx => hheader x (List.mem_append_right _ hx)) hnext
      fun hc => hfree (hact.stranded hn hsound hharmless.2 hc)

end Node

end LedgerChain
