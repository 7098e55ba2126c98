import LedgerChain.Proofs.Node.Acts

/-!
# Stranded orphans

An orphan is **stranded** if its parent is in the tree, or a block with its header is
(`Node.Stranded`): nobody will release it any more.

A cascade that ends well strands none, since every block that it accepts is put on the stack
(`Node.Cascade.stranded`).  A cascade that fails may leave blocks on the stack.  This takes a pointer
that cannot be written, or a store that cannot be read; while blocks cannot be written, none gets to
the stack.
-/

namespace LedgerChain

variable [Crypto]

namespace Node

variable {n n' : Node} {b c : Block} {rest : List Block} {stack : List BlockId}
  {log : List Handing} {ending : Except ChainError Unit}

/-- The block is an orphan although its parent is in the tree, or although there is a block with its
header. -/
def Stranded (n : Node) (c : Block) : Prop :=
  c ∈ n.waiting ∧ (n.hasSeen c.parent = true ∨
    ∃ e, n.forkChoice.tree.find? c.id = some e ∧ e.tip.block.header = c.header)

theorem Stranded.congr (hc : n'.Stranded c) (hwaiting : c ∈ n'.waiting → c ∈ n.waiting)
    (htree : n'.forkChoice = n.forkChoice) : n.Stranded c := by
  obtain ⟨hin, hseen⟩ := hc
  rw [hasSeen, htree] at hseen
  exact ⟨hwaiting hin, hseen⟩

/-- While a block is offered, an orphan is stranded only if it waits for that block. -/
theorem Stranded.of_offer {tip : ChainTip} (hn : n.Sound) (hheavy : n.Heavy tip)
    (hc : (n.offer tip).2.Stranded c) : n.Stranded c ∨ c.parent = tip.id := by
  obtain ⟨hin, hseen⟩ := hc
  rw [waiting_of_orphans_eq (sameMemory_offer n tip).orphans] at hin
  rcases hseen with hparent | ⟨e, he, hheader⟩
  · obtain ⟨e, he⟩ := ChainTree.contains_iff.1 hparent
    rcases find?_of_find?_offer hn hheavy he with ⟨rfl, -⟩ | ⟨f, hf, -⟩
    · exact Or.inr
        ((wellFormed_offer hn.wellFormed hheavy.weight_pos).tree.id_eq he).symm
    · exact Or.inl ⟨hin, Or.inl (ChainTree.contains_iff.2 ⟨f, hf⟩)⟩
  · left
    rcases find?_of_find?_offer hn hheavy he with ⟨rfl, hparent⟩ | ⟨f, hf, htip⟩
    · -- the block has the orphan's header, so it has the orphan's parent
      refine ⟨hin, Or.inl ?_⟩
      rw [Block.parent, ← hheader]
      exact hparent
    · exact ⟨hin, Or.inr ⟨f, hf, by rw [← htip]; exact hheader⟩⟩

/-- **A block that is handed in without a failure strands only orphans that wait for it**, and only if
it is accepted. -/
theorem Handled.stranded {answer : ImportAnswer} (h : Handled n b answer n') (hn : n.Orderly)
    (hsound : n.Sound) {result : ImportResult} (hok : answer = .ok result)
    (hc : n'.Stranded c) : n.Stranded c ∨ c.parent = b.id ∧ result.isAccepted = true := by
  obtain ⟨hin, hseen⟩ := hc
  rcases h.of_mem_waiting hn hin with hin | ⟨rfl, hfresh, hparent, hchain⟩
  · rcases hseen with hparent | ⟨e, he, hheader⟩
    · obtain ⟨e, he⟩ := ChainTree.contains_iff.1 hparent
      rcases h.of_find? hsound he with ⟨f, hf, -⟩ | ⟨-, hid, -, haccepted⟩
      · exact Or.inl ⟨hin, Or.inl (ChainTree.contains_iff.2 ⟨f, hf⟩)⟩
      · exact Or.inr ⟨hid, haccepted result hok⟩
    · left
      rcases h.of_find? hsound he with ⟨f, hf, htip⟩ | ⟨hblock, -, hparent, -⟩
      · exact ⟨hin, Or.inr ⟨f, hf, by rw [← htip]; exact hheader⟩⟩
      · refine ⟨hin, Or.inl ?_⟩
        rw [Block.parent, ← hheader, hblock]
        exact hparent
  · -- a block that becomes an orphan has no parent in the tree, and is not there itself
    rw [hasSeen, hchain.forkChoice] at hseen
    rcases hseen with hseen | ⟨e, he, -⟩
    · rw [hasSeen, hseen] at hparent
      cases hparent
    · rw [hasSeen, ChainTree.contains_iff.2 ⟨e, he⟩] at hfresh
      cases hfresh

/-- **A cascade leaves no orphan waiting for a block that it accepted.**  It ends well, or it fails
although pointers can be written and the store can be read; in that case nothing was accepted. -/
theorem Cascade.stranded (h : Cascade rest stack n log ending n') (hn : n.Orderly)
    (hsound : n.Sound) {P : Block → Prop} (hopen : ∀ c, n.Stranded c → c.parent ∈ stack ∨ P c)
    (hfine : ending = .ok () ∨
      n.store.faults.Unhindered ∧ (n.store.faults.blockWrites = true → stack = [])) :
    ∀ c, n'.Stranded c → P c := by
  -- along the cascade; what is open waits for a block of the stack
  induction h with
  | done n => exact fun c hc => (hopen c hc).resolve_left List.not_mem_nil
  | @take n n' parent stack log ending _ ih =>
    obtain ⟨-, hleft, hn₁, -⟩ := hn.takeOrphans parent
    have hchain := sameChain_takeOrphans n parent
    refine ih hn₁ (Step.sound (.aside hchain) hsound) (fun c hc => ?_) ?_
    · have hwaits := hc.1
      rw [hleft] at hwaits
      obtain ⟨hin, hne⟩ := List.mem_filter.1 hwaits
      refine (hopen c (hc.congr (fun _ => hin) hchain.forkChoice)).imp_left fun hmem => ?_
      exact (List.mem_cons.1 hmem).resolve_left (of_decide_eq_true hne)
    · rw [hchain.store]
      rcases hfine with hok | ⟨hfree, hblocks⟩
      · exact Or.inl hok
      · exact Or.inr ⟨hfree, fun hfault => absurd (hblocks hfault) (List.cons_ne_nil _ _)⟩
  | @hand n n' n₁ b rest stack result log ending himport _ ih =>
    have hone := handled_of_importOne himport
    have hrun := run_of_importOne hsound.wellFormed himport
    refine ih (hone.orderly hn) (hrun.sound hsound) (fun c hc => ?_) ?_
    · rcases hone.stranded hn hsound rfl hc with hold | ⟨hparent, haccepted⟩
      · refine (hopen c hold).imp_left fun hmem => ?_
        split
        · exact List.mem_cons_of_mem _ hmem
        · exact hmem
      · rw [haccepted, if_pos rfl, hparent]
        exact Or.inl List.mem_cons_self
    · rw [hrun.faults_eq]
      rcases hfine with hok | ⟨hfree, hblocks⟩
      · exact Or.inl hok
      refine Or.inr ⟨hfree, fun hfault => ?_⟩
      cases haccepted : result.isAccepted with
      | false => exact hblocks hfault
      | true =>
        rw [hone.blockWrites_of_accepted hsound rfl haccepted] at hfault
        cases hfault
  | @fail n n' b rest stack e himport =>
    -- no fault is left that could end the cascade, unless nothing is open any more
    have hone := handled_of_importOne himport
    obtain ⟨⟨hpointers, hreads⟩, hblocks⟩ := hfine.resolve_left (by simp)
    obtain ⟨-, ⟨hfault, -⟩ | ⟨hfault, rfl⟩ | hfault⟩ := hone.of_error hsound rfl
    · rw [hreads] at hfault
      cases hfault
    · rw [hblocks hfault] at hopen
      exact fun c hc => (hopen c hc).resolve_left List.not_mem_nil
    · rw [hpointers] at hfault
      cases hfault

/-! ### Acts -/

theorem blockWrites_of_offer_ok {tip : ChainTip} {outcome : Outcome} {update : PoolUpdate}
    (h : (n.offer tip).1 = .ok (outcome, update)) : n.store.faults.blockWrites = false := by
  rcases n.offer_cases tip with ⟨e, heq⟩ | ⟨store, hput, -⟩
  · rw [heq] at h
    cases h
  · exact (Store.put_eq_ok_iff.1 hput).1

section Faultless

variable (hn : n.Orderly) (hsound : n.Sound) (hfaults : n.store.faults.Unhindered)

include hn hsound hfaults

theorem Act.stranded (h : Act Heavy n log n') (hc : n'.Stranded c) : n.Stranded c := by
  cases h with
  | aside hchain hmemory =>
    refine hc.congr (fun hin => ?_) hchain.forkChoice
    rwa [waiting_of_orphans_eq hmemory.orphans] at hin
  | shutdown =>
    refine hc.congr (fun hin => ?_) n.forkChoice_shutdown
    rwa [waiting_of_orphans_eq (sameMemory_shutdown n).orphans] at hin
  | imported h =>
    exact h.stranded hn hsound (fun d hd => Or.inr hd)
      (Or.inr ⟨hfaults, fun _ => rfl⟩) c hc
  | @failed tip e hheavy hoffer =>
    rcases forkChoice_offer_of_error hsound hheavy hoffer with hsame | hfault
    · refine hc.congr (fun hin => ?_) hsame
      rwa [waiting_of_orphans_eq (sameMemory_offer n tip).orphans] at hin
    · rw [hfaults.1] at hfault
      cases hfault
  | @made _ tip _ update _ _ hheavy _ hoffer h =>
    have hkeep := (sameMemory_made n tip update).orphans
    have hpool := sameChain_updatePool (n.offer tip).2 update
    have hrun := run_made hheavy update
    refine h.stranded (orderly_of_orphans_eq hkeep hn) (hrun.sound hsound) (fun d hd => ?_)
      (Or.inr ⟨hrun.faults_eq ▸ hfaults, fun hfault => ?_⟩) c hc
    · have hd' : (n.offer tip).2.Stranded d := by
        refine hd.congr (fun hin => ?_) hpool.forkChoice
        rwa [waiting_of_orphans_eq (sameMemory_updatePool _ update).orphans] at hin
      refine (hd'.of_offer hsound hheavy).symm.imp_left fun hparent => ?_
      rw [hparent]
      exact List.mem_cons_self
    · rw [hrun.faults_eq, blockWrites_of_offer_ok hoffer] at hfault
      cases hfault

/-- **Nothing that a node does strands an orphan** while pointers can be written and the store can be
read. -/
theorem Acts.stranded (h : Acts Heavy n log n') (hc : n'.Stranded c) : n.Stranded c := by
  induction h with
  | refl n => exact hc
  | @head n m n' log log' hact _ ih =>
    have hrun := hact.run hsound.wellFormed
    have hm := ih (hact.orderly hn) (hrun.sound hsound) (hrun.faults_eq ▸ hfaults) hc
    exact hact.stranded hn hsound hfaults hm

end Faultless

/-- **An import that succeeds strands no orphan**, whatever the faults of the store. -/
theorem stranded_importBlock (hn : n.Orderly) (hsound : n.Sound) {result : ImportResult}
    (hok : n.importBlock b = (.ok result, n')) (hc : n'.Stranded c) : n.Stranded c := by
  have hcascade := hn.cascade_importBlock b
  rw [hok] at hcascade
  exact hcascade.stranded hn hsound (fun d hd => Or.inr hd) (Or.inl rfl) c hc

end Node

end LedgerChain
