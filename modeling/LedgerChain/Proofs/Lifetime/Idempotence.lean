import LedgerChain.Proofs.Crypto.Transparent
import LedgerChain.Proofs.Lifetime.Finality
import LedgerChain.Proofs.Lifetime.Moments

/-!
# Blocks that come in again

**A block is accepted once, and stale for ever** (`Lifetime.accepted_once_stale_forever`): over a
session, what has left the tree does not come back, what was attached is ignored from then on, and
what was once called stale is never accepted.

Different headers are to have different identifiers, for the blocks that are written or come in.  The
one thing about the store that matters is that it does not lose blocks: that a parent is stored, and
not in the tree, is what tells a stale block from an orphan.
-/

namespace LedgerChain

open Node

variable [Crypto]

/-- The block is accepted, or joins the tree while a pointer cannot be written. -/
def Handing.Attaches (x : Handing) : Prop :=
  (∃ o, x.answer = .ok (.accepted o)) ∨
    x.node.hasSeen x.block.id = false ∧ x.after.hasSeen x.block.id = true

/-! ### Moments that lead to each other -/

/-- Moments each of which leads to all later ones, where no two of the blocks that are written or
handed in have different headers under one identifier. -/
structure Chronicle (R : ChainTip → ChainTip → Prop) (params : Params) (genesis : ChainTip)
    (ks : List Moment) : Prop where
  distinct : Block.DistinctIds (ks.flatMap Moment.blocks)
  leads : ks.Pairwise (Leads R (ks.flatMap Moment.blocks))
  kept : ∀ {k}, k ∈ ks → k.node.Kept R params genesis
  orderly : ∀ {k}, k ∈ ks → k.node.Orderly

namespace Chronicle

variable {R : ChainTip → ChainTip → Prop} {params : Params} {genesis : ChainTip}
  {ks : List Moment} {a b c k : Moment} {x : Handing} {id : BlockId}

theorem distinctIds (h : Chronicle R params genesis ks) (hk : k ∈ ks) :
    Store.DistinctIds k.node.store.journal :=
  h.distinct.journal fun _ hb => List.mem_flatMap.2 ⟨k, hk, List.mem_append_left _ hb⟩

theorem leads_of_sublist (h : Chronicle R params genesis ks) (hsub : [a, c].Sublist ks) :
    Leads R (ks.flatMap Moment.blocks) a c :=
  List.pairwise_pair.1 (h.leads.sublist hsub)

variable (h : Chronicle R params genesis ks) (hR : Linking params.consensus R)

include h hR

/-- **What has left the tree does not come back.** -/
theorem stays_out (hsub : [a, b, c].Sublist ks) (hin : a.node.hasSeen id = true)
    (hout : b.node.hasSeen id = false) : c.node.hasSeen id = false := by
  have hbc : [b, c].Sublist ks := .trans (.cons a (.refl [b, c])) hsub
  have ha : a ∈ ks := hsub.subset List.mem_cons_self
  have hb : b ∈ ks := hbc.subset List.mem_cons_self
  have hc : c ∈ ks := hbc.subset (List.mem_cons_of_mem _ List.mem_cons_self)
  have hab := h.leads_of_sublist (.trans (.cons_cons a (.cons_cons b (List.nil_sublist [c]))) hsub)
  obtain ⟨e, he⟩ := ChainTree.contains_iff.1 hin
  have hstored := hab.course.contains hR (h.kept ha) (h.orderly ha) (h.distinctIds hb)
    ((h.kept ha).sound.stored he)
  exact ((h.leads_of_sublist hbc).course.gone hR (h.kept hb) (h.orderly hb) (h.distinctIds hc)
    ⟨hstored, hout⟩).unseen

variable (hsub : [x.moment, c].Sublist ks)

include hsub

theorem taken (hzero : genesis.height = 0) (hattaches : x.Attaches) : c.node.Taken x.block := by
  have hx : x.moment ∈ ks := hsub.subset List.mem_cons_self
  have hc : c ∈ ks := hsub.subset (List.mem_cons_of_mem _ List.mem_cons_self)
  have hleads := h.leads_of_sublist hsub
  obtain ⟨hkept, horder, -⟩ := hleads.before.kept hR (h.kept hx) (h.orderly hx)
  have hblock : x.block ∈ ks.flatMap Moment.blocks :=
    List.mem_flatMap.2 ⟨_, hx, List.mem_append_right _ (List.mem_singleton_self _)⟩
  exact hleads.after.taken hR hkept horder (h.distinctIds hc) hzero
    (fun d hd => h.distinct d hd x.block hblock) (taken_of_importOne hattaches)

/-- **What was attached is ignored later.** -/
theorem ignores (hzero : genesis.height = 0) (hattaches : x.Attaches)
    (hlost : c.node.store.faults.lostBlocks = []) :
    c.node.Ignores x.block (c.node.importOne x.block) ∧
      c.node.Ignores x.block (c.node.importBlock x.block) := by
  have hc : c ∈ ks := hsub.subset (List.mem_cons_of_mem _ List.mem_cons_self)
  have htaken := h.taken hR hsub hzero hattaches
  have hone := htaken.ignores_importOne (h.kept hc) hzero (h.distinctIds hc) hlost
  rw [importBlock_eq_importOne (htaken.not_accepted (h.kept hc) hzero (h.distinctIds hc))]
  exact ⟨hone, hone⟩

/-- **What was called stale is not accepted later.** -/
theorem not_accepted_of_stale (hstale : x.answer = .ok (.ignored .stale)) (o : Outcome) :
    (c.node.importOne x.block).1 ≠ .ok (.accepted o) ∧
      (c.node.importBlock x.block).1 ≠ .ok (.accepted o) := by
  have hx : x.moment ∈ ks := hsub.subset List.mem_cons_self
  have hc : c ∈ ks := hsub.subset (List.mem_cons_of_mem _ List.mem_cons_self)
  have hout : c.node.Outdated x.block := (h.leads_of_sublist hsub).course.outdated hR (h.kept hx)
    (h.orderly hx) (h.distinctIds hc) (outdated_of_stale (h.kept hx).sound hstale)
  rw [importBlock_eq_importOne hout.not_accepted]
  exact ⟨hout.not_accepted o, hout.not_accepted o⟩

end Chronicle

namespace Lifetime

variable {R : ChainTip → ChainTip → Prop} {params : Params} {initial : State}
  {events session : List LifeEvent} {m : Node}

/-- **The moments of a session lead to each other**, if different headers have different
identifiers. -/
theorem chronicle_moments (hR : Linking params.consensus R)
    (hlife : run params initial events = running m) (hsession : ∀ event ∈ session, event.InSession)
    (hids : Block.DistinctIds
      ((moments params initial (running m) session).flatMap Moment.blocks)) :
    Chronicle R params (Genesis.tip params initial)
      (moments params initial (running m) session) := by
  have hm := (kept hR initial events).node hlife
  set ks := moments params initial (running m) session
  have hhanded : ∀ k ∈ ks, ∀ b ∈ k.handed, b ∈ ks.flatMap Moment.blocks := fun k hk b hb =>
    List.mem_flatMap.2 ⟨k, hk, List.mem_append_right _ (Option.mem_toList.2 hb)⟩
  have hleads := leadsTo_moments hR hm (orderly hlife) hsession hhanded
  obtain ⟨hstart, hlater⟩ := List.pairwise_cons.1 (List.isChain_iff_pairwise.1 hleads)
  have hnode := fun k hk => (hstart k hk).course.kept hR hm (orderly hlife)
  exact ⟨hids, hlater, fun hk => (hnode _ hk).1, fun hk => (hnode _ hk).2.1⟩

/-- **A block is accepted once, and stale for ever.**  Consider the moments of a session: imports,
authors at work, submissions, shutdowns and failures of the store, but no restart.  Suppose that
different headers have different identifiers, for the blocks that are written or handed in.

* What was in the tree and has left it does not come back.
* A block that was attached when it was handed in is ignored whenever it is handed in or imported
  later: the node stays as it is, and answers that it knows the block if it is in the tree, and that
  it is stale otherwise.  The store must not lose blocks for that, and the answer is about a store
  that can be read.
* A block that was called stale is never accepted later.
* What an import answers is what the node answered when the block was handed in. -/
theorem accepted_once_stale_forever (hlife : run params initial events = running m)
    (hsession : ∀ event ∈ session, event.InSession)
    (hids : Block.DistinctIds
      ((moments params initial (running m) session).flatMap Moment.blocks)) :
    (∀ (a b c : Moment) (id : BlockId),
      [a, b, c].Sublist (moments params initial (running m) session) →
      a.node.hasSeen id = true → b.node.hasSeen id = false → c.node.hasSeen id = false) ∧
    (∀ (x : Handing) (c : Moment),
      [x.moment, c].Sublist (moments params initial (running m) session) → x.Attaches →
      c.node.store.faults.lostBlocks = [] →
      c.node.Ignores x.block (c.node.importOne x.block) ∧
        c.node.Ignores x.block (c.node.importBlock x.block)) ∧
    (∀ (x : Handing) (c : Moment),
      [x.moment, c].Sublist (moments params initial (running m) session) →
      x.answer = .ok (.ignored .stale) → ∀ o,
      (c.node.importOne x.block).1 ≠ .ok (.accepted o) ∧
        (c.node.importBlock x.block).1 ≠ .ok (.accepted o)) ∧
    ∀ (n : Node) (b : Block) (result : ImportResult), (n.importBlock b).1 = .ok result →
      Handing.answer ⟨n, b⟩ = .ok result := by
  have hR := linking_follows params.consensus
  have hchronicle := chronicle_moments hR hlife hsession hids
  exact ⟨fun _ _ _ _ hsub hin hout => hchronicle.stays_out hR hsub hin hout,
    fun _ _ hsub hattaches hlost => hchronicle.ignores hR hsub rfl hattaches hlost,
    fun _ _ hsub hstale o => hchronicle.not_accepted_of_stale hR hsub hstale o,
    fun _ _ _ => importOne_of_importBlock⟩

/-- A block comes in, another one that finalizes over it, and the first one again. -/
def returnEvents : List LifeEvent :=
  importEvents [sideBlock 0, blockOn (sideBlock 0) 0, sideBlock 0]

omit [Crypto] in
/-- A block that was accepted is finalized over, and is stale when it comes in again. -/
theorem accepted_once_stale_forever_return :
    letI := Crypto.transparent
    ∃ (m : Node) (x : Handing) (c : Moment), run shallowParams {} [startEvent] = running m ∧
      [x.moment, c].Sublist (moments shallowParams {} (running m) returnEvents) ∧
      x.answer = .ok (.accepted .extended) ∧ c.handed = some x.block ∧
      c.node.hasSeen x.block.id = false ∧
      c.node.importBlock x.block = (.ok (.ignored .stale), c.node) := by
  let _ := Crypto.transparent
  have hnode : ((run shallowParams {} [startEvent]).node?.bind fun m =>
      let ks := moments shallowParams {} (running m) returnEvents
      ks[1]?.bind fun k => ks[7]?.map fun c =>
        decide (k.handed = some (sideBlock 0).block ∧
          (k.node.importOne (sideBlock 0).block).1.toOption = some (.accepted .extended) ∧
          c.handed = some (sideBlock 0).block ∧ c.node.hasSeen (sideBlock 0).block.id = false ∧
          c.node.store.faults = ({} : Faults) ∧
          Block.DistinctIds (ks.flatMap Moment.blocks))) =
      some true := by
    decide +kernel
  obtain ⟨m, hm, hks⟩ := Option.bind_eq_some_iff.1 hnode
  obtain ⟨⟨k, handed⟩, hk, hcs⟩ := Option.bind_eq_some_iff.1 hks
  obtain ⟨c, hc, hend⟩ := Option.map_eq_some_iff.1 hcs
  rw [node?_eq_some_iff] at hm
  simp only [decide_eq_true_eq] at hend
  obtain ⟨rfl, haccepted, hagain, hgone, hfaults, hids⟩ := hend
  rw [toOption_eq_some_iff] at haccepted
  set x : Handing := ⟨k, (sideBlock 0).block⟩
  set ks := moments shallowParams {} (running m) returnEvents
  have hearly : x.moment ∈ ks.take 2 := by
    refine List.mem_of_getElem? (i := 1) ?_
    rw [List.getElem?_take_of_lt (by decide)]
    exact hk
  have hlate : c ∈ ks.drop 2 := by
    refine List.mem_of_getElem? (i := 5) ?_
    rw [List.getElem?_drop]
    exact hc
  have hsub : [x.moment, c].Sublist ks := by
    rw [← List.take_append_drop 2 ks]
    exact (List.singleton_sublist.2 hearly).append (List.singleton_sublist.2 hlate)
  have hsession : ∀ event ∈ returnEvents, event.InSession := by
    simp [returnEvents, importEvents, LifeEvent.InSession]
  obtain ⟨-, hignored, -, -⟩ := accepted_once_stale_forever hm hsession hids
  obtain ⟨-, hunchanged, hanswer⟩ := hignored x c hsub (Or.inl ⟨_, haccepted⟩) (by rw [hfaults])
  refine ⟨m, x, c, hm, hsub, haccepted, hagain, hgone, Prod.ext ?_ hunchanged⟩
  rw [hanswer (by rw [hfaults]), show c.node.hasSeen x.block.id = false from hgone]
  rfl

end Lifetime

end LedgerChain
