import LedgerChain.Proofs.Node.Recovery
import LedgerChain.Proofs.Node.Release

/-!
# Convergence

A node that is handed all blocks of a set ends with exactly these blocks in its tree, whatever their
order (`handleAll_deliveries`): between two imports no orphan has its parent in the tree, so once
all blocks were handed in, none can be left waiting (`Gathers.all_seen`).  Two nodes with the same
blocks have the same weights, so the same best tip, and publish the same status
(`Gathered.status_eq`).
-/

namespace LedgerChain

namespace Node

variable [Crypto] {params : Params} {initial : State} {genesis tip : ChainTip}
  {tips w order : List ChainTip} {pool : Mempool} {n n' m : Node} {s : Store}

/-! ### One import -/

omit [Crypto] in
theorem isRejected_of_isAccepted {result : ImportResult} (h : result.isAccepted = true) :
    result.isRejected = false := by
  cases result <;> first | rfl | cases h

namespace Gathers

theorem orphanCount_eq (h : Gathers params genesis tips n w) : n.orphanCount = w.length := by
  obtain ⟨pool, hpool, hholds, -⟩ := h.pool
  rw [orphanCount, hpool, Option.map_some, Option.getD_some, hholds.size_eq, List.length_map]

/-- **An import of a block of the set is not rejected**, and the block is in the tree afterwards, or
waits. -/
theorem importBlock (h : Gathers params genesis tips n w) (hset : BlockSet params genesis tips)
    (hzero : genesis.height = 0) (hclosed : n.Closed w) (htip : tip ∈ tips) :
    ∃ result w' n', n.importBlock tip.block = (.ok result, n') ∧ result.isRejected = false ∧
      Gathers params genesis tips n' w' ∧ n'.Closed w' ∧ KeepsAll n w n' w' ∧ n'.Has w' tip := by
  cases hnew : n.hasSeen tip.id with
  | true =>
    -- a repeat
    have himport : n.importOne tip.block = (.ok (.ignored .alreadyKnown), n) := by
      rw [importOne, show n.hasSeen tip.block.id = true from hnew, if_pos rfl]
    refine ⟨.ignored .alreadyKnown, w, n, ?_, rfl, h, hclosed, .refl,
      Or.inl hnew⟩
    rw [Node.importBlock, himport]
    rfl
  | false =>
    cases hparent : n.hasSeen tip.parent with
    | false =>
      obtain ⟨w', n', himport, hfork, hn', hmem⟩ := h.importOne_waits hset hzero htip hnew hparent
      have hseen : ∀ id, n'.hasSeen id = n.hasSeen id := by
        intro id
        rw [hasSeen, hasSeen, hfork]
      refine ⟨.pendingParent, w', n', ?_, rfl, hn', fun t ht => ?_,
        ⟨fun id hid => (hseen id).trans hid, fun t ht => Or.inr ((hmem t).2 (Or.inl ht))⟩,
        Or.inr ((hmem tip).2 (Or.inr rfl))⟩
      · rw [Node.importBlock, himport]
        rfl
      · rw [hseen]
        rcases (hmem t).1 ht with ht | rfl
        · exact hclosed t ht
        · exact hparent
    | true =>
      -- orphans have no parent in the tree, so this is none of them
      have hout : tip ∉ w := by
        intro hin
        rw [hclosed tip hin] at hparent
        cases hparent
      obtain ⟨result, n₁, himport, haccepted, hn₁, hseen⟩ :=
        h.importOne_fits hset hzero htip hnew hparent hout
      -- the orphans that have their parent in the tree now wait for this very block
      have hreleases : Releases params genesis tips n₁ w [tip.id] := by
        refine ⟨hn₁, fun id hid => (hseen id).2 (Or.inr (List.mem_singleton.1 hid)),
          fun t ht hopen => ?_⟩
        rcases (hseen _).1 hopen with hold | hid
        · rw [hclosed t ht] at hold
          cases hold
        · exact List.mem_singleton.2 hid
      have hsteps : [tip.id].length + w.length ≤ n₁.orphanCount + 1 := by
        rw [hn₁.orphanCount_eq, List.length_singleton]
        omega
      obtain ⟨w', n', hrelease, hn', hclosed', hkeeps⟩ :=
        hreleases.releaseFrom hset hzero hsteps
      refine ⟨result, w', n', ?_, isRejected_of_isAccepted haccepted, hn', hclosed',
        KeepsAll.trans ⟨fun id hid => (hseen id).2 (Or.inl hid), fun _ => Or.inr⟩ hkeeps,
        Or.inl (hkeeps.seen _ ((hseen _).2 (Or.inr rfl)))⟩
      rw [Node.importBlock, himport]
      simp only [haccepted, Bool.not_true, Bool.false_eq_true, if_false, releaseOrphans]
      rw [show tip.block.id = tip.id from rfl, hrelease]

end Gathers

/-! ### A sequence of imports -/

/-- The imports of blocks in order. -/
def deliveries (order : List ChainTip) : List NodeEvent :=
  order.map fun tip => .importBlock tip.block

/-- **Along any sequence of imports of blocks of the set** none is rejected, and none is lost. -/
theorem Gathers.handleAll_deliveries (h : Gathers params genesis tips n w)
    (hset : BlockSet params genesis tips) (hzero : genesis.height = 0) (hclosed : n.Closed w)
    (horder : ∀ tip ∈ order, tip ∈ tips) :
    ∃ answers w' n', n.handleAll (deliveries order) = (answers, n') ∧
      (∀ answer ∈ answers, ∃ result, answer = .imported (.ok result) ∧ result.isRejected = false) ∧
      Gathers params genesis tips n' w' ∧ n'.Closed w' ∧ KeepsAll n w n' w' ∧
      ∀ tip ∈ order, n'.Has w' tip := by
  induction order generalizing n w with
  | nil =>
    exact ⟨[], w, n, rfl, List.forall_mem_nil _, h, hclosed, .refl,
      List.forall_mem_nil _⟩
  | cons tip rest ih =>
    obtain ⟨result, w₁, n₁, himport, hresult, hn₁, hclosed₁, hkeeps₁, htip⟩ :=
      h.importBlock hset hzero hclosed (horder tip List.mem_cons_self)
    obtain ⟨answers, w', n', hrest, hanswers, hn', hclosed', hkeeps', hall⟩ :=
      ih hn₁ hclosed₁ fun t ht => horder t (List.mem_cons_of_mem _ ht)
    refine ⟨.imported (.ok result) :: answers, w', n', ?_, fun a ha => ?_, hn', hclosed',
      hkeeps₁.trans hkeeps', fun t ht => ?_⟩
    · rw [deliveries, List.map_cons, handleAll, handle, himport]
      simp only
      rw [show rest.map (fun tip => NodeEvent.importBlock tip.block) = deliveries rest from rfl,
        hrest]
    · rcases List.mem_cons.1 ha with rfl | ha
      · exact ⟨result, rfl, hresult⟩
      · exact hanswers a ha
    · rcases List.mem_cons.1 ht with rfl | ht
      · exact hkeeps'.apply htip
      · exact hall t ht

/-- **When all blocks were handed in, all are in the tree**, by induction on their height. -/
theorem Gathers.all_seen (h : Gathers params genesis tips n w) (hset : BlockSet params genesis tips)
    (hclosed : n.Closed w) (hall : ∀ tip ∈ tips, n.Has w tip) :
    ∀ height, ∀ tip ∈ genesis :: tips, tip.height = height → n.hasSeen tip.id = true := by
  intro height
  induction height using Nat.strong_induction_on with
  | _ height ih =>
    intro tip hmem hheight
    rcases List.mem_cons.1 hmem with rfl | htip
    · exact h.genesis_seen
    · obtain ⟨p, hp, hfollows, -⟩ := hset.follows htip
      have hparent : n.hasSeen tip.parent = true := by
        have hlow := hfollows.height_eq
        rw [hfollows.parent_eq]
        exact ih p.height (by omega) p hp rfl
      refine (hall tip htip).resolve_right fun hwaits => ?_
      rw [hclosed tip hwaits] at hparent
      cases hparent

/-! ### All blocks in the tree -/

/-- A node with genesis and the whole set in its tree, and nothing else. -/
structure Gathered (genesis : ChainTip) (tips : List ChainTip) (n : Node) : Prop where
  mem_iff : ∀ id, n.hasSeen id = true ↔ id ∈ (genesis :: tips).map ChainTip.id
  known : ∀ id e, n.forkChoice.tree.find? id = some e → e.tip ∈ genesis :: tips
  root_eq : n.forkChoice.tree.root = genesis.id
  root_weight : ∀ e, n.forkChoice.tree.find? n.forkChoice.tree.root = some e →
    e.cumulativeWeight = 0
  orphanCount_eq : n.orphanCount = 0
  wellFormed : n.forkChoice.WellFormed
  best : n.AtBest

theorem Gathers.gathered (h : Gathers params genesis tips n w) (hset : BlockSet params genesis tips)
    (hclosed : n.Closed w) (hall : ∀ tip ∈ tips, n.Has w tip) :
    n.Gathered genesis tips where
  mem_iff id := by
    rw [List.mem_map]
    constructor
    · intro hid
      obtain ⟨e, he⟩ := ChainTree.contains_iff.1 hid
      exact ⟨e.tip, h.known he, h.sound.wellFormed.tree.id_eq he⟩
    · rintro ⟨tip, htip, rfl⟩
      exact h.all_seen hset hclosed hall _ tip htip rfl
  known _ _ he := h.known he
  root_eq := h.root_eq
  root_weight _ he := h.root_weight he
  orphanCount_eq := by
    rw [h.orphanCount_eq, List.length_eq_zero_iff, List.eq_nil_iff_forall_not_mem]
    intro t ht
    obtain ⟨htip, hnot⟩ := h.waiting t ht
    rw [h.all_seen hset hclosed hall _ t (List.mem_cons_of_mem _ htip) rfl] at hnot
    cases hnot
  wellFormed := h.sound.wellFormed
  best := h.best

namespace Gathered

variable (hset : BlockSet params genesis tips) (hn : n.Gathered genesis tips)
  (hm : m.Gathered genesis tips)

include hset hn hm

theorem part : n.forkChoice.tree.Part m.forkChoice.tree := by
  intro id e he
  have hid := hn.wellFormed.tree.id_eq he
  have htip := hn.known id e he
  obtain ⟨f, hf⟩ := ChainTree.contains_iff.1 ((hm.mem_iff id).2 (hid ▸ List.mem_map_of_mem htip))
  have hsame : f.tip = e.tip :=
    hset.eq_of_id (hm.known id f hf) htip ((hm.wellFormed.tree.id_eq hf).trans hid.symm)
  exact ⟨f, hf, by rw [hsame], by rw [hsame], fun _ => by rw [hsame]⟩

theorem exists_same {id : BlockId} {e : TreeEntry} (he : n.forkChoice.tree.find? id = some e) :
    ∃ f, m.forkChoice.tree.find? id = some f ∧ f.height = e.height ∧
      f.cumulativeWeight = e.cumulativeWeight := by
  have hpart := part hset hn hm
  obtain ⟨f, hf, hblock, -⟩ := hpart id e he
  obtain ⟨r, hr⟩ := hn.wellFormed.tree.root_mem
  obtain ⟨r', hr'⟩ := hm.wellFormed.tree.root_mem
  have hzero := hn.root_weight r hr
  have hzero' := hm.root_weight r' hr'
  rw [hm.root_eq, ← hn.root_eq] at hr'
  have hweight := hpart.weight_eq hn.wellFormed.tree hm.wellFormed.tree hr hr' he hf
  refine ⟨f, hf, ?_, by omega⟩
  rw [TreeEntry.height, TreeEntry.height, ChainTip.height, ChainTip.height, hblock]

/-- **Two nodes with the same blocks have the same status.** -/
theorem status_eq : n.forkChoice.status = m.forkChoice.status := by
  obtain ⟨e, he, hheight⟩ := hn.wellFormed.best
  obtain ⟨f, hf, hsame, hweight⟩ := exists_same hset hn hm he
  -- what is best in one tree beats all others in the other one
  have hbest : m.forkChoice.tree.IsBest n.forkChoice.best := by
    refine hm.wellFormed.tree.isBest_of_beats hm.wellFormed.weighted hf fun b g hg hne => ?_
    obtain ⟨g', hg', -, hcw⟩ := exists_same hset hm hn hg
    rw [hweight, ← hcw]
    exact hn.best.beats he hg' hne
  have htip : n.forkChoice.best = m.forkChoice.best := hbest.unique hm.wellFormed.tree hm.best
  obtain ⟨f', hf', hheight'⟩ := hm.wellFormed.best
  rw [← htip, hf] at hf'
  cases hf'
  have hrank : n.forkChoice.rank = m.forkChoice.rank := by
    rw [ForkChoice.rank_eq he, ForkChoice.rank_eq (htip ▸ hf), htip, hweight]
  rw [ForkChoice.status, ForkChoice.status, ← hheight, ← hheight', hsame, htip, hn.root_eq,
    hm.root_eq]
  exact congrArg (fun weight => ChainStatus.mk _ _ weight _) (congrArg Prod.snd hrank)

end Gathered

/-! ### From the start on -/

/-- Of a store without blocks, a start makes one with genesis in it, and a tree of genesis alone. -/
theorem gathers_of_start (hset : BlockSet params (Genesis.tip params initial) tips)
    (h : start params {} pool initial = (.ok n, s)) :
    Gathers params (Genesis.tip params initial) tips n [] := by
  have hs : Recoverable (Follows (.ofRule params.consensus.sealRule))
      (Genesis.tip params initial) {} := Recoverable.empty
  have hw : ({} : Store).Weighed (.ofRule params.consensus.sealRule) := Store.Weighed.empty
  have hrec := recovered_of_start (linking_follows params.consensus) hs hw
    Store.DistinctIds.empty h
  obtain ⟨hsound, hbest, hstore⟩ := sound_of_start hs.journaled hw h
  -- the store was empty, so genesis is all that it has now
  have hgenesis : ∀ {id sb}, n.store.blocks.find? id = some sb →
      id = (Genesis.tip params initial).id :=
    fun hsb => eq_genesis_of_start hs.journaled rfl h hsb
  have hroot : n.forkChoice.tree.root = (Genesis.tip params initial).id := hrec.root_eq
  have hfaults : n.store.faults = {} := by
    have hboot := boot_start params {} pool initial
    rw [h] at hboot
    rw [hstore]
    exact hboot.faults_eq
  obtain ⟨root, s₁, t, hload, ht, -, rfl⟩ := start_ok_cases h
  obtain ⟨-, r, hr, htip, -⟩ := root_of_restoreTree ht
  have hrootTip : root = Genesis.tip params initial := by
    rcases loadRoot_ok_cases hload with ⟨id, hfin, -⟩ | ⟨-, heq, -⟩
    · cases hfin
    · exact heq
  obtain ⟨capacity, hpolicy, hroom⟩ := hset.room
  refine ⟨hsound, rfl, hfaults, ForkChoice.finalityDepth_ofTree _ t, hroot,
    fun he => hrec.root_weight _ he, fun {id e} he => ?_,
    fun {id} hid => ?_, rfl, hbest, ⟨{ capacity }, ?_, OrphanPool.holds_new capacity, hroom⟩,
    List.forall_mem_nil _⟩
  · have hid := hgenesis (hrec.stored id e he)
    have he' : t.find? root.id = some e := by
      rw [hrootTip, ← hid, ← ForkChoice.tree_ofTree params.run.finalityDepth t]
      exact he
    rw [hr] at he'
    cases he'
    rw [htip, hrootTip]
    exact List.mem_cons_self
  · obtain ⟨sb, hsb⟩ := Table.contains_iff.1 hid
    rw [hgenesis hsb]
    exact (hrec.mem_iff _).2 (Or.inl hroot.symm)
  · rw [ofForkChoice, hpolicy]

theorem gathered_of_start (hset : BlockSet params (Genesis.tip params initial) tips)
    (h : start params {} pool initial = (.ok n, s)) (horder : ∀ tip, tip ∈ order ↔ tip ∈ tips) :
    ∃ answers n', n.handleAll (deliveries order) = (answers, n') ∧
      (∀ answer ∈ answers, ∃ result, answer = .imported (.ok result) ∧ result.isRejected = false) ∧
      n'.Gathered (Genesis.tip params initial) tips ∧ n'.Published := by
  have hn := gathers_of_start hset h
  obtain ⟨answers, w', n', hrun, hanswers, hn', hclosed, -, hall⟩ :=
    hn.handleAll_deliveries hset rfl (List.forall_mem_nil _) fun tip ht => (horder tip).1 ht
  refine ⟨answers, n', hrun, hanswers,
    hn'.gathered hset hclosed fun tip ht => hall tip ((horder tip).2 ht), ?_⟩
  have hpublished : n.Published := by
    obtain ⟨root, s₁, t, -, -, -, rfl⟩ := start_ok_cases h
    rfl
  have hwhole := admits_heavy.handleAll hn.sound.wellFormed (deliveries order)
  rw [hrun] at hwhole
  exact Run.published hwhole hn.sound.wellFormed hpublished

end Node

end LedgerChain
