import LedgerChain.Proofs.Lifetime.Acceptance
import LedgerChain.Proofs.Node.Departed

/-!
# The moments of a session

A session is told by its **moments** (`Lifetime.moments`): the nodes between its events, and before
and after each block that is handed in, be it from outside, as an orphan that is released, or while
an author is at work.

Between two moments a node takes turns (`Node.Turn`): it imports a block, makes another step that
leaves its memory of invalid blocks alone, or its store begins to fail or is repaired.  All moments of
a session lead to the later ones in this way (`Lifetime.leadsTo_moments`), so what every turn keeps
holds at all moments after the first at which it does (`Node.Course.induct`).
-/

namespace LedgerChain

/-- A moment of a session. -/
structure Moment where
  node : Node
  /-- The block that is handed to the node then. -/
  handed : Option Block := none

/-- The moment at which a block is handed to a node. -/
def Handing.moment (x : Handing) : Moment := ⟨x.node, some x.block⟩

variable [Crypto]

/-- What was written up to a moment, and the block that is handed in then. -/
def Moment.blocks (k : Moment) : List Block :=
  Store.writtenBlocks k.node.store.journal ++ k.handed.toList

/-- The node once the block of a moment, if any, was handed in. -/
def Moment.after (k : Moment) : Node :=
  match k.handed with
  | none => k.node
  | some b => (k.node.importOne b).2

/-- The moments before and after a block is handed in. -/
def Handing.moments (x : Handing) : List Moment := [x.moment, ⟨x.after, none⟩]

/-- No two of the blocks have different headers under one identifier. -/
def Block.DistinctIds (bs : List Block) : Prop :=
  ∀ b ∈ bs, ∀ c ∈ bs, b.id = c.id → b.header = c.header

instance : DecidablePred Block.DistinctIds := fun bs =>
  inferInstanceAs (Decidable (∀ b ∈ bs, ∀ c ∈ bs, b.id = c.id → b.header = c.header))

theorem Block.DistinctIds.journal {bs : List Block} {w : List StoreWrite}
    (h : Block.DistinctIds bs) (hw : Store.writtenBlocks w ⊆ bs) : Store.DistinctIds w :=
  fun b state c state' hb hc => h b (hw (Store.mem_writtenBlocks.2 ⟨state, hb⟩)) c
    (hw (Store.mem_writtenBlocks.2 ⟨state', hc⟩))

namespace Node

variable {R : ChainTip → ChainTip → Prop} {params : Params} {genesis : ChainTip}
  {n n' m : Node} {bs : List Block} {b : Block} {log log' : List Handing}

/-! ### Turns -/

/-- One of the given blocks is handed in, or something else happens to the node. -/
inductive Turn (R : ChainTip → ChainTip → Prop) (bs : List Block) : Node → Node → Prop
  | handed (n : Node) {b : Block} (hb : b ∈ bs) : Turn R bs n (n.importOne b).2
  | step {n n' : Node} (h : Step (Placed R) n n') (hinvalid : n.Orderly → n'.invalid = n.invalid)
      (horder : n.Orderly → n'.Orderly) : Turn R bs n n'
  | setFaults (n : Node) (faults : Faults) :
      Turn R bs n { n with store := { n.store with faults } }

/-- Some turns one after the other. -/
abbrev Course (R : ChainTip → ChainTip → Prop) (bs : List Block) : Node → Node → Prop :=
  Relation.ReflTransGen (Turn R bs)

theorem Turn.run_or (h : Turn R bs n n') (hR : Linking params.consensus R)
    (hn : n.Kept R params genesis) :
    Run (Placed R) n n' ∨ ∃ faults, n' = { n with store := { n.store with faults } } := by
  cases h with
  | handed hb => exact Or.inl ((admits_placed hR).importOne hn _)
  | step hstep _ _ => exact Or.inl (.single hstep)
  | setFaults faults => exact Or.inr ⟨faults, rfl⟩

theorem Turn.orderly (h : Turn R bs n n') (hn : n.Orderly) : n'.Orderly := by
  cases h with
  | handed hb => exact hn.importOne _
  | step _ _ horder => exact horder hn
  | setFaults faults => exact orderly_of_orphans_eq rfl hn

theorem Turn.kept (h : Turn R bs n n') (hR : Linking params.consensus R)
    (hn : n.Kept R params genesis) :
    n'.Kept R params genesis ∧ n.store.journal <:+ n'.store.journal := by
  rcases h.run_or hR hn with hrun | ⟨faults, rfl⟩
  · have hlater : n.store.Later n'.store := Run.later hrun
    exact ⟨hrun.kept hR hn, hlater.suffix⟩
  · exact ⟨hn.withFaults faults, List.suffix_refl _⟩

theorem Course.kept (h : Course R bs n n') (hR : Linking params.consensus R)
    (hn : n.Kept R params genesis) (horder : n.Orderly) :
    n'.Kept R params genesis ∧ n'.Orderly ∧ n.store.journal <:+ n'.store.journal := by
  induction h with
  | refl => exact ⟨hn, horder, List.suffix_refl _⟩
  | tail _ hturn ih =>
    obtain ⟨hm, hmorder, hbefore⟩ := ih
    obtain ⟨hn', hlater⟩ := hturn.kept hR hm
    exact ⟨hn', hturn.orderly hmorder, hbefore.trans hlater⟩

/-- **What every turn keeps holds after a course of turns.** -/
theorem Course.induct {P : Node → Prop}
    (turn : ∀ {n n'}, n.Kept R params genesis → n.Orderly → Store.DistinctIds n'.store.journal →
      Turn R bs n n' → P n → P n')
    (h : Course R bs n n') (hR : Linking params.consensus R) (hn : n.Kept R params genesis)
    (horder : n.Orderly) (hids : Store.DistinctIds n'.store.journal) (hP : P n) : P n' := by
  induction h with
  | refl => exact hP
  | @tail m n' hcourse hturn ih =>
    obtain ⟨hm, hmorder, -⟩ := Course.kept hcourse hR hn horder
    obtain ⟨-, hlater⟩ := hturn.kept hR hm
    exact turn hm hmorder hids hturn (ih (hids.of_suffix hlater))

section Courses

variable (h : Course R bs n n') (hR : Linking params.consensus R) (hn : n.Kept R params genesis)
  (horder : n.Orderly) (hids : Store.DistinctIds n'.store.journal)

include h hR hn horder hids

theorem Course.contains {id : BlockId} (hin : n.store.blocks.contains id = true) :
    n'.store.blocks.contains id = true := by
  refine h.induct (P := fun m => m.store.blocks.contains id = true)
    (fun hm _ _ hturn hin => ?_) hR hn horder hids hin
  rcases hturn.run_or hR hm with hrun | ⟨faults, rfl⟩
  · exact hrun.contains hin
  · exact hin

theorem Course.gone {id : BlockId} (hgone : n.Gone id) : n'.Gone id := by
  refine h.induct (P := fun m => m.Gone id) (fun hm _ hids' hturn hgone => ?_) hR hn horder hids
    hgone
  rcases hturn.run_or hR hm with hrun | ⟨faults, rfl⟩
  · exact hrun.gone hR hm hids' hgone
  · exact ⟨hgone.stored, hgone.unseen⟩

theorem Course.outdated (hout : n.Outdated b) : n'.Outdated b := by
  refine h.induct (P := fun m => m.Outdated b) (fun hm _ hids' hturn hout => ?_) hR hn horder hids
    hout
  rcases hturn.run_or hR hm with hrun | ⟨faults, rfl⟩
  · exact hrun.outdated hR hm hids' hout
  · exact hout.imp (fun hgone => ⟨hgone.stored, hgone.unseen⟩) fun hlow => ⟨hlow.low, hlow.unfit⟩

theorem Course.taken (hzero : genesis.height = 0) (hheader : ∀ c ∈ bs, c.id = b.id →
    c.header = b.header) (htaken : n.Taken b) : n'.Taken b := by
  refine h.induct (P := fun m => m.Taken b) (fun {m m'} hm hmorder hids' hturn htaken => ?_) hR hn
    horder hids htaken
  have hlater := (hturn.kept hR hm).2
  cases hturn with
  | @handed c hc =>
    exact htaken.importOne hR hm hmorder hzero (hids'.of_suffix hlater) (hheader c hc)
  | step hstep hinvalid _ =>
    refine ⟨by rw [hstep.params_eq]; exact htaken.shape, ?_, ?_⟩
    · exact Run.writtenBlocks_subset (.single hstep) htaken.written
    · rw [hinvalid hmorder]
      exact htaken.clean
  | setFaults faults => exact ⟨htaken.shape, htaken.written, htaken.clean⟩

end Courses

/-! ### What a node leads to -/

/-- The first moment leads to the second one by turns. -/
structure Leads (R : ChainTip → ChainTip → Prop) (bs : List Block) (a c : Moment) : Prop where
  before : Course R bs a.node a.after
  after : Course R bs a.after c.node

theorem Leads.course {a c : Moment} (h : Leads R bs a c) : Course R bs a.node c.node :=
  h.before.trans h.after

instance : IsTrans Moment (Leads R bs) where
  trans _ _ _ hab hbc := ⟨hab.before, hab.after.trans hbc.course⟩

/-- The node leads to the first of the moments, and each of them to the next one. -/
def LeadsTo (R : ChainTip → ChainTip → Prop) (bs : List Block) (n : Node) (ks : List Moment) :
    Prop :=
  (⟨n, none⟩ :: ks).IsChain (Leads R bs)

variable {ks : List Moment}

theorem Course.leadsTo (h : Course R bs n n') (hks : LeadsTo R bs n' ks) : LeadsTo R bs n ks := by
  cases ks with
  | nil => exact .singleton _
  | cons k ks =>
    obtain ⟨hk, hrest⟩ := List.isChain_cons_cons.1 hks
    exact .cons_cons ⟨.refl, h.trans hk.course⟩ hrest

theorem Turn.leadsTo (h : Turn R bs n n') (hks : LeadsTo R bs n' ks) : LeadsTo R bs n ks :=
  Course.leadsTo (.single h) hks

theorem leadsTo_handing {x : Handing} (hx : x.block ∈ bs) (hks : LeadsTo R bs x.after ks) :
    LeadsTo R bs x.node (x.moments ++ ks) :=
  .cons_cons ⟨.refl, .refl⟩ (.cons_cons ⟨.single (.handed x.node hx), .refl⟩ hks)

theorem LeadsTo.now (hks : LeadsTo R bs n ks) : LeadsTo R bs n (⟨n, none⟩ :: ks) :=
  .cons_cons ⟨.refl, .refl⟩ hks

/-- **The blocks of a cascade are handed in one after the other.** -/
theorem Cascade.leadsTo {rest : List Block} {stack : List BlockId} {ending : Except ChainError Unit}
    (h : Cascade rest stack n log ending n') (hlog : ∀ x ∈ log, x.block ∈ bs)
    (hks : LeadsTo R bs n' ks) : LeadsTo R bs n (log.flatMap Handing.moments ++ ks) := by
  induction h with
  | done n => exact hks
  | @take n n' parent stack log ending _ ih =>
    refine Turn.leadsTo (.step (.aside (sameChain_takeOrphans n parent)) (fun hn => ?_) fun hn => ?_)
      (ih hlog hks)
    · exact (hn.takeOrphans parent).2.2.2
    · exact (hn.takeOrphans parent).2.2.1
  | @hand n n' n₁ b rest stack result log ending himport _ ih =>
    have hafter : n₁ = Handing.after ⟨n, b⟩ := by rw [Handing.after, himport]
    obtain ⟨hb, hlog⟩ := List.forall_mem_cons.1 hlog
    rw [List.flatMap_cons, List.append_assoc]
    exact leadsTo_handing hb (hafter ▸ ih hlog hks)
  | @fail n n' b rest stack e himport =>
    have hafter : n' = Handing.after ⟨n, b⟩ := by rw [Handing.after, himport]
    obtain ⟨hb, -⟩ := List.forall_mem_cons.1 hlog
    exact leadsTo_handing hb (hafter ▸ hks)

theorem Act.leadsTo (h : Act (Placed R) n log n') (hlog : ∀ x ∈ log, x.block ∈ bs)
    (hks : LeadsTo R bs n' ks) : LeadsTo R bs n (log.flatMap Handing.moments ++ ks) := by
  have hquiet : ∀ {m m'}, Step (Placed R) m m' → m.SameMemory m' → Turn R bs m m' :=
    fun hstep hmemory => .step hstep (fun _ => hmemory.invalid)
      (orderly_of_orphans_eq hmemory.orphans)
  cases h with
  | aside hchain hmemory => exact (hquiet (.aside hchain) hmemory).leadsTo hks
  | shutdown => exact (hquiet (.shutdown n) (sameMemory_shutdown n)).leadsTo hks
  | imported h => exact h.leadsTo hlog hks
  | @failed tip _ htip _ => exact (hquiet (.offer htip) (sameMemory_offer n tip)).leadsTo hks
  | @made _ tip _ update _ _ htip _ _ h =>
    have hpool := hquiet (.aside (sameChain_updatePool (n.offer tip).2 update))
      (sameMemory_updatePool _ update)
    exact (hquiet (.offer htip) (sameMemory_offer n tip)).leadsTo (hpool.leadsTo (h.leadsTo hlog hks))

/-- **The blocks of some acts are handed in one after the other.** -/
theorem Acts.leadsTo (h : Acts (Placed R) n log n') (hlog : ∀ x ∈ log, x.block ∈ bs)
    (hks : LeadsTo R bs n' ks) : LeadsTo R bs n (log.flatMap Handing.moments ++ ks) := by
  induction h with
  | refl n => exact hks
  | head hact _ ih =>
    obtain ⟨hone, hmore⟩ := List.forall_mem_append.1 hlog
    rw [List.flatMap_append, List.append_assoc]
    exact hact.leadsTo hone (ih hmore hks)

end Node

namespace Lifetime

open Node

variable {R : ChainTip → ChainTip → Prop} {params : Params} {initial : State}
  {events session : List LifeEvent} {m n : Node} {bs : List Block}

/-- The node at work, as a moment. -/
def now : Lifetime → List Moment
  | running n => [⟨n, none⟩]
  | stopped _ => []

/-- **The moments of some further events**: the nodes between them, and before and after each block
that is handed in. -/
def moments (params : Params) (initial : State) : Lifetime → List LifeEvent → List Moment
  | l, [] => l.now
  | l, event :: rest => l.now ++ ((l.handings event).flatMap Handing.moments ++
      moments params initial (l.next params initial event) rest)

/-- **The moments of a session lead from one to the next.** -/
theorem leadsTo_moments (hR : Linking params.consensus R)
    (hm : m.Kept R params (Genesis.tip params initial)) (horder : m.Orderly)
    (hsession : ∀ event ∈ session, event.InSession)
    (hbs : ∀ k ∈ moments params initial (running m) session, ∀ b ∈ k.handed, b ∈ bs) :
    LeadsTo R bs m (moments params initial (running m) session) := by
  induction session generalizing m with
  | nil => exact .now (.singleton _)
  | cons event rest ih =>
    obtain ⟨hevent, hrest⟩ := List.forall_mem_cons.1 hsession
    simp only [moments, now, List.singleton_append, List.mem_cons, List.mem_append] at hbs ⊢
    have hlog : ∀ x ∈ (running m).handings event, x.block ∈ bs := fun x hx =>
      hbs x.moment (Or.inr (Or.inl (List.mem_flatMap.2 ⟨x, hx, List.mem_cons_self⟩))) _ rfl
    refine .now ?_
    cases event with
    | operate operation =>
      have hacts := acts_perform horder (admits_placed hR) (fun h => h.sound.wellFormed) hm operation
      have hrun := hacts.run_of (admits_placed hR) hm
      exact hacts.leadsTo hlog (ih (hrun.kept hR hm) (hacts.orderly horder) hrest
        fun k hk => hbs k (Or.inr (Or.inr hk)))
    | setFaults faults =>
      have hturn : Turn R bs m { m with store := { m.store with faults } } := .setFaults m faults
      exact hturn.leadsTo (ih (hm.withFaults faults) (hturn.orderly horder) hrest
        fun k hk => hbs k (Or.inr (Or.inr hk)))
    | restart pool => cases hevent
    | crash lost => cases hevent

end Lifetime

end LedgerChain
